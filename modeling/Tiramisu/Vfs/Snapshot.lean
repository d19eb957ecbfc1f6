import Tiramisu.Vfs.InodeMap

/-!
# Directories, and the shards put together

A save copies the shards one after the other into three merged maps.  Names
and content keys lie in the shard their hash routes them to, so the merged maps
answer as the sharded ones do.  The root directory is filed in shard 0 from the
start, wherever its hash would put it.
-/

namespace Tiramisu.Vfs

open Go AList

/-- The merged maps of a save; the base-name index is not saved. -/
structure Snapshot where
  nameMap : GoMap String String
  fileMap : GoMap String UInt64
  dirMap : GoMap String UInt64

/-- One round of the copying loop. -/
def Snapshot.copyShard (snap : Snapshot) (s : InodeShard) : Snapshot where
  nameMap := snap.nameMap.insertFrom id s.nameMap
  fileMap := snap.fileMap.insertFrom id s.fileMap
  dirMap := snap.dirMap.insertFrom id s.dirMap

namespace InodeMap

def snapshot (im : InodeMap) : Snapshot :=
  (List.finRange 32).foldl (fun snap i => snap.copyShard (im.shards i)) ⟨∅, ∅, ∅⟩

def inodeDirMask : UInt64 := 0x8000000000000000

variable (H : Hashing)

def generateDirInode (relativePath : String) : UInt64 :=
  if relativePath = "/" ∨ relativePath = "" then inodeRoot
  else H.sum64String relativePath ||| inodeDirMask

def setDir (im : InodeMap) (relPath : String) (inode : UInt64) : InodeMap :=
  let s := im.getShard H relPath
  im.setShard H relPath { s with dirMap := s.dirMap.insert relPath inode }

def dirOf (im : InodeMap) (relPath : String) : Option UInt64 :=
  (im.getShard H relPath).dirMap.lookup relPath

/-- `AddDir`: an entry that is there stays as it is. -/
def addDir (im : InodeMap) (relativePath : String) : InodeMap × UInt64 :=
  let inode := generateDirInode H relativePath
  (if im.dirOf H relativePath = none then
      { im.setDir H relativePath inode with dirty := true } else im, inode)

/-- `GetDirInode` registers a directory it does not know. -/
def getDirInode (im : InodeMap) (relativePath : String) : InodeMap × UInt64 :=
  if relativePath = "/" ∨ relativePath = "" then (im, inodeRoot) else
  match im.dirOf H relativePath with
  | some inode => (im, inode)
  | none => im.addDir H relativePath

/-! ### Every entry lies in its shard -/

structure Placed (im : InodeMap) : Prop where
  names : ∀ i, ∀ p ∈ (im.shards i).nameMap, shardIndex H p = i
  files : ∀ i, ∀ k ∈ (im.shards i).fileMap, shardIndex H k = i

/-- A change of the file maps: entries stay in their shards and the
directories are as before. -/
structure Tidy (im im' : InodeMap) : Prop where
  placed : Placed H im → Placed H im'
  dirs : ∀ i, (im'.shards i).dirMap = (im.shards i).dirMap

section Changes

variable {H}
variable (im : InodeMap) (p k : String) (v : UInt64)

lemma placed_new : Placed H newInodeMap where
  names i p hp := by
    rw [← lookup_isSome] at hp
    simp only [newInodeMap] at hp
    split_ifs at hp <;> simp [empty] at hp
  files i k hk := by
    rw [← lookup_isSome] at hk
    simp only [newInodeMap] at hk
    split_ifs at hk <;> simp [empty] at hk

lemma shards_setShard (s : InodeShard) (i : Fin 32) :
    (im.setShard H k s).shards i = if i = shardIndex H k then s else im.shards i := by
  simp [setShard, Function.update_apply]

lemma Placed.setShard {im : InodeMap} (h : Placed H im) {s : InodeShard}
    (hn : ∀ q ∈ s.nameMap, q = k ∨ q ∈ (im.getShard H k).nameMap)
    (hf : ∀ q ∈ s.fileMap, q = k ∨ q ∈ (im.getShard H k).fileMap) :
    Placed H (im.setShard H k s) := by
  refine ⟨fun i q hq => ?_, fun i q hq => ?_⟩
  · rw [shards_setShard] at hq
    split_ifs at hq with hi
    · rcases hn q hq with rfl | hold
      · exact hi.symm
      · rw [hi]
        exact h.names _ q hold
    · exact h.names i q hq
  · rw [shards_setShard] at hq
    split_ifs at hq with hi
    · rcases hf q hq with rfl | hold
      · exact hi.symm
      · rw [hi]
        exact h.files _ q hold
    · exact h.files i q hq

lemma dirMap_setShard {s : InodeShard} (hs : s.dirMap = (im.getShard H k).dirMap) (i : Fin 32) :
    ((im.setShard H k s).shards i).dirMap = (im.shards i).dirMap := by
  rw [shards_setShard]
  split_ifs with hi
  · rw [hs, getShard, hi]
  · rfl

variable {im} in
lemma Tidy.setShard {s : InodeShard} (hd : s.dirMap = (im.getShard H k).dirMap)
    (hn : ∀ q ∈ s.nameMap, q = k ∨ q ∈ (im.getShard H k).nameMap)
    (hf : ∀ q ∈ s.fileMap, q = k ∨ q ∈ (im.getShard H k).fileMap) :
    Tidy H im (im.setShard H k s) :=
  ⟨fun h => h.setShard k hn hf, dirMap_setShard im k hd⟩

lemma Tidy.refl : Tidy H im im := ⟨id, fun _ => rfl⟩

variable {im} in
lemma Tidy.trans {im' im'' : InodeMap} (h : Tidy H im im') (h' : Tidy H im' im'') :
    Tidy H im im'' :=
  ⟨fun hp => h'.placed (h.placed hp), fun i => (h'.dirs i).trans (h.dirs i)⟩

lemma tidy_dirty (b : Bool) : Tidy H im { im with dirty := b } :=
  ⟨fun h => ⟨h.names, h.files⟩, fun _ => rfl⟩

lemma tidy_setName : Tidy H im (im.setName H p k) :=
  .setShard p rfl (fun _ hq => mem_insert _ |>.mp hq) fun _ hq => .inr hq

lemma tidy_deleteName : Tidy H im (im.deleteName H p) :=
  .setShard p rfl (fun _ hq => .inr (mem_erase.mp hq).2) fun _ hq => .inr hq

lemma tidy_setFile : Tidy H im (im.setFile H k v) :=
  .setShard k rfl (fun _ hq => .inr hq) fun _ hq => mem_insert _ |>.mp hq

lemma tidy_deleteFile : Tidy H im (im.deleteFile H k) :=
  .setShard k rfl (fun _ hq => .inr hq) fun _ hq => .inr (mem_erase.mp hq).2

lemma tidy_setFast : Tidy H im (im.setFast H k v) :=
  .setShard k rfl (fun _ hq => .inr hq) fun _ hq => .inr hq

lemma tidy_deleteFast : Tidy H im (im.deleteFast H k) :=
  .setShard k rfl (fun _ hq => .inr hq) fun _ hq => .inr hq

lemma tidy_addFile (infohash : String) (index : ℤ) :
    Tidy H im (im.addFile H p infohash index).1 := by
  simp only [addFile]
  split_ifs
  · exact .refl im
  · exact .refl im
  · exact (tidy_setName im p _).trans <| (tidy_setFile _ _ _).trans <|
      (tidy_setFast _ _ _).trans (tidy_dirty _ true)

lemma tidy_removeFile : Tidy H im (im.removeFile H p) := by
  cases hname : im.nameOf H p with
  | none =>
    simp only [removeFile, hname]
    exact .refl im
  | some key =>
    simp only [removeFile, hname]
    refine (tidy_deleteName im p).trans ((tidy_deleteFile _ key).trans ?_)
    split_ifs
    · exact (tidy_deleteFast _ _).trans (tidy_dirty _ true)
    · exact tidy_dirty _ true

lemma tidy_removeFiles (ps : List String) : Tidy H im (im.removeFiles H ps) := by
  induction ps generalizing im with
  | nil => exact .refl im
  | cons p ps ih => exact (tidy_removeFile im p).trans (ih _)

lemma tidy_call (c : Call) : Tidy H im (call H im c) := by
  cases c with
  | addFile p infohash index => exact tidy_addFile im p infohash index
  | removeFile p => exact tidy_removeFile im p
  | pruneMissing found ps =>
    refine (tidy_removeFiles im ps).trans ?_
    simp only [call, pruneMissing]
    split_ifs
    · exact .refl _
    · exact tidy_dirty _ true

variable {im} in
lemma Placed.setDir (h : Placed H im) : Placed H (im.setDir H p v) :=
  h.setShard p (fun _ hq => .inr hq) fun _ hq => .inr hq

@[simp] lemma nameOf_setDir (q : String) : (im.setDir H p v).nameOf H q = im.nameOf H q :=
  lookup_setShard im p q InodeShard.nameMap rfl

@[simp] lemma inodeOf_setDir (l : String) : (im.setDir H p v).inodeOf H l = im.inodeOf H l :=
  lookup_setShard im p l InodeShard.fileMap rfl

end Changes

/-! ### The merged maps answer as the shards do -/

section Merged

variable {H} {im : InodeMap}

lemma lookup_snapshot {ν : Type} (field : Snapshot → GoMap String ν)
    (part : InodeShard → GoMap String ν) (hempty : field ⟨∅, ∅, ∅⟩ = ∅)
    (hcopy : ∀ snap s, field (snap.copyShard s) = (field snap).insertFrom id (part s))
    {k : String} (j : Fin 32) (h : ∀ i, i ≠ j → (part (im.shards i)).lookup k = none) :
    (field im.snapshot).lookup k = (part (im.shards j)).lookup k := by
  have hstep : ∀ snap i, (field (snap.copyShard (im.shards i))).lookup k
      = ((part (im.shards i)).lookup k).or ((field snap).lookup k) := by
    intro snap i
    rw [hcopy, GoMap.lookup_insertFrom, Option.map_id, id]
  cases hj : (part (im.shards j)).lookup k with
  | none =>
    have hmiss : ∀ i, (part (im.shards i)).lookup k = none := fun i => by
      by_cases hi : i = j
      · rw [hi, hj]
      · exact h i hi
    have hread : (field im.snapshot).lookup k = (field ⟨∅, ∅, ∅⟩).lookup k := by
      refine Writes.foldl_of_miss (fun snap => (field snap).lookup k) ?_ _
      intro i _ snap
      rw [hstep, hmiss, Option.none_or]
    rw [hread, hempty]
    rfl
  | some v =>
    refine Writes.foldl_of_hit (fun snap => (field snap).lookup k) (· = j) ?_ ?_
      ⟨j, List.mem_finRange j, rfl⟩ _
    · intro i _ hi snap
      rw [hstep, h i hi, Option.none_or]
    · rintro i _ rfl snap
      rw [hstep, hj, Option.some_or]

lemma Placed.lookup_nameMap (h : Placed H im) (p : String) :
    im.snapshot.nameMap.lookup p = im.nameOf H p := by
  refine lookup_snapshot Snapshot.nameMap InodeShard.nameMap rfl
    (fun _ _ => rfl) (shardIndex H p) fun i hi => ?_
  rw [lookup_eq_none]
  exact fun hp => hi (h.names i p hp).symm

lemma Placed.lookup_fileMap (h : Placed H im) (k : String) :
    im.snapshot.fileMap.lookup k = im.inodeOf H k := by
  refine lookup_snapshot Snapshot.fileMap InodeShard.fileMap rfl
    (fun _ _ => rfl) (shardIndex H k) fun i hi => ?_
  rw [lookup_eq_none]
  exact fun hk => hi (h.files i k hk).symm

/-- A merged directory comes from one of the shards. -/
lemma exists_of_lookup_dirMap {d : String} {v : UInt64}
    (h : im.snapshot.dirMap.lookup d = some v) :
    ∃ i, (im.shards i).dirMap.lookup d = some v := by
  have hfold : ∀ (is : List (Fin 32)) (snap : Snapshot),
      (is.foldl (fun snap i => snap.copyShard (im.shards i)) snap).dirMap.lookup d = some v →
      (∃ i, (im.shards i).dirMap.lookup d = some v) ∨ snap.dirMap.lookup d = some v := by
    intro is
    induction is with
    | nil => exact fun snap h => .inr h
    | cons i is ih =>
      intro snap h
      rcases ih _ h with hex | hsnap
      · exact .inl hex
      change (snap.dirMap.insertFrom id (im.shards i).dirMap).lookup d = some v at hsnap
      rw [GoMap.lookup_insertFrom, Option.map_id, id, Option.or_eq_some_iff] at hsnap
      rcases hsnap with hi | ⟨-, hsnap⟩
      · exact .inl ⟨i, hi⟩
      · exact .inr hsnap
  rcases hfold _ _ h with hex | hempty
  · exact hex
  · simp at hempty

end Merged

end InodeMap

end Tiramisu.Vfs
