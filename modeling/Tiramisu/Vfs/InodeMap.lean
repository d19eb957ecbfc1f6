import Tiramisu.Go.Maps
import Tiramisu.Go.Text
import Tiramisu.Lib.Runs

/-!
# The sharded inode map

Content identity (`infohash:index`) decides a file's inode.  Three maps,
each spread over 32 shards by a hash of its own key, lead from a path to its
content key, from the key to the inode and from a base name to the inode.
-/

namespace Tiramisu.Vfs

open Go

scoped instance shards_neZero : NeZero 32 := ⟨by decide⟩

structure InodeShard where
  fileMap : GoMap String UInt64
  dirMap : GoMap String UInt64
  nameMap : GoMap String String
  fastFileMap : GoMap String UInt64

structure InodeMap where
  shards : Fin 32 → InodeShard
  dirty : Bool

def inodeFileMask : UInt64 := 0x7FFFFFFFFFFFFFFF

def inodeRoot : UInt64 := 1

/-- What the map takes from outside the repository: `xxhash.Sum64String` and
the Unicode lower-casing of `strings.ToLower`. -/
structure Hashing where
  sum64String : String → UInt64
  toLower : String → String

namespace InodeMap

def empty : InodeShard := ⟨∅, ∅, ∅, ∅⟩

/-- `NewInodeMap`: empty shards, the root directory filed in shard 0. -/
def newInodeMap : InodeMap where
  shards i := if i = 0 then { empty with dirMap := (∅ : GoMap String UInt64).insert "/" inodeRoot }
    else empty
  dirty := false

variable (H : Hashing)

/-- The `"%s:%d"` key of a torrent file. -/
def fileKey (infohash : String) (index : ℤ) : String :=
  H.toLower infohash ++ ":" ++ toString index

def generateFileInode (infohash : String) (index : ℤ) : UInt64 :=
  H.sum64String (fileKey H infohash index) &&& inodeFileMask

/-- `getShard`: the low five bits of the hash, `shardMask` being 31. -/
def shardIndex (key : String) : Fin 32 :=
  Fin.ofNat 32 (H.sum64String key).toNat

def getShard (im : InodeMap) (key : String) : InodeShard := im.shards (shardIndex H key)

/-- Replace the shard `key` is routed to. -/
def setShard (im : InodeMap) (key : String) (s : InodeShard) : InodeMap :=
  { im with shards := Function.update im.shards (shardIndex H key) s }

def setName (im : InodeMap) (path key : String) : InodeMap :=
  let s := im.getShard H path
  im.setShard H path { s with nameMap := s.nameMap.insert path key }

def deleteName (im : InodeMap) (path : String) : InodeMap :=
  let s := im.getShard H path
  im.setShard H path { s with nameMap := s.nameMap.erase path }

def setFile (im : InodeMap) (key : String) (inode : UInt64) : InodeMap :=
  let s := im.getShard H key
  im.setShard H key { s with fileMap := s.fileMap.insert key inode }

def deleteFile (im : InodeMap) (key : String) : InodeMap :=
  let s := im.getShard H key
  im.setShard H key { s with fileMap := s.fileMap.erase key }

def setFast (im : InodeMap) (name : String) (inode : UInt64) : InodeMap :=
  let s := im.getShard H name
  im.setShard H name { s with fastFileMap := s.fastFileMap.insert name inode }

def deleteFast (im : InodeMap) (name : String) : InodeMap :=
  let s := im.getShard H name
  im.setShard H name { s with fastFileMap := s.fastFileMap.erase name }

/-- The content key a path is registered under. -/
def nameOf (im : InodeMap) (path : String) : Option String :=
  (im.getShard H path).nameMap.lookup path

/-- The inode stored for a content key. -/
def inodeOf (im : InodeMap) (key : String) : Option UInt64 :=
  (im.getShard H key).fileMap.lookup key

/-- The inode stored for a base name. -/
def fastOf (im : InodeMap) (name : String) : Option UInt64 :=
  (im.getShard H name).fastFileMap.lookup name

/-- `AddFile`.  A path already registered under the same key returns early and
touches no other map. -/
def addFile (im : InodeMap) (fullPath infohash : String) (index : ℤ) : InodeMap × UInt64 :=
  if infohash = "" then (im, 0) else
  let key := fileKey H infohash index
  let inode := generateFileInode H infohash index
  if im.nameOf H fullPath = some key then (im, inode) else
  let im := im.setName H fullPath key
  let im := im.setFile H key inode
  let im := im.setFast H (filepathBase fullPath) inode
  ({ im with dirty := true }, inode)

def getFileInode (im : InodeMap) (fullPath : String) : UInt64 :=
  match im.nameOf H fullPath with
  | none => 0
  | some key => (im.inodeOf H key).getD 0

/-- `RemoveFile`.  The content entry of the key goes with the path. -/
def removeFile (im : InodeMap) (fullPath : String) : InodeMap :=
  match im.nameOf H fullPath with
  | none => im
  | some key =>
    let im := im.deleteName H fullPath
    let targetInode := (im.inodeOf H key).getD 0
    let im := im.deleteFile H key
    let filename := filepathBase fullPath
    let im := if im.fastOf H filename = some targetInode then im.deleteFast H filename else im
    { im with dirty := true }

/-- The first pass of `PruneMissing`: the registered paths the scan did not
find, shard by shard. -/
def ghostEntries (im : InodeMap) (foundFiles : String → Bool) : List String :=
  (List.finRange 32).flatMap fun i =>
    (im.shards i).nameMap.keys.filter fun path => !foundFiles path

/-- The second pass of `PruneMissing` over the paths collected by the first. -/
def removeFiles (im : InodeMap) (toRemove : List String) : InodeMap :=
  toRemove.foldl (removeFile H) im

/-- `PruneMissing` in memory; `toRemove` is the order in which the iteration
over the maps delivered the ghost entries. -/
def pruneMissing (im : InodeMap) (toRemove : List String) : InodeMap × ℕ :=
  let im := removeFiles H im toRemove
  (if toRemove = [] then im else { im with dirty := true }, toRemove.length)

/-! ### The shards behave as three maps -/

section Lookups

variable {H}
variable (im : InodeMap) (p q k l : String) (v : UInt64)

lemma getShard_setShard (s : InodeShard) :
    (im.setShard H k s).getShard H l
      = if shardIndex H l = shardIndex H k then s else im.getShard H l := by
  simp [getShard, setShard, Function.update_apply]

@[simp] lemma nameOf_dirty (b : Bool) : nameOf H { im with dirty := b } p = im.nameOf H p := rfl

@[simp] lemma inodeOf_dirty (b : Bool) : inodeOf H { im with dirty := b } k = im.inodeOf H k := rfl

section Tables

variable {β : Type} (table : InodeShard → GoMap String β) {s : InodeShard}

/-- A shard written back with a table as it was answers as before. -/
lemma lookup_setShard (hs : table s = table (im.getShard H k)) :
    (table ((im.setShard H k s).getShard H l)).lookup l = (table (im.getShard H l)).lookup l := by
  rw [getShard_setShard]
  split_ifs with h
  · rw [hs, getShard, getShard, h]
  · rfl

/-- A shard written back with one key of a table stored or deleted. -/
lemma lookup_setShard_of_key {r : Option β} (hs : (table s).lookup l
      = Function.update (fun l => (table (im.getShard H k)).lookup l) k r l) :
    (table ((im.setShard H k s).getShard H l)).lookup l
      = if l = k then r else (table (im.getShard H l)).lookup l := by
  rw [getShard_setShard]
  by_cases hl : l = k
  · subst hl
    rw [if_pos rfl, if_pos rfl, hs, Function.update_self]
  · rw [if_neg hl]
    split_ifs with h
    · rw [hs, Function.update_of_ne hl, getShard, getShard, h]
    · rfl

end Tables

@[simp] lemma nameOf_setFile : (im.setFile H k v).nameOf H p = im.nameOf H p :=
  lookup_setShard im k p InodeShard.nameMap rfl

@[simp] lemma nameOf_deleteFile : (im.deleteFile H k).nameOf H p = im.nameOf H p :=
  lookup_setShard im k p InodeShard.nameMap rfl

@[simp] lemma nameOf_setFast : (im.setFast H k v).nameOf H p = im.nameOf H p :=
  lookup_setShard im k p InodeShard.nameMap rfl

@[simp] lemma nameOf_deleteFast : (im.deleteFast H k).nameOf H p = im.nameOf H p :=
  lookup_setShard im k p InodeShard.nameMap rfl

@[simp] lemma inodeOf_setName : (im.setName H p k).inodeOf H l = im.inodeOf H l :=
  lookup_setShard im p l InodeShard.fileMap rfl

@[simp] lemma inodeOf_deleteName : (im.deleteName H p).inodeOf H l = im.inodeOf H l :=
  lookup_setShard im p l InodeShard.fileMap rfl

@[simp] lemma inodeOf_setFast : (im.setFast H k v).inodeOf H l = im.inodeOf H l :=
  lookup_setShard im k l InodeShard.fileMap rfl

@[simp] lemma inodeOf_deleteFast : (im.deleteFast H k).inodeOf H l = im.inodeOf H l :=
  lookup_setShard im k l InodeShard.fileMap rfl

lemma nameOf_setName :
    (im.setName H p k).nameOf H q = if q = p then some k else im.nameOf H q :=
  lookup_setShard_of_key im p q InodeShard.nameMap (Writes.lookup_insert k)

lemma nameOf_deleteName :
    (im.deleteName H p).nameOf H q = if q = p then none else im.nameOf H q :=
  lookup_setShard_of_key im p q InodeShard.nameMap Writes.lookup_erase

lemma inodeOf_setFile :
    (im.setFile H k v).inodeOf H l = if l = k then some v else im.inodeOf H l :=
  lookup_setShard_of_key im k l InodeShard.fileMap (Writes.lookup_insert v)

lemma inodeOf_deleteFile :
    (im.deleteFile H k).inodeOf H l = if l = k then none else im.inodeOf H l :=
  lookup_setShard_of_key im k l InodeShard.fileMap Writes.lookup_erase

end Lookups

section Operations

variable {H}
variable (im : InodeMap) (p q k : String)

lemma addFile_of_registered {infohash : String} {index : ℤ} (hne : infohash ≠ "")
    (h : im.nameOf H p = some (fileKey H infohash index)) :
    (im.addFile H p infohash index).1 = im := by
  simp [addFile, hne, h]

lemma nameOf_addFile {infohash : String} {index : ℤ} (hne : infohash ≠ "") :
    (im.addFile H p infohash index).1.nameOf H q
      = if q = p then some (fileKey H infohash index) else im.nameOf H q := by
  by_cases h : im.nameOf H p = some (fileKey H infohash index)
  · rw [addFile_of_registered im p hne h]
    split_ifs with hq
    · rw [hq, h]
    · rfl
  · simp [addFile, hne, h, nameOf_setName]

/-- The early return leaves the content map alone; otherwise the key's entry is written. -/
lemma inodeOf_addFile {infohash : String} {index : ℤ} (hne : infohash ≠ "")
    (hk : im.nameOf H p = some k → im.inodeOf H k = some (H.sum64String k &&& inodeFileMask)) :
    (im.addFile H p infohash index).1.inodeOf H k
      = if k = fileKey H infohash index then some (generateFileInode H infohash index)
        else im.inodeOf H k := by
  by_cases h : im.nameOf H p = some (fileKey H infohash index)
  · rw [addFile_of_registered im p hne h]
    split_ifs with heq
    · subst heq
      exact hk h
    · rfl
  · simp [addFile, hne, h, inodeOf_setFile]

lemma nameOf_removeFile :
    (im.removeFile H p).nameOf H q = if q = p then none else im.nameOf H q := by
  cases h : im.nameOf H p with
  | none =>
    simp only [removeFile, h]
    split_ifs with hq
    · rw [hq, h]
    · rfl
  | some key =>
    simp only [removeFile, h, nameOf_dirty]
    split_ifs <;> simp_all [nameOf_deleteName]

/-- Removing a path deletes the content entry of the key it was registered under. -/
lemma inodeOf_removeFile :
    (im.removeFile H p).inodeOf H k
      = if im.nameOf H p = some k then none else im.inodeOf H k := by
  cases h : im.nameOf H p with
  | none => simp [removeFile, h]
  | some key =>
    have hdel : (im.removeFile H p).inodeOf H k
        = ((im.deleteName H p).deleteFile H key).inodeOf H k := by
      simp only [removeFile, h, inodeOf_dirty]
      split_ifs <;> simp
    rw [hdel, inodeOf_deleteFile]
    by_cases hk : k = key
    · simp [hk]
    · simp [hk, Ne.symm hk]

variable (ps : List String)

lemma nameOf_removeFiles :
    (im.removeFiles H ps).nameOf H q = if q ∈ ps then none else im.nameOf H q := by
  induction ps generalizing im with
  | nil => simp [removeFiles]
  | cons p ps ih =>
    have hstep : im.removeFiles H (p :: ps) = (im.removeFile H p).removeFiles H ps := rfl
    rw [hstep, ih, nameOf_removeFile]
    by_cases hp : q = p <;> simp [hp]

lemma inodeOf_removeFiles (hk : ∀ p ∈ ps, im.nameOf H p ≠ some k) :
    (im.removeFiles H ps).inodeOf H k = im.inodeOf H k := by
  induction ps generalizing im with
  | nil => rfl
  | cons p ps ih =>
    have hstep : im.removeFiles H (p :: ps) = (im.removeFile H p).removeFiles H ps := rfl
    rw [hstep, ih, inodeOf_removeFile, if_neg (hk p (by simp))]
    intro r hr
    rw [nameOf_removeFile]
    split_ifs
    · simp
    · exact hk r (by simp [hr])

lemma not_found_of_mem_ghostEntries {found : String → Bool}
    (h : p ∈ im.ghostEntries found) : found p = false := by
  simp only [ghostEntries, List.mem_flatMap, List.mem_filter] at h
  obtain ⟨_, _, _, hp⟩ := h
  simpa using hp

lemma mem_ghostEntries_of_nameOf {found : String → Bool} (hk : im.nameOf H p = some k)
    (hp : found p = false) : p ∈ im.ghostEntries found := by
  have hmem : p ∈ (im.getShard H p).nameMap := Writes.mem_iff.mpr ⟨k, hk⟩
  simp only [ghostEntries, List.mem_flatMap, List.mem_filter]
  exact ⟨shardIndex H p, List.mem_finRange _, AList.mem_keys.mp hmem, by simp [hp]⟩

end Operations

/-! ### Histories of calls -/

inductive Call
  | addFile (fullPath infohash : String) (index : ℤ)
  | removeFile (fullPath : String)
  | pruneMissing (foundFiles : String → Bool) (toRemove : List String)

/-- What the history of calls says about each path: the arguments of its last
`AddFile`, unless the path itself was removed since. -/
abbrev Registered := String → Option (String × ℤ)

def register (reg : Registered) : Call → Registered
  | .addFile p infohash index =>
    if infohash = "" then reg else Function.update reg p (some (infohash, index))
  | .removeFile p => Function.update reg p none
  | .pruneMissing found _ => fun p => if found p then reg p else none

def call (im : InodeMap) : Call → InodeMap
  | .addFile p infohash index => (im.addFile H p infohash index).1
  | .removeFile p => im.removeFile H p
  | .pruneMissing _ toRemove => (im.pruneMissing H toRemove).1

/-- A call on a map and its history.  `PruneMissing` may meet the ghost
entries in any order. -/
inductive CallStep : InodeMap × Registered → Call → InodeMap × Registered → Prop
  | add (im reg p infohash index) :
      CallStep (im, reg) (.addFile p infohash index)
        (call H im (.addFile p infohash index), register reg (.addFile p infohash index))
  | remove (im reg p) :
      CallStep (im, reg) (.removeFile p)
        (call H im (.removeFile p), register reg (.removeFile p))
  | prune (im reg found toRemove) (horder : toRemove.Perm (im.ghostEntries found)) :
      CallStep (im, reg) (.pruneMissing found toRemove)
        (call H im (.pruneMissing found toRemove), register reg (.pruneMissing found toRemove))

/-- The content key the history gives a path. -/
def keyOf (reg : Registered) (p : String) : Option String :=
  (reg p).map fun a => fileKey H a.1 a.2

/-- The paths a call removes. -/
def Removes : Call → String → Prop
  | .addFile _ _ _, _ => False
  | .removeFile p, q => q = p
  | .pruneMissing found _, q => found q = false

/-- Paths registered under one key are removed together or not at all. -/
def KeysLeaveTogether (s : InodeMap × Registered) (c : Call) : Prop :=
  ∀ p q key, keyOf H s.2 p = some key → keyOf H s.2 q = some key →
    Removes c p → Removes c q

/-- What `RemoveFile` and `PruneMissing` do alike: the paths of a list go one by
one, among them every registered path of the call, and the history forgets the
paths of the call. -/
structure Removal (s t : InodeMap × Registered) (c : Call) (ps : List String) : Prop where
  maps : ∃ b, t.1 = { s.1.removeFiles H ps with dirty := b }
  removes : ∀ p ∈ ps, Removes c p
  listed : ∀ p key, s.1.nameOf H p = some key → Removes c p → p ∈ ps
  kept : ∀ q, ¬ Removes c q → t.2 q = s.2 q
  gone : ∀ q, Removes c q → t.2 q = none

/-- The maps hold what the history says: each path's name entry, and behind
every registered key its inode. -/
structure Consistent (s : InodeMap × Registered) : Prop where
  names : ∀ p, s.1.nameOf H p = keyOf H s.2 p
  inodes : ∀ p key, keyOf H s.2 p = some key →
    s.1.inodeOf H key = some (H.sum64String key &&& inodeFileMask)

section Runs

open Transition

variable {H} {s t : InodeMap × Registered} {c : Call} {ps : List String} {q : String}

lemma exists_removal (hst : CallStep H s c t)
    (hc : ∀ p infohash index, c ≠ .addFile p infohash index) : ∃ ps, Removal H s t c ps := by
  cases hst with
  | add im reg p infohash index => exact absurd rfl (hc p infohash index)
  | remove im reg p =>
    refine ⟨[p], ⟨_, rfl⟩, fun q => List.mem_singleton.mp, fun q _ _ => List.mem_singleton.mpr,
      fun q hq => Function.update_of_ne hq _ _, fun q hq => ?_⟩
    obtain rfl : q = p := hq
    exact Function.update_self _ _ _
  | prune im reg found ps horder =>
    refine ⟨ps, ?_, fun p hp => not_found_of_mem_ghostEntries im p (horder.mem_iff.mp hp),
      fun p key hp hfound => horder.mem_iff.mpr (mem_ghostEntries_of_nameOf im p key hp hfound),
      fun q hq => if_pos (by simpa [Removes] using hq), fun q hq => if_neg (by simpa [Removes] using hq)⟩
    simp only [call, pruneMissing]
    split_ifs
    · exact ⟨_, rfl⟩
    · exact ⟨_, rfl⟩

lemma Removal.keyOf_kept (h : Removal H s t c ps) (hq : ¬ Removes c q) :
    keyOf H t.2 q = keyOf H s.2 q := by
  rw [keyOf, keyOf, h.kept q hq]

lemma Removal.keyOf_gone (h : Removal H s t c ps) (hq : Removes c q) : keyOf H t.2 q = none := by
  rw [keyOf, h.gone q hq]
  rfl

lemma Removal.stays (h : Removal H s t c ps) {key : String} (hq : keyOf H t.2 q = some key) :
    ¬ Removes c q := by
  intro hrem
  cases (h.keyOf_gone hrem).symm.trans hq

lemma consistent_new : Consistent H (newInodeMap, fun _ => none) where
  names p := by
    simp only [nameOf, getShard, newInodeMap, keyOf, Option.map_none]
    split_ifs <;> rfl
  inodes p key h := by simp [keyOf] at h

lemma keyOf_register_add (reg : Registered) (p : String) {infohash : String} (index : ℤ)
    (hne : infohash ≠ "") (q : String) :
    keyOf H (register reg (.addFile p infohash index)) q
      = if q = p then some (fileKey H infohash index) else keyOf H reg q := by
  by_cases hq : q = p <;> simp [register, hne, keyOf, hq]

lemma Consistent.add {im : InodeMap} {reg : Registered} (h : Consistent H (im, reg))
    (p infohash : String) (index : ℤ) :
    Consistent H (call H im (.addFile p infohash index),
      register reg (.addFile p infohash index)) := by
  by_cases hne : infohash = ""
  · simpa [call, register, addFile, hne] using h
  have hkey := keyOf_register_add (H := H) reg p index hne
  refine ⟨fun q => ?_, fun q key hq => ?_⟩
  · rw [hkey, call, nameOf_addFile im p q hne]
    split_ifs with hqp
    · rfl
    · exact h.names q
  · rw [call, inodeOf_addFile im p key hne fun hp => h.inodes p key (h.names p ▸ hp)]
    split_ifs with heq
    · rw [heq]
      rfl
    · rw [hkey] at hq
      split_ifs at hq with hqp
      · exact absurd (Option.some.inj hq).symm heq
      · exact h.inodes q key hq

lemma Consistent.removal (h : Consistent H s) (hr : Removal H s t c ps)
    (hok : KeysLeaveTogether H s c) : Consistent H t := by
  obtain ⟨b, hmaps⟩ := hr.maps
  refine ⟨fun q => ?_, fun q key hq => ?_⟩
  · rw [hmaps, nameOf_dirty, nameOf_removeFiles, h.names]
    by_cases hq : Removes c q
    · rw [hr.keyOf_gone hq, ite_eq_left_iff]
      -- a path of the call is in the list or was not registered at all
      intro hmem
      cases hkey : keyOf H s.2 q with
      | none => rfl
      | some key => exact absurd (hr.listed q key ((h.names q).trans hkey) hq) hmem
    · rw [if_neg (mt (hr.removes q) hq), hr.keyOf_kept hq]
  · have hstays := hr.stays hq
    rw [hr.keyOf_kept hstays] at hq
    rw [hmaps, inodeOf_dirty, inodeOf_removeFiles s.1 key ps]
    · exact h.inodes q key hq
    · intro p hp hname
      exact hstays (hok p q key (h.names p ▸ hname) hq (hr.removes p hp))

lemma Consistent.step (h : Consistent H s)
    (hst : Guarded (KeysLeaveTogether H) (CallStep H) s c t) : Consistent H t := by
  obtain ⟨hok, hst⟩ := hst
  cases c with
  | addFile p infohash index =>
    cases hst
    exact h.add p infohash index
  | removeFile | pruneMissing =>
    obtain ⟨ps, hr⟩ := exists_removal hst (by simp)
    exact h.removal hr hok

lemma Consistent.getFileInode {im : InodeMap} {reg : Registered} (h : Consistent H (im, reg))
    {p infohash : String} {index : ℤ} (hp : reg p = some (infohash, index)) :
    im.getFileInode H p = generateFileInode H infohash index := by
  have hkey : keyOf H reg p = some (fileKey H infohash index) := by simp [keyOf, hp]
  have hname : im.nameOf H p = some (fileKey H infohash index) := (h.names p).trans hkey
  have hinode : im.inodeOf H (fileKey H infohash index)
      = some (generateFileInode H infohash index) := h.inodes p _ hkey
  simp [InodeMap.getFileInode, hname, hinode]

/-- While paths that share a key are removed together, every registered path
answers the inode of its content, and no removal changes the answer for a path
that stays registered. -/
theorem getFileInode_of_keys_leave_together (H : Hashing) (calls : List Call) (im : InodeMap)
    (reg : Registered)
    (hrun : Run (Guarded (KeysLeaveTogether H) (CallStep H)) (newInodeMap, fun _ => none) calls
      (im, reg)) :
    (∀ p infohash index, reg p = some (infohash, index) →
      im.getFileInode H p = generateFileInode H infohash index) ∧
    ∀ c im' reg', Guarded (KeysLeaveTogether H) (CallStep H) (im, reg) c (im', reg') →
      (∀ p infohash index, c ≠ .addFile p infohash index) →
      ∀ p, reg' p ≠ none → im'.getFileInode H p = im.getFileInode H p := by
  have hcon : Consistent H (im, reg) :=
    hrun.invariant (fun _ _ _ => Consistent.step) consistent_new
  refine ⟨fun p infohash index => hcon.getFileInode, fun c im' reg' hst hc p hp => ?_⟩
  obtain ⟨ps, hr⟩ := exists_removal hst.2 hc
  have hsame : reg' p = reg p := hr.kept p fun hrem => hp (hr.gone p hrem)
  obtain ⟨⟨infohash, index⟩, hreg⟩ := Option.ne_none_iff_exists'.mp hp
  rw [(hcon.step hst).getFileInode hreg, hcon.getFileInode (hsame ▸ hreg)]

/-- The values `xxhash.Sum64String` takes on the paths, the base names and the keys
of a few files of two torrents. -/
def sharedPackHashing : Hashing where
  sum64String s :=
    if s = "/tv/a.mkv" then 0x86c7dc7c7d6216bf
    else if s = "/tv/b.mkv" then 0xcca26de9ca227831
    else if s = "/movies/a.mkv" then 0xee032fe0897ba7cf
    else if s = "/tv/c.mkv" then 0x1cc77c4152a7cdbc
    else if s = "a.mkv" then 0xbb374511ccafcba7
    else if s = "b.mkv" then 0xa0753a1ee72d4252
    else if s = "c.mkv" then 0x91956dfe1296257c
    else if s = "0123456789abcdef0123456789abcdef01234567:1" then 0x0de8090334e4eb6e
    else if s = "fedcba9876543210fedcba9876543210fedcba98:0" then 0xd32747449dfa1042
    else if s = "fedcba9876543210fedcba9876543210fedcba98:1" then 0x0f301a3e95b740eb
    else 0
  toLower := toLowerASCII

def sharedPack : String := "0123456789abcdef0123456789abcdef01234567"

def otherPack : String := "fedcba9876543210fedcba9876543210fedcba98"

def sharedPackAdds : List Call :=
  [.addFile "/tv/a.mkv" sharedPack 1, .addFile "/tv/b.mkv" sharedPack 1]

lemma sharedPackAdds_guarded :
    Run (Guarded (KeysLeaveTogether sharedPackHashing) (CallStep sharedPackHashing))
      (newInodeMap, fun _ => none) sharedPackAdds
      (sharedPackAdds.foldl (call sharedPackHashing) newInodeMap,
        sharedPackAdds.foldl register fun _ => none) :=
  .cons ⟨fun _ _ _ _ _ h => h.elim, .add _ _ _ _ _⟩
    (.cons ⟨fun _ _ _ _ _ h => h.elim, .add _ _ _ _ _⟩ (.nil _))

/-- A file of another torrent comes and goes. -/
def visitorCalls : List Call := [.addFile "/tv/c.mkv" otherPack 1, .removeFile "/tv/c.mkv"]

lemma visitorCalls_guarded :
    Run (Guarded (KeysLeaveTogether sharedPackHashing) (CallStep sharedPackHashing))
      (newInodeMap, fun _ => none) (sharedPackAdds ++ visitorCalls)
      ((sharedPackAdds ++ visitorCalls).foldl (call sharedPackHashing) newInodeMap,
        (sharedPackAdds ++ visitorCalls).foldl register fun _ => none) := by
  refine sharedPackAdds_guarded.append
    (.cons ⟨fun _ _ _ _ _ h => h.elim, .add _ _ _ _ _⟩ (.cons ⟨?_, .remove _ _ _⟩ (.nil _)))
  -- no other path has the key of the file that goes
  rintro p q key hp hq (rfl : p = "/tv/c.mkv")
  obtain rfl : fileKey sharedPackHashing otherPack 1 = key := Option.some.inj hp
  by_contra (hne : q ≠ "/tv/c.mkv")
  have hcases : ∀ k, keyOf sharedPackHashing (sharedPackAdds.foldl register fun _ => none) q
      = some k → k = fileKey sharedPackHashing sharedPack 1 := by
    intro k hk
    by_cases ha : q = "/tv/a.mkv" <;> by_cases hb : q = "/tv/b.mkv" <;>
      simp_all [keyOf, register, sharedPackAdds, sharedPack]
  rw [keyOf_register_add _ _ _ (by decide), if_neg hne] at hq
  exact absurd (hcases _ hq) (by decide)

/-- Two paths share a file of a torrent; the answers agree with the content
while both stay, whatever else is removed. -/
theorem getFileInode_of_shared_paths :
    ((sharedPackAdds ++ visitorCalls).foldl (call sharedPackHashing) newInodeMap).getFileInode
      sharedPackHashing "/tv/b.mkv" = generateFileInode sharedPackHashing sharedPack 1 :=
  (getFileInode_of_keys_leave_together _ _ _ _ visitorCalls_guarded).1 "/tv/b.mkv" sharedPack 1
    (by decide)

/-- Removing one of two paths that share a file of a torrent leaves the other
registered and answering inode 0. -/
theorem getFileInode_lost_after_shared_removal :
    ∃ im reg, Run (CallStep sharedPackHashing) (newInodeMap, fun _ => none)
        (sharedPackAdds ++ [.removeFile "/tv/a.mkv"]) (im, reg) ∧
      reg "/tv/b.mkv" = some (sharedPack, 1) ∧
      im.getFileInode sharedPackHashing "/tv/b.mkv" = 0 ∧
      generateFileInode sharedPackHashing sharedPack 1 ≠ 0 := by
  have hadds := sharedPackAdds_guarded.mono (fun _ _ _ h => h.2)
  refine ⟨_, _, hadds.append (.cons (.remove _ _ _) (.nil _)), ?_, ?_, ?_⟩
  · decide
  · decide
  · decide

end Runs

end InodeMap

end Tiramisu.Vfs
