import Tiramisu.Go.Numbers
import Tiramisu.Metadb.Inodes
import Tiramisu.Vfs.Snapshot

/-!
# Saving and loading the inode map

The map is written to the table `inodes` or to a JSON file and read back into a
fresh map.  The table keeps one row for each path and splits the content key;
the JSON file keeps the merged maps.  A path without a content entry is dropped
by the JSON loader, while the table gives it the inode of its key.
-/

namespace Tiramisu.Vfs

open Go Metadb List Option AList Writes

/-- `pathBase`: what follows the last slash. -/
def pathBase (p : String) : String := String.ofList (afterLastSlash p.toList)

/-- `splitInodeKey`: at the first colon; an index that does not parse is 0. -/
def splitInodeKey (key : String) : String × ℤ :=
  match key.toList.dropWhile (· ≠ ':') with
  | [] => (key, 0)
  | _ :: rest =>
    (String.ofList (key.toList.takeWhile (· ≠ ':')), (atoi (String.ofList rest)).getD 0)

example : splitInodeKey "ab#c2:7" = ("ab#c2", 7) := by decide

example : splitInodeKey "a:b:7" = ("a", 0) := by decide

structure InodeMapData where
  version : ℤ
  files : GoMap String String
  dirs : GoMap String String
  filenameIndex : GoMap String String

structure InodeMapDataV1 where
  version : ℤ
  files : GoMap String UInt64
  dirs : GoMap String UInt64
  filenameIndex : GoMap String String

/-- The same data, whatever order the maps are iterated in. -/
structure InodeMapData.Same (a b : InodeMapData) : Prop where
  version : a.version = b.version
  files : ∀ k, a.files.lookup k = b.files.lookup k
  dirs : ∀ k, a.dirs.lookup k = b.dirs.lookup k
  filenameIndex : ∀ k, a.filenameIndex.lookup k = b.filenameIndex.lookup k

/-- What `os.ReadFile` finds, and what `json.Unmarshal` makes of it as either
version; `none` is an error. -/
inductive SavedFile
  | absent
  | unreadable
  | json (v2 : Option InodeMapData) (v1 : Option InodeMapDataV1)

inductive LoadError
  | read
  | unmarshal
  deriving DecidableEq

namespace InodeMap

variable (H : Hashing)

/-! ### The database -/

def fileRow (snap : Snapshot) (fullPath key : String) : InodeRow :=
  let parts := splitInodeKey key
  let inode := (snap.fileMap.lookup key).getD (generateFileInode H parts.1 parts.2)
  { type := .file
    infohash := some parts.1
    fileIdx := some parts.2
    fullPath := fullPath
    relPath := none
    basename := pathBase fullPath
    inodeValue := inode.toInt64 }

def dirRow (relPath : String) (inode : UInt64) : InodeRow where
  type := .dir
  infohash := none
  fileIdx := none
  fullPath := relPath
  relPath := some relPath
  basename := pathBase relPath
  inodeValue := inode.toInt64

/-- The rows of `saveToDB` in the order of their statements. -/
def saveRows (snap : Snapshot) : List InodeRow :=
  (snap.nameMap.entries.map fun e => fileRow H snap e.1 e.2) ++
    snap.dirMap.entries.map fun e => dirRow e.1 e.2

/-- `saveToDB`: the cleared table takes the rows one by one. -/
def saveToDB (im : InodeMap) : InodeTable :=
  (saveRows H im.snapshot).foldl InodeTable.insertOrReplace []

def addLoadedFile (im : InodeMap) (fullPath key basename : String) (inode : UInt64) : InodeMap :=
  ((im.setName H fullPath key).setFile H key inode).setFast H basename inode

def loadEntry (im : InodeMap) (e : InodeEntry) : InodeMap :=
  match e.type with
  | .file =>
    im.addLoadedFile H e.fullPath (e.infohash ++ ":" ++ toString e.fileIdx) e.basename
      e.inodeValue
  | .dir => im.setDir H e.relPath e.inodeValue

/-- `loadFromDB` on the entries in the order the query returned them. -/
def loadFromDB (entries : List InodeEntry) (im : InodeMap) : InodeMap :=
  entries.foldl (loadEntry H) im

/-! ### The JSON file -/

/-- `saveToJSON`: the merged maps, inodes as decimal text. -/
def saveToJSON (im : InodeMap) : InodeMapData where
  version := 2
  files := GoMap.insertFrom formatUint ∅ im.snapshot.fileMap
  dirs := GoMap.insertFrom formatUint ∅ im.snapshot.dirMap
  filenameIndex := im.snapshot.nameMap

/-- The inodes that parse. -/
def parseInodes (m : GoMap String String) : GoMap String UInt64 :=
  m.entries.foldl (fun t e => match parseUint e.2 with
    | some inode => t.insert e.1 inode
    | none => t) ∅

/-- A path is loaded if its key has an inode. -/
def loadName (files : GoMap String UInt64) (im : InodeMap) (path key : String) : InodeMap :=
  match files.lookup key with
  | some inode => im.addLoadedFile H path key (filepathBase path) inode
  | none => im

def loadNames (files : GoMap String UInt64) (index : GoMap String String) (im : InodeMap) :
    InodeMap :=
  index.entries.foldl (fun im e => loadName H files im e.1 e.2) im

def loadDirs (dirs : GoMap String UInt64) (im : InodeMap) : InodeMap :=
  dirs.entries.foldl (fun im e => im.setDir H e.1 e.2) im

def loadV2 (data : InodeMapData) (im : InodeMap) : InodeMap :=
  loadDirs H (parseInodes data.dirs) (loadNames H (parseInodes data.files) data.filenameIndex im)

def loadV1 (data : InodeMapDataV1) (im : InodeMap) : InodeMap :=
  { loadDirs H data.dirs (loadNames H data.files data.filenameIndex im) with dirty := true }

/-- `loadFromJSON`: version 2 first, then version 1; another version loads nothing. -/
def loadFromJSON (saved : SavedFile) (im : InodeMap) : Except LoadError InodeMap :=
  match saved with
  | .absent => .ok im
  | .unreadable => .error .read
  | .json v2 v1 =>
    match v2.filter (·.version = 2) with
    | some data => .ok (loadV2 H data im)
    | none =>
      match v1 with
      | none => .error .unmarshal
      | some data => .ok (if data.version = 1 then loadV1 H data im else im)

/-! ### Keys and lookups -/

section Lookups

variable {H}

/-- A key whose hash has no colon and whose index is an `int` splits into its parts. -/
def PlainKey (H : Hashing) (infohash : String) (index : ℤ) : Prop :=
  ':' ∉ (H.toLower infohash).toList ∧ IsInt index

instance (infohash : String) (index : ℤ) : Decidable (PlainKey H infohash index) :=
  inferInstanceAs (Decidable (_ ∧ _))

lemma splitInodeKey_fileKey {infohash : String} {index : ℤ} (h : PlainKey H infohash index) :
    splitInodeKey (fileKey H infohash index) = (H.toLower infohash, index) := by
  have hkey : (fileKey H infohash index).toList
      = (H.toLower infohash).toList ++ ':' :: (toString index).toList := by
    simp [fileKey, String.toList_append]
  have hpos : ∀ c ∈ (H.toLower infohash).toList, decide (c ≠ ':') = true := by
    intro c hc
    exact decide_eq_true fun heq => h.1 (heq ▸ hc)
  have hdrop : (fileKey H infohash index).toList.dropWhile (· ≠ ':')
      = ':' :: (toString index).toList := by
    rw [hkey, dropWhile_append_of_pos hpos]
    rfl
  have htake : (fileKey H infohash index).toList.takeWhile (· ≠ ':')
      = (H.toLower infohash).toList := by
    rw [hkey, takeWhile_append_of_pos hpos]
    simp
  simp only [splitInodeKey, hdrop, htake, String.ofList_toList, atoi_toString h.2, getD_some]

variable (im : InodeMap) (p k b : String) (v : UInt64)

lemma nameOf_addLoadedFile (q : String) :
    (im.addLoadedFile H p k b v).nameOf H q = if q = p then some k else im.nameOf H q := by
  simp [addLoadedFile, nameOf_setName]

lemma inodeOf_addLoadedFile (l : String) :
    (im.addLoadedFile H p k b v).inodeOf H l = if l = k then some v else im.inodeOf H l := by
  simp [addLoadedFile, inodeOf_setFile]

lemma tidy_addLoadedFile : Tidy H im (im.addLoadedFile H p k b v) :=
  (tidy_setName im p k).trans ((tidy_setFile _ k v).trans (tidy_setFast _ b v))

lemma lookup_parseInodes (m : GoMap String String) :
    (parseInodes m).lookup k = (m.lookup k).bind parseUint := by
  have hmem : ∀ e ∈ m.entries, m.lookup e.1 = some e.2 := fun e he => mem_lookup_iff.mpr he
  -- entries of other keys, and entries that do not parse, leave the place alone
  have hmiss : ∀ e ∈ m.entries, (e.1 = k → parseUint e.2 = none) →
      ∀ t : GoMap String UInt64, lookup k (match parseUint e.2 with
        | some inode => t.insert e.1 inode
        | none => t) = lookup k t := by
    intro e _ hk t
    cases hparse : parseUint e.2 with
    | none => rfl
    | some inode =>
      refine lookup_insert_ne fun heq => ?_
      rw [hk heq.symm] at hparse
      cases hparse
  cases hv : (m.lookup k).bind parseUint with
  | none =>
    refine foldl_of_miss (fun t : GoMap String UInt64 => t.lookup k) ?_ ∅
    intro e he
    refine hmiss e he ?_
    rintro rfl
    simpa [hmem e he] using hv
  | some v =>
    obtain ⟨text, htext, hparse⟩ := bind_eq_some_iff.mp hv
    refine foldl_of_hit (fun t : GoMap String UInt64 => t.lookup k) (fun e => e.1 = k) ?_ ?_
      ⟨⟨k, text⟩, mem_lookup_iff.mp htext, rfl⟩ ∅
    · intro e he hk
      exact hmiss e he fun heq => absurd heq hk
    · rintro ⟨k', text'⟩ he rfl t
      cases (hmem _ he).symm.trans htext
      simp [hparse]

end Lookups

/-! ### What a load restores -/

/-- The loaded map knows the same paths under the same keys, and the same inode
behind each of these keys. -/
structure Restores (im im' : InodeMap) : Prop where
  names : ∀ p, im'.nameOf H p = im.nameOf H p
  inodes : ∀ p key, im.nameOf H p = some key → im'.inodeOf H key = im.inodeOf H key

/-- The path, key and inode that an entry of a load writes, if it is a file. -/
structure FileWrites {ε : Type} (step : InodeMap → ε → InodeMap)
    (file : ε → Option (String × String × UInt64)) : Prop where
  skips : ∀ im e, file e = none →
    (∀ q, (step im e).nameOf H q = im.nameOf H q) ∧
      ∀ l, (step im e).inodeOf H l = im.inodeOf H l
  writes : ∀ im e p k v, file e = some (p, k, v) →
    (∀ q, (step im e).nameOf H q = if q = p then some k else im.nameOf H q) ∧
      ∀ l, (step im e).inodeOf H l = if l = k then some v else im.inodeOf H l

section Restoring

variable {H}
variable {im : InodeMap} {ε : Type} {step : InodeMap → ε → InodeMap}
  {file : ε → Option (String × String × UInt64)} {es : List ε}

lemma nameOf_new (p : String) : newInodeMap.nameOf H p = none := by
  simp only [nameOf, getShard, newInodeMap]
  split_ifs <;> rfl

/-- Entries that say what the map says, one for each of its paths, restore it. -/
lemma FileWrites.restores (hw : FileWrites H step file)
    (hsound : ∀ e ∈ es, ∀ p k v, file e = some (p, k, v) →
      im.nameOf H p = some k ∧ im.inodeOf H k = some v)
    (hall : ∀ p key, im.nameOf H p = some key → ∃ e ∈ es, ∃ v, file e = some (p, key, v)) :
    Restores H im (es.foldl step newInodeMap) := by
  have hname : ∀ p e, e ∈ es → (∀ k v, file e ≠ some (p, k, v)) →
      ∀ s, (step s e).nameOf H p = s.nameOf H p := by
    intro p e he hno s
    rcases hfile : file e with _ | ⟨q, k, v⟩
    · exact (hw.skips s e hfile).1 p
    · rw [(hw.writes s e q k v hfile).1, if_neg]
      rintro rfl
      exact hno k v hfile
  refine ⟨fun p => ?_, fun p key hp => ?_⟩
  · cases hp : im.nameOf H p with
    | none =>
      rw [← nameOf_new (H := H) p]
      refine foldl_of_miss (fun s : InodeMap => s.nameOf H p) ?_ _
      intro e he
      refine hname p e he fun k v hfile => ?_
      rw [(hsound e he p k v hfile).1] at hp
      cases hp
    | some key =>
      obtain ⟨e, he, v, hfile⟩ := hall p key hp
      refine foldl_of_hit (fun s : InodeMap => s.nameOf H p)
        (fun e => ∃ k v, file e = some (p, k, v)) ?_ ?_ ⟨e, he, key, v, hfile⟩ _
      · intro e he hno
        exact hname p e he fun k v hfile => hno ⟨k, v, hfile⟩
      · rintro e he ⟨k, v, hfile⟩ s
        rw [(hw.writes s e p k v hfile).1, if_pos rfl, ← (hsound e he p k v hfile).1, hp]
  · obtain ⟨e, he, v, hfile⟩ := hall p key hp
    refine foldl_of_hit (fun s : InodeMap => s.inodeOf H key)
      (fun e => ∃ q v, file e = some (q, key, v)) ?_ ?_ ⟨e, he, p, v, hfile⟩ _
    · intro e he hno s
      rcases hfile : file e with _ | ⟨q, k, v⟩
      · exact (hw.skips s e hfile).2 key
      · rw [(hw.writes s e q k v hfile).2, if_neg]
        rintro rfl
        exact hno ⟨q, v, hfile⟩
    · rintro e he ⟨q, v, hfile⟩ s
      rw [(hw.writes s e q key v hfile).2, if_pos rfl, ← (hsound e he q key v hfile).2]

lemma Restores.getFileInode {im' : InodeMap} (h : Restores H im im') (p : String) :
    im'.getFileInode H p = im.getFileInode H p := by
  unfold InodeMap.getFileInode
  rw [h.names]
  cases hp : im.nameOf H p with
  | none => rfl
  | some key => simp only [h.inodes p key hp]

lemma Restores.consistent {im' : InodeMap} {reg : Registered} (h : Restores H im im')
    (hc : Consistent H (im, reg)) : Consistent H (im', reg) := by
  refine ⟨fun p => (h.names p).trans (hc.names p), fun p key hp => ?_⟩
  have hname : im.nameOf H p = some key := (hc.names p).trans hp
  rw [h.inodes p key hname]
  exact hc.inodes p key hp

end Restoring

/-! ### Directories -/

/-- The directories filed are known ones, each under the inode of its path. -/
def DirsIn (known : String → Prop) (im : InodeMap) : Prop :=
  ∀ i d v, (im.shards i).dirMap.lookup d = some v → known d ∧ v = generateDirInode H d

section Directories

variable {H}
variable {known : String → Prop} {im im' : InodeMap}

lemma DirsIn.tidy (h : DirsIn H known im) (ht : Tidy H im im') : DirsIn H known im' := by
  intro i d v hd
  rw [ht.dirs] at hd
  exact h i d v hd

lemma DirsIn.mono {known' : String → Prop} (h : DirsIn H known im)
    (hk : ∀ i, ∀ d ∈ (im.shards i).dirMap, known d → known' d) : DirsIn H known' im := by
  intro i d v hd
  obtain ⟨hd', hv⟩ := h i d v hd
  exact ⟨hk i d (mem_iff.mpr ⟨_, hd⟩) hd', hv⟩

lemma DirsIn.setDir {d : String} {v : UInt64} (h : DirsIn H known im) (hd : known d)
    (hv : v = generateDirInode H d) : DirsIn H known (im.setDir H d v) := by
  intro i d' v' hd'
  rw [InodeMap.setDir, shards_setShard] at hd'
  split_ifs at hd' with hi
  · rcases of_insert hd' with ⟨rfl, rfl⟩ | ⟨-, hd'⟩
    · exact ⟨hd, hv⟩
    · exact h _ d' v' hd'
  · exact h i d' v' hd'

lemma dirsIn_new (hroot : known "/") : DirsIn H known newInodeMap := by
  intro i d v hd
  have hshard : (newInodeMap.shards i).dirMap
      = if i = 0 then (∅ : GoMap String UInt64).insert "/" inodeRoot else ∅ := by
    simp only [newInodeMap]
    split_ifs <;> rfl
  rw [hshard] at hd
  split_ifs at hd
  · rcases of_insert hd with ⟨rfl, rfl⟩ | ⟨-, hd⟩
    · exact ⟨hroot, by simp [generateDirInode]⟩
    · simp at hd
  · simp at hd

/-- Whatever is filed, `GetDirInode` answers the inode of the path. -/
lemma DirsIn.getDirInode (h : DirsIn H known im) (d : String) :
    (im.getDirInode H d).2 = generateDirInode H d := by
  unfold InodeMap.getDirInode
  split_ifs with hd
  · simp [generateDirInode, hd]
  · cases hdir : im.dirOf H d with
    | none => rfl
    | some v => exact (h _ d v hdir).2

/-- The root stays filed in shard 0. -/
def HasRoot (im : InodeMap) : Prop := "/" ∈ (im.shards 0).dirMap

lemma HasRoot.tidy (h : HasRoot im) (ht : Tidy H im im') : HasRoot im' := by
  unfold HasRoot
  rw [ht.dirs]
  exact h

lemma HasRoot.setDir (h : HasRoot im) (d : String) (v : UInt64) : HasRoot (im.setDir H d v) := by
  unfold HasRoot
  rw [InodeMap.setDir, shards_setShard]
  split_ifs with hi
  · rw [mem_insert]
    right
    rw [getShard, ← hi]
    exact h
  · exact h

lemma hasRoot_new : HasRoot newInodeMap := lookup_isSome.mp rfl

/-- What a load keeps on its way: entries in their shards, the root, and
directories out of a known set. -/
structure Sorted (H : Hashing) (known : String → Prop) (im : InodeMap) : Prop where
  placed : Placed H im
  root : HasRoot im
  dirs : DirsIn H known im

lemma Sorted.tidy (h : Sorted H known im) (ht : Tidy H im im') : Sorted H known im' :=
  ⟨ht.placed h.placed, h.root.tidy ht, h.dirs.tidy ht⟩

lemma Sorted.setDir {d : String} {v : UInt64} (h : Sorted H known im) (hd : known d)
    (hv : v = generateDirInode H d) : Sorted H known (im.setDir H d v) :=
  ⟨h.placed.setDir d v, h.root.setDir d v, h.dirs.setDir hd hv⟩

lemma Sorted.addDir {d : String} (h : Sorted H known im) (hd : known d) :
    Sorted H known (im.addDir H d).1 := by
  simp only [InodeMap.addDir]
  split_ifs
  · exact (h.setDir hd rfl).tidy (tidy_dirty _ true)
  · exact h

lemma sorted_new (hroot : known "/") : Sorted H known newInodeMap :=
  ⟨placed_new, hasRoot_new, dirsIn_new hroot⟩

end Directories

/-! ### Restarts -/

/-- The calls on a map, and restarts that save it and load it into a fresh one. -/
inductive Request
  | file (c : Call)
  | addDir (relativePath : String)
  | getDirInode (relativePath : String)
  | restartDB (entries : List InodeEntry)
  | restartJSON (data : InodeMapData) (v1 : Option InodeMapDataV1)

/-- The query of a load may return the rows in any order, and the maps of the
JSON file may be iterated in any order. -/
inductive RequestStep : InodeMap × Registered → Request → InodeMap × Registered → Prop
  | file {s t : InodeMap × Registered} {c : Call} (hcall : CallStep H s c t) :
      RequestStep s (.file c) t
  | addDir (im reg d) : RequestStep (im, reg) (.addDir d) ((im.addDir H d).1, reg)
  | getDirInode (im reg d) : RequestStep (im, reg) (.getDirInode d) ((im.getDirInode H d).1, reg)
  | restartDB (im reg entries) (hrows : entries.Perm (saveToDB H im).loadAll) :
      RequestStep (im, reg) (.restartDB entries) (loadFromDB H entries newInodeMap, reg)
  | restartJSON (im reg data v1 im') (hsame : data.Same im.saveToJSON)
      (hload : loadFromJSON H (.json (some data) v1) newInodeMap = .ok im') :
      RequestStep (im, reg) (.restartJSON data v1) (im', reg)

/-- No path is at once a file and a directory, the keys of added files split
into their parts, and paths that share a key are removed together. -/
def CarriesOver (s : InodeMap × Registered) : Request → Prop
  | .file (.addFile p infohash index) =>
    PlainKey H infohash index ∧ ∀ i, p ∉ (s.1.shards i).dirMap
  | .file c => KeysLeaveTogether H s c
  | .addDir d | .getDirInode d => s.2 d = none
  | .restartDB _ | .restartJSON _ _ => True

structure Savable (s : InodeMap × Registered) : Prop where
  consistent : Consistent H s
  sorted : Sorted H (fun d => s.2 d = none) s.1
  plain : ∀ p infohash index, s.2 p = some (infohash, index) → PlainKey H infohash index

section Restarts

open Transition

variable {H} {im : InodeMap} {reg : Registered}

section

variable (h : Savable H (im, reg))

include h

lemma Savable.joined {p key : String} (hp : im.nameOf H p = some key) :
    (splitInodeKey key).1 ++ ":" ++ toString (splitInodeKey key).2 = key := by
  have hkey : keyOf H reg p = some key := (h.consistent.names p).symm.trans hp
  obtain ⟨⟨infohash, index⟩, hreg, rfl⟩ := map_eq_some_iff.mp hkey
  rw [splitInodeKey_fileKey (h.plain p infohash index hreg)]
  rfl

lemma Savable.inode {p key : String} (hp : im.nameOf H p = some key) :
    ∃ v, im.inodeOf H key = some v :=
  ⟨_, h.consistent.inodes p key ((h.consistent.names p).symm.trans hp)⟩

lemma Savable.unregistered_root : reg "/" = none := by
  obtain ⟨v, hv⟩ := mem_iff.mp h.sorted.root
  exact (h.sorted.dirs 0 "/" v hv).1

lemma Savable.dir {d : String} {v : UInt64} (hd : im.snapshot.dirMap.lookup d = some v) :
    reg d = none ∧ v = generateDirInode H d := by
  obtain ⟨i, hi⟩ := exists_of_lookup_dirMap hd
  exact h.sorted.dirs i d v hi

end

/-! #### Through the database -/

/-- The path, key and inode of a file's entry. -/
def loadedFile (e : InodeEntry) : Option (String × String × UInt64) :=
  match e.type with
  | .file => some (e.fullPath, e.infohash ++ ":" ++ toString e.fileIdx, e.inodeValue)
  | .dir => none

lemma fileWrites_loadEntry : FileWrites H (loadEntry H) loadedFile where
  skips im e he := by
    cases ht : e.type with
    | file => simp [loadedFile, ht] at he
    | dir => simp [loadEntry, ht]
  writes im e p k v he := by
    cases ht : e.type with
    | file =>
      simp only [loadedFile, ht, Option.some.injEq, Prod.mk.injEq] at he
      obtain ⟨rfl, rfl, rfl⟩ := he
      simp only [loadEntry, ht]
      exact ⟨nameOf_addLoadedFile im _ _ _ _, inodeOf_addLoadedFile im _ _ _ _⟩
    | dir => simp [loadedFile, ht] at he

section

variable (h : Savable H (im, reg))

include h

/-- No two rows of a save clash. -/
lemma Savable.rows_apart : (saveRows H im.snapshot).Pairwise fun s r => r.conflicts s = false := by
  rw [saveRows, pairwise_append, pairwise_map, pairwise_map]
  refine ⟨?_, ?_, fun s hs r hr => ?_⟩
  · refine (nodupKeys_iff_pairwise.mp im.snapshot.nameMap.nodupKeys).imp fun hne => ?_
    simp [InodeRow.conflicts, fileRow, Ne.symm hne]
  · refine (nodupKeys_iff_pairwise.mp im.snapshot.dirMap.nodupKeys).imp fun hne => ?_
    simp [InodeRow.conflicts, dirRow, Ne.symm hne]
  -- a directory is no registered path
  obtain ⟨⟨p, key⟩, hp, rfl⟩ := mem_map.mp hs
  obtain ⟨⟨d, v⟩, hd, rfl⟩ := mem_map.mp hr
  have hname : im.nameOf H p = some key := by
    rw [← h.sorted.placed.lookup_nameMap]
    exact mem_lookup_iff.mpr hp
  have hreg : reg d = none := (h.dir (mem_lookup_iff.mpr hd)).1
  have hne : d ≠ p := by
    rintro rfl
    have hkey : keyOf H reg d = some key := (h.consistent.names d).symm.trans hname
    simp [keyOf, hreg] at hkey
  simp [InodeRow.conflicts, dirRow, fileRow, hne]

lemma Savable.loadAll_saveToDB :
    (saveToDB H im).loadAll = (saveRows H im.snapshot).map InodeRow.scan := by
  rw [saveToDB, InodeTable.foldl_insertOrReplace (by simpa using h.rows_apart), nil_append]
  rfl

lemma Savable.loadedFile_fileRow {p key : String} {v : UInt64} (hp : im.nameOf H p = some key)
    (hv : im.inodeOf H key = some v) :
    loadedFile (fileRow H im.snapshot p key).scan = some (p, key, v) := by
  have hfile : im.snapshot.fileMap.lookup key = some v :=
    (h.sorted.placed.lookup_fileMap key).trans hv
  simp only [loadedFile, fileRow, InodeRow.scan, hfile, getD_some, h.joined hp,
    UInt64.toUInt64_toInt64]

lemma Savable.restores_loadFromDB {entries : List InodeEntry}
    (hrows : entries.Perm (saveToDB H im).loadAll) :
    Restores H im (loadFromDB H entries newInodeMap) := by
  rw [h.loadAll_saveToDB] at hrows
  refine fileWrites_loadEntry.restores (fun e he p k v hfile => ?_) fun p key hp => ?_
  · obtain ⟨r, hr, rfl⟩ := mem_map.mp (hrows.mem_iff.mp he)
    rcases mem_append.mp hr with hr | hr
    · obtain ⟨⟨q, key⟩, hq, rfl⟩ := mem_map.mp hr
      have hname : im.nameOf H q = some key := by
        rw [← h.sorted.placed.lookup_nameMap]
        exact mem_lookup_iff.mpr hq
      obtain ⟨u, hu⟩ := h.inode hname
      rw [h.loadedFile_fileRow hname hu] at hfile
      cases hfile
      exact ⟨hname, hu⟩
    · obtain ⟨⟨d, u⟩, -, rfl⟩ := mem_map.mp hr
      simp [loadedFile, dirRow, InodeRow.scan] at hfile
  · obtain ⟨v, hv⟩ := h.inode hp
    refine ⟨(fileRow H im.snapshot p key).scan, hrows.mem_iff.mpr ?_, v,
      h.loadedFile_fileRow hp hv⟩
    have hmem : (⟨p, key⟩ : Sigma fun _ : String => String) ∈ im.snapshot.nameMap.entries :=
      mem_lookup_iff.mp ((h.sorted.placed.lookup_nameMap p).trans hp)
    exact mem_map_of_mem (mem_append_left _ (mem_map_of_mem hmem))

lemma Savable.sorted_loadFromDB {entries : List InodeEntry}
    (hrows : entries.Perm (saveToDB H im).loadAll) :
    Sorted H (fun d => reg d = none) (loadFromDB H entries newInodeMap) := by
  rw [h.loadAll_saveToDB] at hrows
  refine List.foldlRecOn entries _ (sorted_new h.unregistered_root) fun im' him' e he => ?_
  obtain ⟨r, hr, rfl⟩ := mem_map.mp (hrows.mem_iff.mp he)
  rcases mem_append.mp hr with hr | hr
  · obtain ⟨e, -, rfl⟩ := mem_map.mp hr
    exact him'.tidy (tidy_addLoadedFile im' _ _ _ _)
  · obtain ⟨⟨d, v⟩, hd, rfl⟩ := mem_map.mp hr
    obtain ⟨hreg, hv⟩ := h.dir (mem_lookup_iff.mpr hd)
    exact him'.setDir hreg (by simp [dirRow, InodeRow.scan, hv])

end

/-! #### Through the JSON file -/

lemma fileWrites_loadName (files : GoMap String UInt64) :
    FileWrites H (fun im (e : Sigma fun _ : String => String) => loadName H files im e.1 e.2)
      fun e => (files.lookup e.2).map fun v => (e.1, e.2, v) where
  skips im e he := by
    have hnone : files.lookup e.2 = none := by simpa using he
    simp [loadName, hnone]
  writes im e p k v he := by
    obtain ⟨u, hu, heq⟩ := map_eq_some_iff.mp he
    cases heq
    simp only [loadName, hu]
    exact ⟨nameOf_addLoadedFile im _ _ _ _, inodeOf_addLoadedFile im _ _ _ _⟩

lemma restores_loadDirs {im' : InodeMap} (h : Restores H im im') (dirs : GoMap String UInt64) :
    Restores H im (loadDirs H dirs im') := by
  refine ⟨fun p => ?_, fun p key hp => ?_⟩
  · rw [← h.names p]
    exact foldl_of_miss (fun s : InodeMap => s.nameOf H p)
      (fun e _ s => nameOf_setDir s e.1 e.2 p) im'
  · rw [← h.inodes p key hp]
    exact foldl_of_miss (fun s : InodeMap => s.inodeOf H key)
      (fun e _ s => inodeOf_setDir s e.1 e.2 key) im'

lemma lookup_formatted (m : GoMap String UInt64) (k : String) :
    ((GoMap.insertFrom formatUint ∅ m).lookup k).bind parseUint = m.lookup k := by
  rw [GoMap.lookup_insertFrom, lookup_empty, or_none]
  cases m.lookup k with
  | none => rfl
  | some v => exact parseUint_formatUint v

section Data

variable {data : InodeMapData}

lemma Savable.lookup_files (h : Savable H (im, reg)) (hsame : data.Same im.saveToJSON)
    (k : String) : (parseInodes data.files).lookup k = im.inodeOf H k := by
  rw [lookup_parseInodes, hsame.files, ← h.sorted.placed.lookup_fileMap]
  exact lookup_formatted _ k

lemma lookup_dirs (hsame : data.Same im.saveToJSON) (d : String) :
    (parseInodes data.dirs).lookup d = im.snapshot.dirMap.lookup d := by
  rw [lookup_parseInodes, hsame.dirs]
  exact lookup_formatted _ d

lemma Savable.restores_loadV2 (h : Savable H (im, reg)) (hsame : data.Same im.saveToJSON) :
    Restores H im (loadV2 H data newInodeMap) := by
  have hindex : ∀ p, data.filenameIndex.lookup p = im.nameOf H p := fun p =>
    (hsame.filenameIndex p).trans (h.sorted.placed.lookup_nameMap p)
  refine restores_loadDirs ((fileWrites_loadName _).restores (fun e he p k v hfile => ?_)
    fun p key hp => ?_) _
  · obtain ⟨u, hu, heq⟩ := map_eq_some_iff.mp hfile
    cases heq
    rw [h.lookup_files hsame] at hu
    exact ⟨(hindex _).symm.trans (mem_lookup_iff.mpr he), hu⟩
  · obtain ⟨v, hv⟩ := h.inode hp
    have hmem : (⟨p, key⟩ : Sigma fun _ : String => String) ∈ data.filenameIndex.entries :=
      mem_lookup_iff.mp ((hindex p).trans hp)
    exact ⟨⟨p, key⟩, hmem, v, by simp [h.lookup_files hsame, hv]⟩

lemma Savable.sorted_loadV2 (h : Savable H (im, reg)) (hsame : data.Same im.saveToJSON) :
    Sorted H (fun d => reg d = none) (loadV2 H data newInodeMap) := by
  have hnames : Sorted H (fun d => reg d = none)
      (loadNames H (parseInodes data.files) data.filenameIndex newInodeMap) := by
    refine List.foldlRecOn _ _ (sorted_new h.unregistered_root) fun im' him' e _ => ?_
    simp only [loadName]
    split
    · exact him'.tidy (tidy_addLoadedFile im' _ _ _ _)
    · exact him'
  refine List.foldlRecOn _ _ hnames fun im' him' e he => ?_
  have hdir : im.snapshot.dirMap.lookup e.1 = some e.2 := by
    rw [← lookup_dirs hsame]
    exact mem_lookup_iff.mpr he
  exact him'.setDir (h.dir hdir).1 (h.dir hdir).2

lemma loadFromJSON_of_same (hsame : data.Same im.saveToJSON) (v1 : Option InodeMapDataV1) :
    loadFromJSON H (.json (some data) v1) newInodeMap = .ok (loadV2 H data newInodeMap) := by
  have hversion : data.version = 2 := hsame.version
  have hv2 : (some data).filter (·.version = 2) = some data := by
    simp [Option.filter, hversion]
  simp only [loadFromJSON, hv2]

end Data

/-! #### Runs -/

lemma savable_new : Savable H (newInodeMap, fun _ => none) :=
  ⟨consistent_new, sorted_new rfl, fun _ _ _ h => by simp at h⟩

section

variable (h : Savable H (im, reg))

include h

lemma Savable.addDir {d : String} (hd : reg d = none) : Savable H ((im.addDir H d).1, reg) := by
  refine ⟨?_, h.sorted.addDir hd, h.plain⟩
  simp only [InodeMap.addDir]
  split_ifs
  · exact ⟨fun p => by simpa using h.consistent.names p,
      fun p key hp => by simpa using h.consistent.inodes p key hp⟩
  · exact h.consistent

lemma Savable.getDirInode {d : String} (hd : reg d = none) :
    Savable H ((im.getDirInode H d).1, reg) := by
  unfold InodeMap.getDirInode
  split_ifs
  · exact h
  · split
    · exact h
    · exact h.addDir hd

lemma Savable.add {p infohash : String} {index : ℤ} (hplain : PlainKey H infohash index)
    (hp : ∀ i, p ∉ (im.shards i).dirMap) :
    Savable H (call H im (.addFile p infohash index),
      register reg (.addFile p infohash index)) := by
  have hsorted := h.sorted.tidy (tidy_call im (.addFile p infohash index))
  refine ⟨h.consistent.add p infohash index,
    ⟨hsorted.placed, hsorted.root, hsorted.dirs.mono fun i d hd (hreg : reg d = none) => ?_⟩,
    fun q infohash' index' hq => ?_⟩
  · have hdp : d ≠ p := by
      rintro rfl
      rw [(tidy_call im (.addFile d infohash index)).dirs i] at hd
      exact hp i hd
    by_cases hne : infohash = "" <;> simp [register, hne, hdp, hreg]
  · by_cases hne : infohash = ""
    · simp only [register, hne, if_true] at hq
      exact h.plain q infohash' index' hq
    simp only [register, hne, if_false, Function.update_apply] at hq
    split_ifs at hq with hqp
    · cases hq
      exact hplain
    · exact h.plain q infohash' index' hq

lemma Savable.removal {c : Call} (hok : KeysLeaveTogether H (im, reg) c)
    (hst : CallStep H (im, reg) c (call H im c, register reg c))
    (hc : ∀ p infohash index, c ≠ .addFile p infohash index) :
    Savable H (call H im c, register reg c) := by
  obtain ⟨ps, hr⟩ := exists_removal hst hc
  have hsorted := h.sorted.tidy (tidy_call im c)
  refine ⟨h.consistent.removal hr hok,
    ⟨hsorted.placed, hsorted.root, hsorted.dirs.mono fun i d _ (hreg : reg d = none) => ?_⟩,
    fun p infohash index hp => ?_⟩
  · by_cases hd : Removes c d
    · exact hr.gone d hd
    · exact (hr.kept d hd).trans hreg
  · have hstays : ¬ Removes c p := fun hrem => by cases (hr.gone p hrem).symm.trans hp
    exact h.plain p infohash index ((hr.kept p hstays).symm.trans hp)

end

lemma Savable.step {s t : InodeMap × Registered} {r : Request} (h : Savable H s)
    (hst : Guarded (CarriesOver H) (RequestStep H) s r t) : Savable H t := by
  obtain ⟨hok, hst⟩ := hst
  cases hst with
  | file hcall =>
    cases hcall with
    | add im reg p infohash index => exact h.add hok.1 hok.2
    | remove im reg p => exact h.removal hok (.remove im reg p) (by simp)
    | prune im reg found ps horder => exact h.removal hok (.prune im reg found ps horder) (by simp)
  | addDir im reg d => exact h.addDir hok
  | getDirInode im reg d => exact h.getDirInode hok
  | restartDB im reg entries hrows =>
    exact ⟨(h.restores_loadFromDB hrows).consistent h.consistent, h.sorted_loadFromDB hrows,
      h.plain⟩
  | restartJSON im reg data v1 im' hsame hload =>
    rw [loadFromJSON_of_same hsame] at hload
    cases hload
    exact ⟨(h.restores_loadV2 hsame).consistent h.consistent, h.sorted_loadV2 hsame, h.plain⟩

/-- The loaded map answers for every file and every directory as the saved one. -/
def SameAnswers (H : Hashing) (im im' : InodeMap) : Prop :=
  (∀ p, im'.getFileInode H p = im.getFileInode H p) ∧
    ∀ d, (im'.getDirInode H d).2 = (im.getDirInode H d).2

lemma SameAnswers.of_restores {im' : InodeMap} {known : String → Prop}
    (h : Sorted H known im) (h' : Sorted H known im') (hr : Restores H im im') :
    SameAnswers H im im' :=
  ⟨hr.getFileInode, fun d => (h'.dirs.getDirInode d).trans (h.dirs.getDirInode d).symm⟩

/-- While no path is both a file and a directory, content keys split into their
parts and paths that share a key are removed together, a save followed by a load
keeps every answer, through the database and through the JSON file. -/
theorem answers_survive_restart (H : Hashing) (requests : List Request) (im : InodeMap)
    (reg : Registered)
    (hrun : Run (Guarded (CarriesOver H) (RequestStep H)) (newInodeMap, fun _ => none) requests
      (im, reg)) :
    (∀ entries, entries.Perm (saveToDB H im).loadAll →
      SameAnswers H im (loadFromDB H entries newInodeMap)) ∧
    ∀ data v1, data.Same im.saveToJSON →
      ∃ im', loadFromJSON H (.json (some data) v1) newInodeMap = .ok im' ∧
        SameAnswers H im im' := by
  have hsav : Savable H (im, reg) := hrun.invariant (fun _ _ _ => Savable.step) savable_new
  refine ⟨fun entries hrows => ?_, fun data v1 hsame => ?_⟩
  · exact .of_restores hsav.sorted (hsav.sorted_loadFromDB hrows) (hsav.restores_loadFromDB hrows)
  · exact ⟨_, loadFromJSON_of_same hsame v1,
      .of_restores hsav.sorted (hsav.sorted_loadV2 hsame) (hsav.restores_loadV2 hsame)⟩

/-- Two paths of one torrent file, and their directory. -/
def sharedPackRequests : List Request :=
  .addDir "/tv" :: sharedPackAdds.map .file

lemma sharedPackRequests_guarded :
    Run (Guarded (CarriesOver sharedPackHashing) (RequestStep sharedPackHashing))
      (newInodeMap, fun _ => none) sharedPackRequests
      (sharedPackAdds.foldl (call sharedPackHashing) (newInodeMap.addDir sharedPackHashing "/tv").1,
        sharedPackAdds.foldl register fun _ => none) := by
  refine .cons ⟨rfl, .addDir _ _ _⟩ (.cons ⟨⟨?_, ?_⟩, .file (.add _ _ _ _ _)⟩
    (.cons ⟨⟨?_, ?_⟩, .file (.add _ _ _ _ _)⟩ (.nil _)))
  all_goals decide

/-- Both paths answer after a restart as before it. -/
theorem shared_adds_survive_restart :
    let im := sharedPackAdds.foldl (call sharedPackHashing)
      (newInodeMap.addDir sharedPackHashing "/tv").1
    im.getFileInode sharedPackHashing "/tv/b.mkv" ≠ 0 ∧
      (loadFromDB sharedPackHashing (saveToDB sharedPackHashing im).loadAll
          newInodeMap).getFileInode sharedPackHashing "/tv/b.mkv"
        = im.getFileInode sharedPackHashing "/tv/b.mkv" :=
  ⟨by decide, ((answers_survive_restart _ _ _ _ sharedPackRequests_guarded).1 _ (.refl _)).1
    "/tv/b.mkv"⟩

/-- After one of two paths of a torrent file is removed the other answers 0; it
answers 0 again after a restart from the JSON file, and the inode of its key
after a restart from the database. -/
theorem backends_disagree_after_shared_removal :
    ∃ im reg, Run (RequestStep sharedPackHashing) (newInodeMap, fun _ => none)
        (sharedPackRequests ++ [.file (.removeFile "/tv/a.mkv")]) (im, reg) ∧
      im.getFileInode sharedPackHashing "/tv/b.mkv" = 0 ∧
      (loadFromDB sharedPackHashing (saveToDB sharedPackHashing im).loadAll
        newInodeMap).getFileInode sharedPackHashing "/tv/b.mkv" ≠ 0 ∧
      ∃ im', loadFromJSON sharedPackHashing (.json (some im.saveToJSON) none) newInodeMap
          = .ok im' ∧ im'.getFileInode sharedPackHashing "/tv/b.mkv" = 0 := by
  have hadds := sharedPackRequests_guarded.mono (fun _ _ _ h => h.2)
  refine ⟨_, _, hadds.append (.cons (.file (.remove _ _ _)) (.nil _)), ?_, ?_, ?_⟩
  · decide
  · decide +kernel
  · exact ⟨_, loadFromJSON_of_same ⟨rfl, fun _ => rfl, fun _ => rfl, fun _ => rfl⟩ none,
      by decide +kernel⟩

end Restarts

end InodeMap

end Tiramisu.Vfs
