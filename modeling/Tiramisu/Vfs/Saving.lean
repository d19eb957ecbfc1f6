import Tiramisu.Lib.Outline
import Tiramisu.Vfs.Snapshot

/-!
# Changes of the inode map during a save

The calls on the map run side by side, one critical section at a time.  A save
copies the shards one after the other, commits what it copied and clears the
dirty flag.  A change to a shard that the save has copied already is neither in
the committed snapshot nor, once the flag is cleared, marked as unsaved.
-/

namespace Tiramisu.Vfs

open Go

/-! ### Maps that answer alike -/

/-- The saved maps of two shards have the same entries. -/
structure InodeShard.Same (s t : InodeShard) : Prop where
  names : ∀ k, t.nameMap.lookup k = s.nameMap.lookup k
  files : ∀ k, t.fileMap.lookup k = s.fileMap.lookup k
  dirs : ∀ k, t.dirMap.lookup k = s.dirMap.lookup k

structure Snapshot.Same (a b : Snapshot) : Prop where
  names : ∀ k, b.nameMap.lookup k = a.nameMap.lookup k
  files : ∀ k, b.fileMap.lookup k = a.fileMap.lookup k
  dirs : ∀ k, b.dirMap.lookup k = a.dirMap.lookup k

lemma InodeShard.Same.refl (s : InodeShard) : s.Same s := ⟨fun _ => rfl, fun _ => rfl, fun _ => rfl⟩

lemma InodeShard.Same.trans {s t u : InodeShard} (h : s.Same t) (h' : t.Same u) : s.Same u :=
  ⟨fun k => (h'.names k).trans (h.names k), fun k => (h'.files k).trans (h.files k),
    fun k => (h'.dirs k).trans (h.dirs k)⟩

namespace Snapshot.Same

lemma refl (a : Snapshot) : a.Same a := ⟨fun _ => rfl, fun _ => rfl, fun _ => rfl⟩

lemma symm {a b : Snapshot} (h : a.Same b) : b.Same a :=
  ⟨fun k => (h.names k).symm, fun k => (h.files k).symm, fun k => (h.dirs k).symm⟩

lemma trans {a b c : Snapshot} (h : a.Same b) (h' : b.Same c) : a.Same c :=
  ⟨fun k => (h'.names k).trans (h.names k), fun k => (h'.files k).trans (h.files k),
    fun k => (h'.dirs k).trans (h.dirs k)⟩

lemma copyShard {a b : Snapshot} {s t : InodeShard} (h : a.Same b) (hs : s.Same t) :
    (a.copyShard s).Same (b.copyShard t) := by
  refine ⟨fun k => ?_, fun k => ?_, fun k => ?_⟩
  · simp only [Snapshot.copyShard, GoMap.lookup_insertFrom, h.names, hs.names]
  · simp only [Snapshot.copyShard, GoMap.lookup_insertFrom, h.files, hs.files]
  · simp only [Snapshot.copyShard, GoMap.lookup_insertFrom, h.dirs, hs.dirs]

end Snapshot.Same

namespace Saving

open InodeMap Protocol Program Transition

/-! ### The shared state -/

/-- How far the running save has come: the number of shards it has copied, or
that it has committed and not yet cleared the flag. -/
inductive SaveStage
  | idle
  | copying (k : ℕ)
  | committed
  deriving DecidableEq

/-- `stage` and `owing`, the parties that have changed a map and not yet set
the flag, only record where the calls stand. -/
structure World where
  im : InodeMap
  committed : Snapshot
  saveMu : Option ℕ
  stage : SaveStage
  owing : Finset ℕ

/-- Party `i` has changed a map. -/
def World.change (w : World) (i : ℕ) (im : InodeMap) : World :=
  { w with
    im := im
    owing := insert i w.owing }

/-- `foundFiles[path]`. -/
def isFound (found : GoMap String Bool) (path : String) : Bool := (found.lookup path).getD false

/-- The statement of `DB.PruneMissing` deletes the rows of all files that are
no keys of the argument, unless there are no keys. -/
def pruneRows (committed : Snapshot) (found : GoMap String Bool) : Snapshot :=
  if found.keys = [] then committed else
  { committed with
    nameMap := committed.nameMap.keys.foldl
      (fun m p => if p ∈ found.keys then m else m.erase p) committed.nameMap }

/-- The critical sections and atomic accesses.  `commit` is the transaction of
`saveToDB` or the rename of `saveToJSON`. -/
inductive Op
  | registerName (fullPath key : String)
  | storeFile (key : String) (inode : UInt64)
  | storeFast (filename : String) (inode : UInt64)
  | takeName (fullPath : String)
  | takeFile (key : String)
  | dropFast (filename : String) (targetInode : UInt64)
  | insertDir (relativePath : String) (inode : UInt64)
  | loadDir (relativePath : String)
  | ghosts (i : Fin 32) (foundFiles : GoMap String Bool)
  | pruneRows (foundFiles : GoMap String Bool)
  | setDirty (isDirty : Bool)
  | isDirty
  | lockSave
  | unlockSave
  | copyShard (i : Fin 32)
  | commit (snap : Snapshot)

abbrev Op.Res : Op → Type
  | registerName _ _ | insertDir _ _ | isDirty | commit _ => Bool
  | takeName _ => Option String
  | takeFile _ => UInt64
  | loadDir _ => Option UInt64
  | ghosts _ _ => List String
  | copyShard _ => InodeShard
  | _ => Unit

/-- Whether the storage fails, and the order a map is iterated in. -/
structure Choice where
  fails : Bool
  order : List String

variable (H : Hashing)

/-- One operation of party `i`. -/
def exec (i : ℕ) : (o : Op) → Choice → World → Option (o.Res × World)
  | .registerName p key, _, w =>
    if w.im.nameOf H p = some key then some (false, w)
    else some (true, w.change i (w.im.setName H p key))
  | .storeFile key inode, _, w => some ((), w.change i (w.im.setFile H key inode))
  | .storeFast name inode, _, w => some ((), { w with im := w.im.setFast H name inode })
  | .takeName p, _, w =>
    match w.im.nameOf H p with
    | none => some (none, w)
    | some key => some (some key, w.change i (w.im.deleteName H p))
  | .takeFile key, _, w =>
    some ((w.im.inodeOf H key).getD 0, w.change i (w.im.deleteFile H key))
  | .dropFast name target, _, w =>
    some ((), if w.im.fastOf H name = some target then
      { w with im := w.im.deleteFast H name } else w)
  | .insertDir d inode, _, w =>
    if w.im.dirOf H d = none then some (true, w.change i (w.im.setDir H d inode))
    else some (false, w)
  | .loadDir d, _, w => some (w.im.dirOf H d, w)
  | .ghosts j found, c, w =>
    if c.order.Perm ((w.im.shards j).nameMap.keys.filter fun p => !isFound found p) then
      some (c.order, w)
    else none
  | .pruneRows found, c, w =>
    if c.fails then some ((), w)
    else some ((), { w with
      committed := pruneRows w.committed found
      owing := insert i w.owing })
  | .setDirty true, _, w =>
    some ((), { w with
      im := { w.im with dirty := true }
      owing := w.owing.erase i })
  | .setDirty false, _, w =>
    some ((), { w with
      im := { w.im with dirty := false }
      stage := .idle })
  | .isDirty, _, w => some (w.im.dirty, w)
  | .lockSave, _, w =>
    if w.saveMu = none then
      some ((), { w with
        saveMu := some i
        stage := .copying 0 })
    else none
  | .unlockSave, _, w =>
    some ((), { w with
      saveMu := none
      stage := .idle })
  | .copyShard j, _, w => some (w.im.shards j, { w with stage := .copying (j + 1) })
  | .commit snap, c, w =>
    if c.fails then some (false, { w with stage := .idle })
    else some (true, { w with
      committed := snap
      stage := .committed })

def machine (i : ℕ) : Machine Op Op.Res Choice World := ⟨exec H i⟩

abbrev Prog := Program Op Op.Res

abbrev op (o : Op) : Prog o.Res := Program.op o

/-! ### The calls -/

def addFile (fullPath infohash : String) (index : ℤ) : Prog UInt64 :=
  if infohash = "" then return 0 else do
  let key := fileKey H infohash index
  let inode := generateFileInode H infohash index
  if ← op (.registerName fullPath key) then
    op (.storeFile key inode)
    op (.storeFast (filepathBase fullPath) inode)
    op (.setDirty true)
    return inode
  else return inode

def addDir (relativePath : String) : Prog UInt64 := do
  let inode := generateDirInode H relativePath
  if ← op (.insertDir relativePath inode) then
    op (.setDirty true)
    return inode
  else return inode

def getDirInode (relativePath : String) : Prog UInt64 :=
  if relativePath = "/" ∨ relativePath = "" then return inodeRoot else do
  match ← op (.loadDir relativePath) with
  | some inode => return inode
  | none => addDir H relativePath

def removeFile (fullPath : String) : Prog Unit := do
  match ← op (.takeName fullPath) with
  | none => return ()
  | some key =>
    let targetInode ← op (.takeFile key)
    op (.dropFast (filepathBase fullPath) targetInode)
    op (.setDirty true)

/-- The first pass of `PruneMissing`. -/
def collectGhosts (foundFiles : GoMap String Bool) : List (Fin 32) → Prog (List String)
  | [] => return []
  | i :: is => do
      let ps ← op (.ghosts i foundFiles)
      let qs ← collectGhosts foundFiles is
      return ps ++ qs

/-- The second pass. -/
def removeAll : List String → Prog Unit
  | [] => return ()
  | p :: ps => do
      removeFile p
      removeAll ps

/-- The third pass, and the flag. -/
def pruneStored (hasDB : Bool) (foundFiles : GoMap String Bool) : Prog Unit :=
  if hasDB then do
    op (.pruneRows foundFiles)
    op (.setDirty true)
  else op (.setDirty true)

def pruneMissing (hasDB : Bool) (foundFiles : GoMap String Bool) : Prog ℕ := do
  let toRemove ← collectGhosts foundFiles (List.finRange 32)
  removeAll toRemove
  if toRemove = [] then return 0 else
  pruneStored hasDB foundFiles
  return toRemove.length

def copyShards (snap : Snapshot) : List (Fin 32) → Prog Snapshot
  | [] => return snap
  | i :: is => do
      let s ← op (.copyShard i)
      copyShards (snap.copyShard s) is

/-- `SaveToDisk`; the flag is cleared after a commit that did not fail. -/
def saveToDisk : Prog Bool := do
  op .lockSave
  let snap ← copyShards ⟨∅, ∅, ∅⟩ (List.finRange 32)
  if ← op (.commit snap) then
    op (.setDirty false)
    op .unlockSave
    return true
  else
    op .unlockSave
    return false

/-- A tick of the background saver, and the save of `Stop`. -/
def saveIfDirty : Prog Unit := do
  if ← op .isDirty then
    let _ ← saveToDisk
    return ()
  else return ()

inductive Task
  | addFile (fullPath infohash : String) (index : ℤ)
  | addDir (relativePath : String)
  | getDirInode (relativePath : String)
  | removeFile (fullPath : String)
  | pruneMissing (foundFiles : GoMap String Bool)
  | saveToDisk
  | saveIfDirty

/-- Forget the value a call returns. -/
def ignore {α : Type} (p : Prog α) : Prog Unit := do
  let _ ← p
  return ()

def Task.program (hasDB : Bool) : Task → Prog Unit
  | addFile p infohash index => ignore (Saving.addFile H p infohash index)
  | addDir d => ignore (Saving.addDir H d)
  | getDirInode d => ignore (Saving.getDirInode H d)
  | removeFile p => Saving.removeFile p
  | pruneMissing found => ignore (Saving.pruneMissing hasDB found)
  | saveToDisk => ignore Saving.saveToDisk
  | saveIfDirty => Saving.saveIfDirty

def savingSystem : System Op Op.Res Choice World where
  machine := machine H
  leave _ w := w

/-- The tasks start on a map whose contents are saved. -/
def together (hasDB : Bool) (im : InodeMap) (tasks : List Task) : Config Op Op.Res Unit World :=
  ⟨tasks.map (Task.program H hasDB), ⟨im, im.snapshot, none, .idle, ∅⟩⟩

end Saving

end Tiramisu.Vfs
