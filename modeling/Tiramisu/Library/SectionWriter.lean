import Tiramisu.Lib.Disk
import Tiramisu.Lib.Program
import Tiramisu.Metadb.Audio

/-!
# The section writer

The audio requests act on two stores, the registry and the disk, one
statement or one file call at a time.  `SectionWriter` anchors every file call
below a section root and remembers the directories it made.  Calls made to
undo earlier ones carry a mark, so that a fault in the undo can be told from a
fault in the work.
-/

namespace Tiramisu.Library

open Posix Protocol
open Metadb (AudioProjection AudioProjectionState AudioSection Registry RelPath StageError)

/-- The fields of a stub's JSON object. -/
structure StubFile where
  url : String
  size : ℤ
  magnet : String
  imdb : String
  externalID : String
  externalIDNS : String
  cueTrack : ℤ
  offset : ℤ
  deriving DecidableEq, Repr

/-- What a file holds: a stub, by the object it encodes, or any other bytes. -/
inductive Content
  | stub (s : StubFile)
  | bytes (text : String)
  deriving DecidableEq, Repr

/-- The two stores.  `dirSyncFailed` is a history variable: some directory sync
has failed so far. -/
structure World where
  db : Registry
  disk : Disk Content
  dirSyncFailed : Bool

/-- What the environment decides about one call: whether it fails for a reason
of its own, the inode of a new object, and what a failed write leaves behind. -/
structure Choice where
  fail : Bool
  ino : ℕ
  torn : Content

/-! ### The calls -/

inductive FsCall
  | openDir (root : Path) (rel : RelPath)
  | mkdirAt (fd : DirFd) (leaf : String)
  | createExcl (fd : DirFd) (leaf : String)
  | write (fd : FileFd) (data : Content)
  | syncFile (fd : FileFd)
  | fstat (fd : FileFd)
  | unlinkAt (fd : DirFd) (leaf : String)
  | rmdirAt (fd : DirFd) (leaf : String)
  | statAt (fd : DirFd) (leaf : String)
  | renameNoReplace (fd : DirFd) (leaf : String) (fd' : DirFd) (leaf' : String)
  | syncDir (fd : DirFd)

inductive DbCall
  | get (sec : AudioSection) (virtualPath : RelPath)
  | stage (txnID : String) (rows : List AudioProjection)
  | commit (txnID : String) (updatedAtNS : ℤ)
  | rollback (txnID : String)
  | mark (sec : AudioSection) (virtualPath : RelPath) (updatedAtNS : ℤ)
  | markPaths (sec : AudioSection) (virtualPaths : List RelPath) (updatedAtNS : ℤ)
  | byPrefix (sec : AudioSection) (pre : RelPath)
  | byState (state : AudioProjectionState)
  | byHash (hash : String)
  | delete (sec : AudioSection) (virtualPath : RelPath)

inductive Op
  | fs (undo : Bool) (call : FsCall)
  | db (undo : Bool) (call : DbCall)
  | render (row : AudioProjection)

/-- A statement fails because a constraint refused it or because the database did. -/
inductive DbError
  | refused (e : StageError)
  | unavailable
  deriving DecidableEq, Repr

abbrev FsCall.Res : FsCall → Type
  | .openDir _ _ | .createExcl _ _ | .fstat _ | .statAt _ _ => Except Errno ℕ
  | .mkdirAt _ _ | .write _ _ | .syncFile _ | .unlinkAt _ _ | .rmdirAt _ _
  | .renameNoReplace _ _ _ _ | .syncDir _ => Except Errno Unit

abbrev DbCall.Res : DbCall → Type
  | .get _ _ => Except DbError (Option AudioProjection)
  | .stage _ _ | .delete _ _ => Except DbError Unit
  | .commit _ _ | .rollback _ | .markPaths _ _ _ => Except DbError ℕ
  | .mark _ _ _ => Except DbError Bool
  | .byPrefix _ _ | .byState _ | .byHash _ => Except DbError (List AudioProjection)

abbrev Op.Res : Op → Type
  | .fs _ call => call.Res
  | .db _ call => call.Res
  | .render _ => Option Content

def FsCall.isSyncDir : FsCall → Bool
  | .syncDir _ => true
  | _ => false

def FsCall.exec (c : Choice) (d : Disk Content) :
    (call : FsCall) → Option (call.Res × Disk Content)
  | .openDir root rel =>
    some (if c.fail then .error .eio else (d.resolve root rel).map (·.ino), d)
  | .mkdirAt fd leaf => if c.fail then some (.error .eio, d) else d.mkdirAt fd leaf c.ino
  | .createExcl fd leaf =>
    if c.fail then some (.error .eio, d) else
    (d.createExcl fd leaf c.ino (.bytes "")).map fun (r, d) => (r.map (·.ino), d)
  | .write fd data =>
    some (if c.fail then (.error .eio, d.write fd c.torn) else (.ok (), d.write fd data))
  | .syncFile _ | .syncDir _ => some (if c.fail then .error .eio else .ok (), d)
  | .fstat fd => some (if c.fail then .error .eio else .ok fd.ino, d)
  | .unlinkAt fd leaf => some (if c.fail then (.error .eio, d) else d.unlinkAt fd leaf)
  | .rmdirAt fd leaf => some (if c.fail then (.error .eio, d) else d.rmdirAt fd leaf)
  | .statAt fd leaf => some (if c.fail then .error .eio else d.statAt fd leaf, d)
  | .renameNoReplace fd leaf fd' leaf' =>
    some (if c.fail then (.error .eio, d) else d.renameNoReplace fd leaf fd' leaf')

/-- An exclusive creation makes a file where there was nothing, or changes nothing. -/
lemma FsCall.createExcl_cases {c : Choice} {d d' : Disk Content} {fd : DirFd} {leaf : String}
    {r : Except Errno ℕ} (hex : FsCall.exec c d (.createExcl fd leaf) = some (r, d')) :
    (∃ born, r = .ok born ∧ d.create (fd.path ++ [leaf]) (.file born (.bytes "")) = some d') ∨
      ∃ e, r = .error e ∧ d' = d := by
  simp only [FsCall.exec] at hex
  split_ifs at hex
  · cases hex
    exact .inr ⟨_, rfl, rfl⟩
  obtain ⟨⟨r1, d1⟩, hcall, heq⟩ := Option.map_eq_some_iff.mp hex
  cases heq
  rcases Disk.createExcl_eq_some hcall with ⟨rfl, hcreate⟩ | ⟨e, rfl, rfl⟩
  · exact .inl ⟨_, rfl, hcreate⟩
  · exact .inr ⟨_, rfl, rfl⟩

def DbCall.exec (c : Choice) (db : Registry) : (call : DbCall) → call.Res × Registry
  | .get sec virtualPath =>
    (if c.fail then .error .unavailable else .ok (db.getAudioProjection sec virtualPath), db)
  | .stage txnID rows =>
    if c.fail then (.error .unavailable, db) else
    match db.stageAudioProjections txnID rows with
    | .ok db' => (.ok (), db')
    | .error e => (.error (.refused e), db)
  | .commit txnID t =>
    if c.fail then (.error .unavailable, db) else
    (.ok (db.commitAudioProjections txnID t).2, (db.commitAudioProjections txnID t).1)
  | .rollback txnID =>
    if c.fail then (.error .unavailable, db) else
    (.ok (db.rollbackAudioProjections txnID).2, (db.rollbackAudioProjections txnID).1)
  | .mark sec virtualPath t =>
    if c.fail then (.error .unavailable, db) else
    (.ok (db.markAudioProjectionRemoving sec virtualPath t).2,
      (db.markAudioProjectionRemoving sec virtualPath t).1)
  | .markPaths sec virtualPaths t =>
    if c.fail then (.error .unavailable, db) else
    (.ok (db.markAudioProjectionsRemovingPaths sec virtualPaths t).2,
      (db.markAudioProjectionsRemovingPaths sec virtualPaths t).1)
  | .byPrefix sec pre =>
    (if c.fail then .error .unavailable else .ok (db.audioProjectionsByPrefix sec pre), db)
  | .byState state =>
    (if c.fail then .error .unavailable else .ok (db.audioProjectionsByState state), db)
  | .byHash hash =>
    (if c.fail then .error .unavailable else .ok (db.audioProjectionsByHash hash), db)
  | .delete sec virtualPath =>
    if c.fail then (.error .unavailable, db) else (.ok (), db.deleteAudioProjection sec virtualPath)

def Manager.streamURL (goStormURL hash : String) (fileID : ℤ) : String :=
  goStormURL ++ "/stream?link=" ++ hash ++ "&index=" ++ toString fileID ++ "&play"

/-- The stub `AudioCueStubBytes` renders for a row; `streamURL` is the manager's. -/
def audioStub (streamURL : String → ℤ → String) (row : AudioProjection) : Content :=
  .stub
    { url := streamURL row.hash row.fileIndex
      size := row.size
      magnet := row.magnet
      imdb := ""
      externalID := row.externalID
      externalIDNS := row.externalIDNamespace
      cueTrack := row.cueTrack
      offset := if row.cueTrack = 0 then 0 else row.byteOffset }

def machine (streamURL : String → ℤ → String) : Machine Op Op.Res Choice World where
  exec
    | .fs _ call, c, w =>
      (call.exec c w.disk).map fun (r, d) =>
        (r, { w with disk := d, dirSyncFailed := w.dirSyncFailed || call.isSyncDir && c.fail })
    | .db _ call, c, w => some ((call.exec c w.db).1, { w with db := (call.exec c w.db).2 })
    | .render row, c, w => some (if c.fail then none else some (audioStub streamURL row), w)

lemma exec_fs {streamURL : String → ℤ → String} {undo : Bool} {call : FsCall} {r : call.Res}
    {c : Choice} {w u : World} (hex : (machine streamURL).exec (.fs undo call) c w = some (r, u)) :
    ∃ d', call.exec c w.disk = some (r, d') ∧
      u = { w with disk := d', dirSyncFailed := w.dirSyncFailed || call.isSyncDir && c.fail } := by
  obtain ⟨⟨r1, d'⟩, hcall, heq⟩ := Option.map_eq_some_iff.mp hex
  cases heq
  exact ⟨d', hcall, rfl⟩

abbrev Prog := Program Op Op.Res

def fs (undo : Bool) (call : FsCall) : Prog call.Res := Program.op (Op.fs undo call)

def db (undo : Bool) (call : DbCall) : Prog call.Res := Program.op (Op.db undo call)

/-! ### `SectionWriter` -/

structure SectionWriter where
  root : Path
  createdDirs : List RelPath

inductive WriterError
  | pathEscapesSection
  | destinationExists
  | errno (e : Errno)
  deriving DecidableEq, Repr

def beneathErr (e : Errno) : WriterError := if e = .eloop then .pathEscapesSection else .errno e

/-- `checkRel` on the components: none is empty, `.` or `..`. -/
def checkRel (rel : RelPath) : Bool :=
  rel ≠ [] && rel.all fun part => part ≠ "" && part ≠ "." && part ≠ ".."

namespace SectionWriter

def recordCreatedDir (w : SectionWriter) (rel : RelPath) : SectionWriter :=
  if rel ∈ w.createdDirs then w else { w with createdDirs := w.createdDirs ++ [rel] }

/-- The loop of `openDirAt` that builds a missing chain component by component,
each step resolved again from the root. -/
def mkdirChain (undo : Bool) (w : SectionWriter) (acc : RelPath) :
    List String → Prog (Except WriterError Unit × SectionWriter)
  | [] => return (.ok (), w)
  | part :: parts => do
      match ← fs undo (.openDir w.root (acc ++ [part])) with
      | .ok _ => w.mkdirChain undo (acc ++ [part]) parts
      | .error e =>
        if e ≠ .enoent then return (.error (beneathErr e), w) else
        match ← fs undo (.openDir w.root acc) with
        | .error e => return (.error (beneathErr e), w)
        | .ok parent =>
          match ← fs undo (.mkdirAt ⟨w.root ++ acc, parent⟩ part) with
          | .ok () => (w.recordCreatedDir (acc ++ [part])).mkdirChain undo (acc ++ [part]) parts
          | .error e =>
            if e ≠ .eexist then return (.error (beneathErr e), w)
            else w.mkdirChain undo (acc ++ [part]) parts

def openDirAt (undo : Bool) (w : SectionWriter) (rel : RelPath) (create : Bool) :
    Prog (Except WriterError DirFd × SectionWriter) := do
  match ← fs undo (.openDir w.root rel) with
  | .ok ino => return (.ok ⟨w.root ++ rel, ino⟩, w)
  | .error e =>
    if !create || e ≠ .enoent then return (.error (beneathErr e), w) else
    let (made, w) ← w.mkdirChain undo [] rel
    match made with
    | .error e => return (.error e, w)
    | .ok () =>
      match ← fs undo (.openDir w.root rel) with
      | .ok ino => return (.ok ⟨w.root ++ rel, ino⟩, w)
      | .error e => return (.error (beneathErr e), w)

def leafOf (rel : RelPath) : String := rel.getLast?.getD ""

/-- `openParent`: the directory a name lives in. -/
def openParent (undo : Bool) (w : SectionWriter) (rel : RelPath) (create : Bool) :
    Prog (Except WriterError DirFd × SectionWriter) :=
  w.openDirAt undo rel.dropLast create

/-- `WriteStagedIdentity`: a new file with its contents, and the inode it was
born with.  A failure after the file exists takes the name away again. -/
def writeStagedIdentity (w : SectionWriter) (rel : RelPath) (data : Content) :
    Prog (Except WriterError ℕ × SectionWriter) := do
  if !checkRel rel then return (.error .pathEscapesSection, w) else
  let (parent, w) ← w.openParent false rel true
  match parent with
  | .error e => return (.error e, w)
  | .ok dirfd =>
    match ← fs false (.createExcl dirfd (leafOf rel)) with
    | .error e =>
      return (.error (if e = .eexist then .destinationExists else beneathErr e), w)
    | .ok born =>
      let file : FileFd := ⟨dirfd.path ++ [leafOf rel], born⟩
      let unlinked (e : WriterError) : Prog (Except WriterError ℕ × SectionWriter) := do
        let _ ← fs true (.unlinkAt dirfd (leafOf rel))
        return (.error e, w)
      match ← fs false (.write file data) with
      | .error e => unlinked (.errno e)
      | .ok () =>
        match ← fs false (.syncFile file) with
        | .error e => unlinked (.errno e)
        | .ok () =>
          match ← fs false (.fstat file) with
          | .error e => unlinked (beneathErr e)
          | .ok ino => return (.ok ino, w)

/-- `Publish`: rename onto a free final name, then sync both directories. -/
def publish (w : SectionWriter) (stagedRel finalRel : RelPath) :
    Prog (Except WriterError Unit × SectionWriter) := do
  if !checkRel stagedRel || !checkRel finalRel then return (.error .pathEscapesSection, w) else
  let (staged, w) ← w.openParent false stagedRel false
  match staged with
  | .error e => return (.error e, w)
  | .ok _ =>
    let (final, w) ← w.openParent false finalRel true
    match final with
    | .error e => return (.error e, w)
    | .ok finalDir =>
      let (staged, w) ← w.openParent false stagedRel false
      match staged with
      | .error e => return (.error e, w)
      | .ok stagedDir =>
        match ← fs false (.renameNoReplace stagedDir (leafOf stagedRel) finalDir
            (leafOf finalRel)) with
        | .error e =>
          return (.error (if e = .eexist then .destinationExists else beneathErr e), w)
        | .ok () =>
          match ← fs false (.syncDir finalDir) with
          | .error e => return (.error (beneathErr e), w)
          | .ok () =>
            match ← fs false (.syncDir stagedDir) with
            | .error e => return (.error (beneathErr e), w)
            | .ok () => return (.ok (), w)

/-- `RemoveStaged`: unlink by name; a missing name is fine. -/
def removeStaged (w : SectionWriter) (rel : RelPath) : Prog (Except WriterError Unit) := do
  if !checkRel rel then return .error .pathEscapesSection else
  match (← w.openParent false rel false).1 with
  | .error e => return if e = .errno .enoent then .ok () else .error e
  | .ok dirfd =>
    match ← fs false (.unlinkAt dirfd (leafOf rel)) with
    | .error e => return if e = .enoent then .ok () else .error (beneathErr e)
    | .ok () => return .ok ()

def identity (w : SectionWriter) (rel : RelPath) : Prog (Except WriterError ℕ) := do
  if !checkRel rel then return .error .pathEscapesSection else
  match (← w.openParent false rel false).1 with
  | .error e => return .error e
  | .ok dirfd =>
    match ← fs false (.statAt dirfd (leafOf rel)) with
    | .error e => return .error (beneathErr e)
    | .ok ino => return .ok ino

/-- `RemoveStagedIfIdentity`: unlink while the name still holds the object. -/
def removeStagedIfIdentity (undo : Bool) (w : SectionWriter) (rel : RelPath) (want : ℕ) :
    Prog (Except WriterError Bool) := do
  if !checkRel rel then return .error .pathEscapesSection else
  match (← w.openParent undo rel false).1 with
  | .error e => return if e = .errno .enoent then .ok false else .error e
  | .ok dirfd =>
    match ← fs undo (.statAt dirfd (leafOf rel)) with
    | .error e => return if e = .enoent then .ok false else .error (beneathErr e)
    | .ok ino =>
      if ino ≠ want then return .ok false else
      match ← fs undo (.unlinkAt dirfd (leafOf rel)) with
      | .error e => return if e = .enoent then .ok true else .error (beneathErr e)
      | .ok () => return .ok true

def removeDirIfEmpty (w : SectionWriter) (rel : RelPath) : Prog (Except WriterError Unit) := do
  match (← w.openParent true rel false).1 with
  | .error e => return if e = .errno .enoent then .ok () else .error e
  | .ok parent =>
    match ← fs true (.rmdirAt parent (leafOf rel)) with
    | .error e =>
      return if e = .enoent ∨ e = .enotempty ∨ e = .eexist then .ok ()
        else .error (beneathErr e)
    | .ok () => return .ok ()

def removeDirsIfEmpty (w : SectionWriter) : List RelPath → Prog (Except WriterError Unit)
  | [] => return .ok ()
  | rel :: rels => do
      match ← w.removeDirIfEmpty rel with
      | .error e => return .error e
      | .ok () => w.removeDirsIfEmpty rels

/-- The length in bytes of a path's text, separators included. -/
def textLength (rel : RelPath) : ℕ := (rel.map String.utf8ByteSize).sum + (rel.length - 1)

/-- An order `sort.Slice` may give the created directories: longest text first. -/
structure LongestFirst where
  sort : List RelPath → List RelPath
  perm : ∀ l, (sort l).Perm l
  sorted : ∀ l, (sort l).Pairwise fun a b => textLength b ≤ textLength a

def LongestFirst.insertion : LongestFirst where
  sort := List.insertionSort fun a b => textLength b ≤ textLength a
  perm := List.perm_insertionSort _
  sorted := by
    have : Std.Total fun a b : RelPath => textLength b ≤ textLength a := ⟨fun a b => Nat.le_total _ _⟩
    have : IsTrans RelPath fun a b => textLength b ≤ textLength a := ⟨fun a b c h h' => h'.trans h⟩
    exact List.pairwise_insertionSort _

def pruneCreatedDirs (S : LongestFirst) (w : SectionWriter) : Prog (Except WriterError Unit) :=
  w.removeDirsIfEmpty (S.sort w.createdDirs)

/-- The loop of `PruneEmptyDirs` from a directory up to the section root. -/
def pruneUp (w : SectionWriter) : ℕ → RelPath → Prog (Except WriterError Unit)
  | 0, _ => return .ok ()
  | n + 1, dir => do
      if dir = [] then return .ok () else
      match (← w.openParent false dir false).1 with
      | .error e =>
        if e = .errno .enoent then w.pruneUp n dir.dropLast else return .error e
      | .ok parent =>
        match ← fs false (.rmdirAt parent (leafOf dir)) with
        | .error e =>
          return if e = .enotempty ∨ e = .eexist ∨ e = .enoent then .ok ()
            else .error (beneathErr e)
        | .ok () => w.pruneUp n dir.dropLast

def pruneEmptyDirs (w : SectionWriter) (relPath : RelPath) : Prog (Except WriterError Unit) :=
  if !checkRel relPath then return .error .pathEscapesSection
  else w.pruneUp relPath.length relPath.dropLast

end SectionWriter

/-- `OpenSectionWriter` below the source path. -/
def openSectionWriter (sec : AudioSection) : Prog (Except Errno SectionWriter) := do
  match ← fs false (.openDir [] [sec.dirName]) with
  | .error e => return .error e
  | .ok _ => return .ok ⟨[sec.dirName], []⟩

end Tiramisu.Library
