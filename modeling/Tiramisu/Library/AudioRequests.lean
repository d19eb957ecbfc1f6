import Tiramisu.Library.SectionWriter

/-!
# Audio requests and their recovery

`AddAudio` from the staging of its rows to their commit with the unwind of
every failure, `RemoveAudio` and `RemoveAudioPrefix`, and the startup recovery
of what an interrupted request left behind.
-/

namespace Tiramisu.Library

open Posix Protocol
open Metadb (AudioProjection AudioSection RelPath)

/-- The hidden staging name beside the destination. -/
def stagingRelPath (row : AudioProjection) : RelPath :=
  row.virtualPath.dropLast ++ [row.stagingName]

/-! ### AddAudio -/

/-- A component that starts with a period, like every staging name. -/
def hidden (component : String) : Bool := component.toList.head? = some '.'

/-- What `validatePathSyntax` leaves of a path: components that are neither
empty nor hidden. -/
def VisiblePath (rel : RelPath) : Prop := rel ≠ [] ∧ ∀ part ∈ rel, part ≠ "" ∧ hidden part = false

instance (rel : RelPath) : Decidable (VisiblePath rel) := inferInstanceAs (Decidable (_ ∧ _))

def stagingName (txnID : String) (i : ℕ) : String :=
  ".tiramisu-" ++ txnID ++ "-" ++ toString i

/-- One planned projection with the fields `AddAudio` files it under. -/
structure PlannedFile where
  virtualPath : RelPath
  portablePathKey : String
  fileIndex : ℤ
  sourcePath : String
  size : ℤ
  externalID : String
  externalIDNamespace : String
  cueTrack : ℤ
  byteOffset : ℤ
  header : List UInt8
  created : Bool
  deriving DecidableEq, Repr

/-- An add request past its plan: the paths are validated, the transaction id
is the 24 hexadecimal digits of `newAudioTxnID`. -/
structure AddRequest where
  sec : AudioSection
  txnID : String
  now : ℤ
  hash : String
  title : String
  magnet : String
  plans : List PlannedFile
  visible : ∀ f ∈ plans, VisiblePath f.virtualPath
  txnID_length : txnID.length = 24

namespace AddRequest

def row (req : AddRequest) (plan : PlannedFile) (i : ℕ) : AudioProjection where
  sec := req.sec
  virtualPath := plan.virtualPath
  portablePathKey := plan.portablePathKey
  hash := req.hash
  fileIndex := plan.fileIndex
  sourcePath := plan.sourcePath
  size := plan.size
  mtimeNS := req.now
  title := req.title
  magnet := req.magnet
  externalID := plan.externalID
  externalIDNamespace := plan.externalIDNamespace
  cueTrack := plan.cueTrack
  byteOffset := plan.byteOffset
  header := plan.header
  state := .staged
  txnID := req.txnID
  stagingName := stagingName req.txnID i
  createdAtNS := req.now
  updatedAtNS := req.now

/-- The rows of the plans to be created, named after their place in the plan. -/
def rows (req : AddRequest) : List AudioProjection :=
  (req.plans.zipIdx.filter fun (plan, _) => plan.created).map fun (plan, i) => req.row plan i

end AddRequest

structure StagedObject where
  rel : RelPath
  ino : ℕ
  deriving DecidableEq, Repr

inductive CleanupError
  | incomplete (names : List RelPath)
  | rollback (e : DbError)
  deriving DecidableEq, Repr

inductive AddCause
  | openSection (e : Errno)
  | stage (e : DbError)
  | render (virtualPath : RelPath)
  | write (e : WriterError)
  | publish (e : WriterError)
  | commit (e : DbError)
  | committedSome (committed total : ℕ)
  deriving DecidableEq, Repr

structure AddError where
  cause : AddCause
  cleanup : Option CleanupError
  deriving DecidableEq, Repr

/-- The objects an unwind could not take back. -/
def unwindObjects (w : SectionWriter) : List StagedObject → Prog (List RelPath)
  | [] => return []
  | obj :: objs => do
      let removed ← w.removeStagedIfIdentity true obj.rel obj.ino
      let failed ← unwindObjects w objs
      return if removed = .ok true then failed else obj.rel :: failed

/-- `unwind`: files by identity, created directories, and the rows only when
nothing of the request is left on disk. -/
def unwind (S : SectionWriter.LongestFirst) (txnID : String) (w : SectionWriter)
    (objects : List StagedObject) : Prog (Option CleanupError) := do
  let failed ← unwindObjects w objects
  let _ ← w.pruneCreatedDirs S
  if failed ≠ [] then return some (.incomplete failed) else
  match ← db true (.rollback txnID) with
  | .error e => return some (.rollback e)
  | .ok _ => return none

def writeLoop (S : SectionWriter.LongestFirst) (txnID : String) (w : SectionWriter)
    (objects : List StagedObject) :
    List AudioProjection → Prog (Except AddError (SectionWriter × List StagedObject))
  | [] => return .ok (w, objects)
  | row :: rows => do
      match ← (Program.op (Op.render row) : Prog (Option Content)) with
      | none => return .error ⟨.render row.virtualPath, ← unwind S txnID w objects⟩
      | some data =>
        let (r, w) ← w.writeStagedIdentity (stagingRelPath row) data
        match r with
        | .error e => return .error ⟨.write e, ← unwind S txnID w objects⟩
        | .ok ino => writeLoop S txnID w (objects ++ [⟨stagingRelPath row, ino⟩]) rows

def publishLoop (S : SectionWriter.LongestFirst) (txnID : String) (w : SectionWriter)
    (done : List StagedObject) :
    List (AudioProjection × StagedObject) →
      Prog (Except AddError (SectionWriter × List StagedObject))
  | [] => return .ok (w, done)
  | (row, obj) :: rest => do
      let (r, w) ← w.publish obj.rel row.virtualPath
      match r with
      | .error e =>
        return .error ⟨.publish e, ← unwind S txnID w (done ++ obj :: rest.map (·.2))⟩
      | .ok () => publishLoop S txnID w (done ++ [{ obj with rel := row.virtualPath }]) rest

/-- The last step of `AddAudio`; a partial commit is unwound too. -/
def commitRows (S : SectionWriter.LongestFirst) (req : AddRequest) (w : SectionWriter)
    (objects : List StagedObject) : Prog (Except AddError Unit) := do
  match ← db false (.commit req.txnID req.now) with
  | .error e => return .error ⟨.commit e, ← unwind S req.txnID w objects⟩
  | .ok committed =>
    if committed ≠ req.rows.length then
      return .error
        ⟨.committedSome committed req.rows.length, ← unwind S req.txnID w objects⟩
    else return .ok ()

/-- `AddAudio` after its plan: open the section, stage the rows, write, publish, commit. -/
def addAudio (S : SectionWriter.LongestFirst) (req : AddRequest) : Prog (Except AddError Unit) := do
  match ← openSectionWriter req.sec with
  | .error e => return .error ⟨.openSection e, none⟩
  | .ok w =>
    if req.rows = [] then return .ok () else
    match ← db false (.stage req.txnID req.rows) with
    | .error e => return .error ⟨.stage e, none⟩
    | .ok () =>
      match ← writeLoop S req.txnID w [] req.rows with
      | .error e => return .error e
      | .ok (w, objects) =>
        match ← publishLoop S req.txnID w [] (req.rows.zip objects) with
        | .error e => return .error e
        | .ok (w, objects) => commitRows S req w objects

/-! ### Removal -/

inductive RemoveOutcome
  | absent
  | removed (hash : String) (referenced : Bool)
  | occupied
  | failed
  deriving DecidableEq, Repr

/-- The end of `RemoveAudio`: prune, forget the row, count what still refers to
the torrent. -/
def forgetProjection (w : SectionWriter) (sec : AudioSection) (virtualPath : RelPath)
    (row : AudioProjection) : Prog RemoveOutcome := do
  match ← w.pruneEmptyDirs row.virtualPath with
  | .error _ => return .failed
  | .ok () =>
    match ← db false (.delete sec virtualPath) with
    | .error _ => return .failed
    | .ok () =>
      match ← db false (.byHash row.hash) with
      | .error _ => return .failed
      | .ok rows => return .removed row.hash (rows ≠ [])

/-- `RemoveAudio` once the row is claimed. -/
def finishRemoval (sec : AudioSection) (virtualPath : RelPath) (row : AudioProjection) :
    Prog RemoveOutcome := do
  match ← openSectionWriter sec with
  | .error _ => return .failed
  | .ok w =>
    match ← w.identity row.virtualPath with
    | .error e =>
      if e = .errno .enoent then forgetProjection w sec virtualPath row else return .failed
    | .ok id =>
      match ← w.removeStagedIfIdentity false row.virtualPath id with
      | .error _ => return .failed
      | .ok true => forgetProjection w sec virtualPath row
      | .ok false =>
        -- another writer took the name between the two calls
        match ← w.identity row.virtualPath with
        | .error _ => forgetProjection w sec virtualPath row
        | .ok _ =>
          match ← db false (.delete sec virtualPath) with
          | .error _ => return .failed
          | .ok () => return .occupied

def removeAudio (sec : AudioSection) (virtualPath : RelPath) (now : ℤ) : Prog RemoveOutcome := do
  match ← db false (.get sec virtualPath) with
  | .error _ => return .failed
  | .ok none => return .absent
  | .ok (some row) =>
    match row.state with
    | .committed =>
      match ← db false (.mark sec virtualPath now) with
      | .error _ => return .failed
      | .ok false => return .absent
      | .ok true => finishRemoval sec virtualPath row
    | .removing => finishRemoval sec virtualPath row
    | .staged => return .absent

/-- The unlink of one row of `RemoveAudioPrefix`; `false` when it gives up. -/
def unlinkRow (w : SectionWriter) (row : AudioProjection) : Prog Bool := do
  match ← w.identity row.virtualPath with
  | .error e => return decide (e = .errno .enoent)
  | .ok id =>
    match ← w.removeStagedIfIdentity false row.virtualPath id with
    | .error _ => return false
    | .ok _ => return true

/-- The loop of `RemoveAudioPrefix` over the rows it listed before its mark. -/
def removeRows (w : SectionWriter) : List AudioProjection → Prog Bool
  | [] => return true
  | row :: rows => do
      if !(← unlinkRow w row) then return false else
      match ← w.pruneEmptyDirs row.virtualPath with
      | .error _ => return false
      | .ok () =>
        match ← db false (.delete row.sec row.virtualPath) with
        | .error _ => return false
        | .ok () => removeRows w rows

inductive PrefixOutcome
  | conflict
  | empty
  | removed (count : ℕ) (hash : String) (referenced : Bool)
  | failed
  deriving DecidableEq, Repr

def removeAudioPrefix (sec : AudioSection) (pre : RelPath) (now : ℤ) : Prog PrefixOutcome := do
  match ← db false (.byPrefix sec pre) with
  | .error _ => return .failed
  | .ok [] => return .empty
  | .ok (row :: rows) =>
    if rows.any fun r => r.hash ≠ row.hash then return .conflict else
    match ← db false (.markPaths sec ((row :: rows).map (·.virtualPath)) now) with
    | .error _ => return .failed
    | .ok _ =>
      match ← openSectionWriter sec with
      | .error _ => return .failed
      | .ok w =>
        if !(← removeRows w (row :: rows)) then return .failed else
        match ← db false (.byHash row.hash) with
        | .error _ => return .failed
        | .ok remaining => return .removed (rows.length + 1) row.hash (remaining ≠ [])

/-! ### Recovery -/

/-- `sectionWriterMemo`: a section opened once is not opened again. -/
def sectionWriterMemo (opened : List AudioSection) (sec : AudioSection) :
    Prog (Except Errno SectionWriter) :=
  if sec ∈ opened then return .ok ⟨[sec.dirName], []⟩ else openSectionWriter sec

/-- The first loop of `recoverStagedTransaction`: both names of every row. -/
def removeStagedNames (opened : List AudioSection) :
    List AudioProjection → Prog (Option (List AudioSection))
  | [] => return some opened
  | row :: rows => do
      match ← sectionWriterMemo opened row.sec with
      | .error _ => return none
      | .ok w =>
        match ← w.removeStaged row.virtualPath with
        | .error _ => return none
        | .ok () =>
          if row.stagingName = "" then removeStagedNames (row.sec :: opened) rows else
          match ← w.removeStaged (stagingRelPath row) with
          | .error _ => return none
          | .ok () => removeStagedNames (row.sec :: opened) rows

/-- Best effort: the outcome of a prune is only logged. -/
def pruneRows (opened : List AudioSection) : List AudioProjection → Prog Unit
  | [] => return ()
  | row :: rows => do
      if row.sec ∈ opened then
        let _ ← (⟨[row.sec.dirName], []⟩ : SectionWriter).pruneEmptyDirs row.virtualPath
      pruneRows opened rows

/-- `recoverStagedTransaction`: the files go before the rows that prove whose
they were.  `true` when the transaction is rolled back. -/
def recoverStagedTransaction (txnID : String) (rows : List AudioProjection) : Prog Bool := do
  match ← removeStagedNames [] rows with
  | none => return false
  | some opened =>
    pruneRows opened rows
    match ← db false (.rollback txnID) with
    | .error _ => return false
    | .ok _ => return true

def recoverTransactions (rows : List AudioProjection) : List String → Prog Bool
  | [] => return true
  | txnID :: txns => do
      let recovered ← recoverStagedTransaction txnID (rows.filter fun r => r.txnID = txnID)
      let rest ← recoverTransactions rows txns
      return recovered && rest

/-- `RecoverStagedAudioTransactions`; `true` when it reports no error.  A row
without a transaction is passed over. -/
def recoverStagedAudioTransactions : Prog Bool := do
  match ← db false (.byState .staged) with
  | .error _ => return false
  | .ok rows =>
    recoverTransactions rows ((rows.map (·.txnID)).filter (· ≠ "")).eraseDups

def recoverRemovingRows (opened : List AudioSection) :
    List AudioProjection → Prog Bool
  | [] => return true
  | row :: rows => do
      match ← sectionWriterMemo opened row.sec with
      | .error _ => do
          let _ ← recoverRemovingRows opened rows
          return false
      | .ok w =>
        let opened := row.sec :: opened
        match ← w.removeStaged row.virtualPath with
        | .error _ => do
            let _ ← recoverRemovingRows opened rows
            return false
        | .ok () =>
          let _ ← w.pruneEmptyDirs row.virtualPath
          match ← db false (.delete row.sec row.virtualPath) with
          | .error _ => do
              let _ ← recoverRemovingRows opened rows
              return false
          | .ok () => recoverRemovingRows opened rows

/-- `RecoverRemovingAudioProjections`. -/
def recoverRemovingAudioProjections : Prog Bool := do
  match ← db false (.byState .removing) with
  | .error _ => return false
  | .ok rows => recoverRemovingRows [] rows

/-- The recovery of `reconcileAudio`: the removals are finished even when the
rollback of a staged transaction failed. -/
def recoverAudio : Prog Bool := do
  let staged ← recoverStagedAudioTransactions
  let removing ← recoverRemovingAudioProjections
  return staged && removing

end Tiramisu.Library
