import Tiramisu.Go.Text

/-!
# The audio projection registry

The table `audio_projections` and the statements the library runs on it.  A
section-relative path is the list of its components.  The UNIQUE constraints
of the table are a field of `Registry`, so every statement below shows that
it keeps them.
-/

namespace Tiramisu.Metadb

open List

/-- A slash-separated relative path, as the list of its components. -/
abbrev RelPath := List String

/-- `CHECK(section IN ('music', 'audiobooks'))`. -/
inductive AudioSection
  | music
  | audiobooks
  deriving DecidableEq, Repr

def AudioSection.dirName : AudioSection → String
  | .music => "music"
  | .audiobooks => "audiobooks"

/-- The key of a projection: its section and its path below it. -/
structure AudioPath where
  sec : AudioSection
  virtualPath : RelPath
  deriving DecidableEq, Repr

inductive AudioProjectionState
  | staged
  | committed
  | removing
  deriving DecidableEq, Repr

structure AudioProjection where
  sec : AudioSection
  virtualPath : RelPath
  portablePathKey : String
  hash : String
  fileIndex : ℤ
  sourcePath : String
  size : ℤ
  mtimeNS : ℤ
  title : String
  magnet : String
  externalID : String
  externalIDNamespace : String
  cueTrack : ℤ
  byteOffset : ℤ
  header : List UInt8
  state : AudioProjectionState
  txnID : String
  stagingName : String
  createdAtNS : ℤ
  updatedAtNS : ℤ
  deriving DecidableEq, Repr

namespace AudioProjection

def path (p : AudioProjection) : AudioPath := ⟨p.sec, p.virtualPath⟩

/-- The remaining CHECK constraints of the table. -/
def Checked (p : AudioProjection) : Prop :=
  0 < p.fileIndex ∧ 0 < p.size ∧ 0 ≤ p.cueTrack ∧ 0 ≤ p.byteOffset

instance (p : AudioProjection) : Decidable p.Checked := inferInstanceAs (Decidable (_ ∧ _))

/-- `UNIQUE(section, virtual_path)` or `UNIQUE(section, portable_path_key)` is tripped. -/
def PathClash (p q : AudioProjection) : Prop :=
  p.sec = q.sec ∧ (p.virtualPath = q.virtualPath ∨ p.portablePathKey = q.portablePathKey)

instance (p q : AudioProjection) : Decidable (PathClash p q) := inferInstanceAs (Decidable (_ ∧ _))

/-- `UNIQUE(hash, file_index, cue_track)` is tripped. -/
def SourceClash (p q : AudioProjection) : Prop :=
  p.hash = q.hash ∧ p.fileIndex = q.fileIndex ∧ p.cueTrack = q.cueTrack

instance (p q : AudioProjection) : Decidable (SourceClash p q) :=
  inferInstanceAs (Decidable (_ ∧ _))

/-- Two rows that may stand in one table. -/
def Distinct (p q : AudioProjection) : Prop := ¬PathClash p q ∧ ¬SourceClash p q

instance (p q : AudioProjection) : Decidable (Distinct p q) := inferInstanceAs (Decidable (_ ∧ _))

lemma Distinct.path_ne {p q : AudioProjection} (h : Distinct p q) : p.path ≠ q.path := by
  intro heq
  simp only [path, AudioPath.mk.injEq] at heq
  exact h.1 ⟨heq.1, Or.inl heq.2⟩

/-- The columns no statement of this file rewrites. -/
def withState (p : AudioProjection) (state : AudioProjectionState) (updatedAtNS : ℤ) :
    AudioProjection :=
  { p with state := state, updatedAtNS := updatedAtNS }

/-- The half identities `StageAudioProjections` rejects up front. -/
def IdentityIncomplete (p : AudioProjection) : Prop :=
  ¬(p.externalID = "" ↔ p.externalIDNamespace = "")

instance (p : AudioProjection) : Decidable p.IdentityIncomplete := inferInstanceAs (Decidable (¬_))

end AudioProjection

open AudioProjection

/-- The table, in insertion order. -/
structure Registry where
  rows : List AudioProjection
  unique : rows.Pairwise Distinct

inductive StageError
  | pathConflict
  | sourceConflict
  | identityIncomplete
  | constraint
  deriving DecidableEq, Repr

namespace Registry

@[ext] lemma ext {db db' : Registry} (h : db.rows = db'.rows) : db = db' := by
  cases db
  cases db'
  simpa using h

def empty : Registry := ⟨[], List.Pairwise.nil⟩

instance : DecidableEq Registry := fun db db' =>
  decidable_of_iff (db.rows = db'.rows) ⟨ext, fun h => h ▸ rfl⟩

/-- `UPDATE audio_projections SET state = ?, updated_at_ns = ? WHERE p`. -/
def updateState (db : Registry) (p : AudioProjection → Bool) (state : AudioProjectionState)
    (updatedAtNS : ℤ) : Registry where
  rows := db.rows.map fun r => if p r then r.withState state updatedAtNS else r
  unique := db.unique.map _ fun r s h => by split_ifs <;> exact h

/-- `DELETE FROM audio_projections WHERE p`. -/
def deleteWhere (db : Registry) (p : AudioProjection → Bool) : Registry where
  rows := db.rows.filter fun r => !p r
  unique := db.unique.filter _

/-- The rows an UPDATE or DELETE touches: its `RowsAffected`. -/
def rowsAffected (db : Registry) (p : AudioProjection → Bool) : ℕ := db.rows.countP p

/-- `classifyAudioConflict`: the constraint named after a failed insert. -/
def classifyAudioConflict (db : Registry) (p : AudioProjection) : StageError :=
  if ∃ r ∈ db.rows, PathClash r p then .pathConflict
  else if ∃ r ∈ db.rows, SourceClash r p then .sourceConflict
  else .constraint

/-- One INSERT: refused when a CHECK or UNIQUE constraint is tripped. -/
def insert (db : Registry) (p : AudioProjection) : Except StageError Registry :=
  if h : p.Checked ∧ ∀ r ∈ db.rows, Distinct r p then
    .ok ⟨db.rows ++ [p], by
      rw [pairwise_append]
      exact ⟨db.unique, pairwise_singleton _ _, by simpa using h.2⟩⟩
  else .error (classifyAudioConflict db p)

def stageAudioProjections (db : Registry) (txnID : String) (ps : List AudioProjection) :
    Except StageError Registry :=
  if ∃ p ∈ ps, p.IdentityIncomplete then .error .identityIncomplete
  else ps.foldlM (fun db p => db.insert { p with state := .staged, txnID := txnID }) db

def stagedBy (txnID : String) (r : AudioProjection) : Bool :=
  r.txnID = txnID && r.state = .staged

def commitAudioProjections (db : Registry) (txnID : String) (updatedAtNS : ℤ) : Registry × ℕ :=
  (db.updateState (stagedBy txnID) .committed updatedAtNS, db.rowsAffected (stagedBy txnID))

def rollbackAudioProjections (db : Registry) (txnID : String) : Registry × ℕ :=
  (db.deleteWhere (stagedBy txnID), db.rowsAffected (stagedBy txnID))

def committedAt (sec : AudioSection) (paths : List RelPath) (r : AudioProjection) : Bool :=
  r.sec = sec && r.state = .committed && paths.contains r.virtualPath

def markAudioProjectionRemoving (db : Registry) (sec : AudioSection) (virtualPath : RelPath)
    (updatedAtNS : ℤ) : Registry × Bool :=
  (db.updateState (committedAt sec [virtualPath]) .removing updatedAtNS,
    0 < db.rowsAffected (committedAt sec [virtualPath]))

def markAudioProjectionsRemovingPaths (db : Registry) (sec : AudioSection)
    (virtualPaths : List RelPath) (updatedAtNS : ℤ) : Registry × ℕ :=
  (db.updateState (committedAt sec virtualPaths) .removing updatedAtNS,
    db.rowsAffected (committedAt sec virtualPaths))

/-- `DeleteAudioProjection` drops a row whatever its state. -/
def deleteAudioProjection (db : Registry) (sec : AudioSection) (virtualPath : RelPath) :
    Registry :=
  db.deleteWhere fun r => r.path = ⟨sec, virtualPath⟩

/-- The row that owns a path. -/
def row (db : Registry) (k : AudioPath) : Option AudioProjection :=
  db.rows.find? fun r => r.path = k

def getAudioProjection (db : Registry) (sec : AudioSection) (virtualPath : RelPath) :
    Option AudioProjection :=
  db.row ⟨sec, virtualPath⟩

/-- The row owning a section's portable key. -/
def audioProjectionByPortableKey (db : Registry) (sec : AudioSection) (portableKey : String) :
    Option AudioProjection :=
  db.rows.find? fun r => r.sec = sec && r.portablePathKey = portableKey

/-- The row owning a torrent file, or one cue track of it. -/
def audioProjectionBySource (db : Registry) (hash : String) (fileIndex cueTrack : ℤ) :
    Option AudioProjection :=
  db.rows.find? fun r => r.hash = hash && r.fileIndex = fileIndex && r.cueTrack = cueTrack

/-- The text `ORDER BY section, virtual_path` compares. -/
def orderKey (r : AudioProjection) : String × String :=
  (r.sec.dirName, String.intercalate "/" r.virtualPath)

def orderBySectionPath (rs : List AudioProjection) : List AudioProjection :=
  rs.insertionSort fun r s =>
    (orderKey r).1 < (orderKey s).1 ∨ (orderKey r).1 = (orderKey s).1 ∧ (orderKey r).2 ≤ (orderKey s).2

def audioProjectionsByState (db : Registry) (state : AudioProjectionState) :
    List AudioProjection :=
  orderBySectionPath (db.rows.filter fun r => r.state = state)

def committedAudioProjections (db : Registry) (sec : AudioSection) : List AudioProjection :=
  orderBySectionPath (db.rows.filter fun r => r.state = .committed && r.sec = sec)

def audioProjectionsByHash (db : Registry) (hash : String) : List AudioProjection :=
  orderBySectionPath (db.rows.filter fun r => r.hash = hash)

/-- `AudioProjectionsByPrefix`: the prefix itself or whole components below it,
committed or left in `removing`. -/
def audioProjectionsByPrefix (db : Registry) (sec : AudioSection) (pre : RelPath) :
    List AudioProjection :=
  db.rows.filter fun r =>
    r.sec = sec && (r.state = .committed || r.state = .removing) && pre.isPrefixOf r.virtualPath

def audioHashReferenced (db : Registry) (hash : String) : Bool :=
  db.rows.any fun r => r.hash = hash

/-! ### Looking rows up -/

section Lookup

variable {db : Registry} {k : AudioPath} {r s : AudioProjection}

lemma eq_of_path_eq (hr : r ∈ db.rows) (hs : s ∈ db.rows) (h : r.path = s.path) : r = s := by
  by_contra hne
  have hsymm : Std.Symm Distinct := ⟨fun a b hab => ⟨fun h => hab.1
    ⟨h.1.symm, h.2.imp Eq.symm Eq.symm⟩, fun h => hab.2 ⟨h.1.symm, h.2.1.symm, h.2.2.symm⟩⟩⟩
  exact (db.unique.forall hr hs hne).path_ne h

lemma row_eq_some_iff : db.row k = some r ↔ r ∈ db.rows ∧ r.path = k := by
  constructor
  · intro h
    exact ⟨mem_of_find?_eq_some h, by simpa using find?_some h⟩
  rintro ⟨hr, rfl⟩
  cases h : db.row r.path with
  | none => exact absurd (find?_eq_none.mp h r hr) (by simp)
  | some s =>
    have hs : s ∈ db.rows ∧ s.path = r.path :=
      ⟨mem_of_find?_eq_some h, by simpa using find?_some h⟩
    rw [eq_of_path_eq hs.1 hr hs.2]

lemma row_eq_none_iff : db.row k = none ↔ ∀ r ∈ db.rows, r.path ≠ k := by
  simp [row, find?_eq_none]

lemma mem_rows_iff : r ∈ db.rows ↔ db.row r.path = some r := by
  simp [row_eq_some_iff]

lemma row_updateState (p : AudioProjection → Bool) (st : AudioProjectionState) (t : ℤ) :
    (db.updateState p st t).row k
      = (db.row k).map fun r => if p r then r.withState st t else r := by
  have hpath : ∀ r : AudioProjection, (if p r then r.withState st t else r).path = r.path := by
    intro r
    split_ifs <;> rfl
  simp only [row, updateState, find?_map]
  congr 1
  exact congrArg (fun q => db.rows.find? q) (funext fun r => by simp [hpath])

/-- An update leaves the rows of a transaction none of whose rows it matches. -/
lemma mem_updateState_iff {p : AudioProjection → Bool} {st : AudioProjectionState} {t : ℤ}
    (h : ∀ s ∈ db.rows, p s = true → s.txnID ≠ r.txnID) :
    r ∈ (db.updateState p st t).rows ↔ r ∈ db.rows := by
  simp only [updateState, mem_map]
  constructor
  · rintro ⟨s, hs, rfl⟩
    by_cases hp : p s = true
    · exact absurd (by simp [hp, withState]) (h s hs hp)
    · simpa [hp] using hs
  · intro hr
    have hp : p r = false := by
      by_contra hp
      exact h r hr (by simpa using hp) rfl
    exact ⟨r, hr, by simp [hp]⟩

lemma row_deleteWhere (p : AudioProjection → Bool) :
    (db.deleteWhere p).row k = (db.row k).filter fun r => !p r := by
  ext r
  rw [row_eq_some_iff, Option.filter_eq_some_iff, row_eq_some_iff]
  simp only [deleteWhere, mem_filter]
  tauto

lemma row_insert {p : AudioProjection} {db' : Registry} (h : db.insert p = .ok db') :
    db.row p.path = none ∧
      db'.row k = if k = p.path then some p else db.row k := by
  unfold insert at h
  split_ifs at h with hok
  obtain rfl : db' = _ := (Except.ok.inj h).symm
  have hnone : db.row p.path = none :=
    row_eq_none_iff.mpr fun r hr => (hok.2 r hr).path_ne
  refine ⟨hnone, ?_⟩
  simp only [row, find?_append]
  split_ifs with hk
  · subst hk
    simp only [row] at hnone
    simp [hnone]
  · simp [Ne.symm hk]

lemma rows_insert {p : AudioProjection} {db' : Registry} (h : db.insert p = .ok db') :
    db'.rows = db.rows ++ [p] := by
  unfold insert at h
  split_ifs at h
  rw [← Except.ok.inj h]

/-- A staged batch stands at the end of the table. -/
lemma rows_stageAudioProjections {txnID : String} {ps : List AudioProjection} {db' : Registry}
    (h : db.stageAudioProjections txnID ps = .ok db') :
    db'.rows = db.rows ++ ps.map fun p => { p with state := .staged, txnID := txnID } := by
  unfold stageAudioProjections at h
  split_ifs at h
  induction ps generalizing db with
  | nil =>
    obtain rfl : db = db' := Except.ok.inj h
    simp
  | cons p ps ih =>
    rw [foldlM_cons] at h
    cases hins : db.insert { p with state := .staged, txnID := txnID } with
    | error e =>
      rw [hins] at h
      exact absurd h (by simp [Bind.bind, Except.bind])
    | ok db1 =>
      rw [hins] at h
      rename_i hinc
      rw [ih (fun ⟨q, hq, hi⟩ => hinc ⟨q, by simp [hq], hi⟩) h, rows_insert hins]
      simp

/-- A batch that clashes with no row and not with itself trips no UNIQUE
constraint. -/
lemma stage_error_of_distinct {txnID : String} {ps : List AudioProjection} {e : StageError}
    (hdis : (db.rows ++ ps).Pairwise Distinct) (h : db.stageAudioProjections txnID ps = .error e) :
    e = .identityIncomplete ∨ e = .constraint := by
  unfold stageAudioProjections at h
  split_ifs at h with hinc
  · exact Or.inl (Except.error.inj h).symm
  induction ps generalizing db with
  | nil => exact absurd h (by simp [Pure.pure, Except.pure])
  | cons p ps ih =>
    rw [foldlM_cons] at h
    have hfree : ∀ r ∈ db.rows, Distinct r { p with state := .staged, txnID := txnID } :=
      fun r hr => (pairwise_append.mp hdis).2.2 r hr p (by simp)
    by_cases hchecked : ({ p with state := .staged, txnID := txnID } : AudioProjection).Checked
    · cases hins : db.insert { p with state := .staged, txnID := txnID } with
      | error e' =>
        unfold insert at hins
        rw [dif_pos ⟨hchecked, hfree⟩] at hins
        cases hins
      | ok db1 =>
        rw [hins] at h
        refine ih ?_ (fun ⟨q, hq, hi⟩ => hinc ⟨q, by simp [hq], hi⟩) h
        rw [rows_insert hins, append_assoc]
        -- the inserted row differs from the requested one in no constrained column
        simpa [pairwise_append, pairwise_cons, Distinct, PathClash, SourceClash]
          using hdis
    · have hins : db.insert { p with state := .staged, txnID := txnID } = .error .constraint := by
        unfold insert
        rw [dif_neg fun hok => hchecked hok.1, classifyAudioConflict, if_neg, if_neg]
        · exact fun ⟨r, hr, hclash⟩ => (hfree r hr).2 hclash
        · exact fun ⟨r, hr, hclash⟩ => (hfree r hr).1 hclash
      rw [hins] at h
      exact Or.inr (Except.error.inj h).symm

lemma mem_orderBySectionPath {rs : List AudioProjection} :
    r ∈ orderBySectionPath rs ↔ r ∈ rs := mem_insertionSort _

lemma mem_audioProjectionsByState {st : AudioProjectionState} :
    r ∈ db.audioProjectionsByState st ↔ r ∈ db.rows ∧ r.state = st := by
  rw [audioProjectionsByState, mem_orderBySectionPath, mem_filter]
  simp

lemma mem_committedAudioProjections {sec : AudioSection} :
    r ∈ db.committedAudioProjections sec
      ↔ db.row r.path = some r ∧ r.state = .committed ∧ r.sec = sec := by
  rw [committedAudioProjections, mem_orderBySectionPath, mem_filter, mem_rows_iff]
  simp

end Lookup

end Registry

end Tiramisu.Metadb
