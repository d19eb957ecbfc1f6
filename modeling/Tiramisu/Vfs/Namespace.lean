import Tiramisu.Go.Maps
import Tiramisu.Lib.Runs
import Tiramisu.Metadb.Audio

/-!
# The audio namespace and its reconciliation pass

The VFS serves audio from an in-memory copy of the committed registry rows.
Live requests update the copy after their registry statement; the startup
pass reads the rows section by section and later publishes what it read,
merged with the additions made meanwhile.
-/

namespace Tiramisu.Library

open Go List Metadb.Registry
open Metadb (AudioSection AudioPath AudioProjectionState Registry RelPath)

structure AudioProjection where
  sec : AudioSection
  virtualPath : RelPath
  hash : String
  fileIndex : ℤ
  size : ℤ
  mtimeNS : ℤ
  updatedAtNS : ℤ
  externalID : String
  externalIDNamespace : String
  cueTrack : ℤ
  byteOffset : ℤ
  header : List UInt8
  deriving DecidableEq, Repr

namespace AudioProjection

def path (p : AudioProjection) : AudioPath := ⟨p.sec, p.virtualPath⟩

/-- The projection a registry row stands for. -/
def ofRow (r : Metadb.AudioProjection) : AudioProjection where
  sec := r.sec
  virtualPath := r.virtualPath
  hash := r.hash
  fileIndex := r.fileIndex
  size := r.size
  mtimeNS := r.mtimeNS
  updatedAtNS := r.updatedAtNS
  externalID := r.externalID
  externalIDNamespace := r.externalIDNamespace
  cueTrack := r.cueTrack
  byteOffset := r.byteOffset
  header := r.header

end AudioProjection

inductive NamespaceState
  | unreconciled
  | ready
  | unavailable
  | failed
  deriving DecidableEq, Repr

structure AudioNamespace where
  entries : GoMap AudioPath AudioProjection
  live : GoMap AudioPath AudioProjection
  state : NamespaceState

namespace AudioNamespace

def newAudioNamespace : AudioNamespace := ⟨∅, ∅, .unreconciled⟩

def addProjections (n : AudioNamespace) (ps : List AudioProjection) : AudioNamespace :=
  if ps = [] then n else
  { n with
    entries := n.entries.insertAll AudioProjection.path ps
    live := n.live.insertAll AudioProjection.path ps }

def remove (n : AudioNamespace) (k : AudioPath) : AudioNamespace :=
  { n with entries := n.entries.erase k, live := n.live.erase k }

/-- `PublishMerged`: the pass's projections, overlaid by the live additions. -/
def publishMerged (n : AudioNamespace) (projections : List AudioProjection) : AudioNamespace :=
  let next := GoMap.insertAll AudioProjection.path (∅ : GoMap AudioPath AudioProjection) projections
  { entries := n.live ∪ next, live := ∅, state := .ready }

def lookup (n : AudioNamespace) (k : AudioPath) : Option AudioProjection := n.entries.lookup k

lemma live_addProjections (n : AudioNamespace) (ps : List AudioProjection) :
    (n.addProjections ps).live = n.live.insertAll AudioProjection.path ps := by
  unfold addProjections
  split_ifs with h
  · rw [h]
    rfl
  · rfl

end AudioNamespace

/-! ### The registry's committed set -/

/-- The projection the registry has committed at a path. -/
def committedProjection (db : Registry) (k : AudioPath) : Option AudioProjection :=
  ((db.row k).filter fun r => r.state = .committed).map AudioProjection.ofRow

section Committed

variable {db : Registry} {k : AudioPath}

lemma committedProjection_eq_some {x : AudioProjection} :
    committedProjection db k = some x
      ↔ ∃ r, db.row k = some r ∧ r.state = .committed ∧ AudioProjection.ofRow r = x := by
  simp only [committedProjection, Option.map_eq_some_iff, Option.filter_eq_some_iff,
    decide_eq_true_eq]
  exact ⟨fun ⟨r, hr, hx⟩ => ⟨r, hr.1, hr.2, hx⟩, fun ⟨r, hr, hst, hx⟩ => ⟨r, ⟨hr, hst⟩, hx⟩⟩

lemma path_of_committedProjection {x : AudioProjection} (h : committedProjection db k = some x) :
    x.path = k := by
  obtain ⟨r, hr, -, rfl⟩ := committedProjection_eq_some.mp h
  exact (row_eq_some_iff.mp hr).2

/-- An UPDATE of the state changes the committed set only at the rows it touches. -/
lemma committedProjection_updateState {p : Metadb.AudioProjection → Bool}
    {st : AudioProjectionState} {t : ℤ} (h : ∀ r, db.row k = some r → p r = false) :
    committedProjection (db.updateState p st t) k = committedProjection db k := by
  unfold committedProjection
  rw [row_updateState]
  cases hr : db.row k with
  | none => rfl
  | some r => simp [h r hr]

lemma committedProjection_deleteWhere {p : Metadb.AudioProjection → Bool}
    (h : ∀ r, db.row k = some r → r.state = .committed → p r = false) :
    committedProjection (db.deleteWhere p) k = committedProjection db k := by
  unfold committedProjection
  rw [row_deleteWhere]
  cases hr : db.row k with
  | none => rfl
  | some r =>
    by_cases hst : r.state = .committed
    · simp [hst, h r hr hst, Option.filter]
    · cases hp : p r <;> simp [hst, hp, Option.filter]

lemma committedProjection_insert {p : Metadb.AudioProjection} {db' : Registry}
    (hst : p.state = .staged) (h : db.insert p = .ok db') :
    committedProjection db' k = committedProjection db k := by
  obtain ⟨hnone, hrow⟩ := row_insert (k := k) h
  unfold committedProjection
  rw [hrow]
  split_ifs with hk
  · simp [hk, hnone, hst, Option.filter]
  · rfl

lemma committedProjection_stage {txnID : String} {ps : List Metadb.AudioProjection}
    {db' : Registry} (h : db.stageAudioProjections txnID ps = .ok db') :
    committedProjection db' k = committedProjection db k := by
  unfold stageAudioProjections at h
  split_ifs at h
  induction ps generalizing db with
  | nil =>
    obtain rfl : db = db' := by simpa [pure, Except.pure] using h
    rfl
  | cons p ps ih =>
    simp only [foldlM_cons] at h
    cases hp : db.insert { p with state := .staged, txnID := txnID } with
    | error e => simp [hp, bind, Except.bind] at h
    | ok db1 =>
      simp only [hp, bind, Except.bind] at h
      rw [ih (by simp_all) h, committedProjection_insert rfl hp]

end Committed

/-! ### One pass among live requests -/

/-- How far the pass is: the sections it has yet to read, what it read, and
the rows its health check refused beforehand. -/
structure Pass where
  toRead : List AudioSection
  unhealthy : List AudioPath
  committed : List AudioProjection
  published : Bool

/-- The registry, the namespace and the pass.  `committedEver` and `markedEver`
record which namespace calls a request may still make, `waiting` the paths
whose registry change is not yet followed by its call. -/
structure ReconcileWorld where
  db : Registry
  ns : AudioNamespace
  pass : Pass
  committedEver : List AudioProjection
  markedEver : List AudioPath
  waiting : List AudioPath

inductive Event
  | stage (txnID : String) (rows : List Metadb.AudioProjection)
  | commit (txnID : String) (updatedAtNS : ℤ)
  | rollback (txnID : String)
  | markRemoving (sec : AudioSection) (paths : List RelPath) (updatedAtNS : ℤ)
  | delete (sec : AudioSection) (virtualPath : RelPath)
  | addProjections (ps : List AudioProjection)
  | remove (k : AudioPath)
  | readSection
  | publishMerged

namespace ReconcileWorld

def initial (db : Registry) (unhealthy : List AudioPath) : ReconcileWorld where
  db := db
  ns := .newAudioNamespace
  pass := ⟨[.music, .audiobooks], unhealthy, [], false⟩
  committedEver := []
  markedEver := []
  waiting := []

/-- The rows a WHERE clause selects. -/
def affected (db : Registry) (p : Metadb.AudioProjection → Bool) : List Metadb.AudioProjection :=
  db.rows.filter p

/-- The rows of one section the pass keeps. -/
def healthyRows (w : ReconcileWorld) (sec : AudioSection) : List AudioProjection :=
  ((w.db.committedAudioProjections sec).filter fun r => r.path ∉ w.pass.unhealthy).map
    AudioProjection.ofRow

def exec (w : ReconcileWorld) : Event → Option ReconcileWorld
  | .stage txnID rows =>
    match w.db.stageAudioProjections txnID rows with
    | .ok db => some { w with db := db }
    | .error _ => some w
  | .commit txnID updatedAtNS =>
    let rows := affected w.db (stagedBy txnID)
    some { w with
      db := (w.db.commitAudioProjections txnID updatedAtNS).1
      committedEver := rows.map (fun r => .ofRow (r.withState .committed updatedAtNS))
        ++ w.committedEver
      waiting := rows.map (·.path) ++ w.waiting }
  | .rollback txnID => some { w with db := (w.db.rollbackAudioProjections txnID).1 }
  | .markRemoving sec paths updatedAtNS =>
    let rows := affected w.db (committedAt sec paths)
    some { w with
      db := (w.db.markAudioProjectionsRemovingPaths sec paths updatedAtNS).1
      markedEver := rows.map (·.path) ++ w.markedEver
      waiting := rows.map (·.path) ++ w.waiting }
  | .delete sec virtualPath => some { w with db := w.db.deleteAudioProjection sec virtualPath }
  | .addProjections ps =>
    if ∀ p ∈ ps, p ∈ w.committedEver then
      some { w with
        ns := w.ns.addProjections ps
        waiting := w.waiting.filter fun k => k ∉ ps.map (·.path) }
    else none
  | .remove k =>
    if k ∈ w.markedEver then
      some { w with ns := w.ns.remove k, waiting := w.waiting.filter (· ≠ k) }
    else none
  | .readSection =>
    match w.pass.toRead with
    | [] => none
    | sec :: rest =>
      some { w with
        pass := { w.pass with
          toRead := rest, committed := w.pass.committed ++ w.healthyRows sec }
        -- a row just read no longer needs its call, unless a live entry hides it
        waiting := w.waiting.filter fun k =>
          ¬(k.sec = sec ∧ w.ns.live.lookup k = none) }
  | .publishMerged =>
    if w.pass.toRead = [] ∧ w.pass.published = false then
      some { w with
        ns := w.ns.publishMerged w.pass.committed
        pass := { w.pass with published := true } }
    else none

def Step (w : ReconcileWorld) (e : Event) (w' : ReconcileWorld) : Prop := w.exec e = some w'

/-- The timing under which the merged publish is right: no row the pass has
read is marked, each namespace call is made while the registry still says the
same, no committed row is skipped as unhealthy, and at the publish no registry
change is waiting for its call. -/
def WellTimed (w : ReconcileWorld) : Event → Prop
  | .markRemoving sec paths _ =>
    ∀ r ∈ affected w.db (committedAt sec paths),
      ∀ x ∈ w.pass.committed, x.path ≠ r.path
  | .delete sec virtualPath => committedProjection w.db ⟨sec, virtualPath⟩ = none
  | .addProjections ps => ∀ x ∈ ps, committedProjection w.db x.path = some x
  | .remove k => committedProjection w.db k = none
  | .readSection =>
    ∀ sec ∈ w.pass.toRead.head?, ∀ r ∈ w.db.committedAudioProjections sec,
      r.path ∉ w.pass.unhealthy
  | .publishMerged => w.waiting = []
  | _ => True

/-- What the pass has read is still committed; away from the waiting paths the
live entries are committed rows, and a committed row that is not live has been
read if its section has. -/
structure Tracks (w : ReconcileWorld) : Prop where
  held : ∀ x ∈ w.pass.committed, committedProjection w.db x.path = some x
  live : ∀ k ∉ w.waiting, ∀ x, w.ns.live.lookup k = some x → committedProjection w.db k = some x
  read : ∀ k ∉ w.waiting, k.sec ∉ w.pass.toRead → w.ns.live.lookup k = none →
    ∀ x, committedProjection w.db k = some x → x ∈ w.pass.committed

lemma tracks_initial (db : Registry) (unhealthy : List AudioPath) :
    Tracks (initial db unhealthy) where
  held := by simp [initial]
  live := by simp [initial, AudioNamespace.newAudioNamespace]
  read k _ hk := by
    cases hsec : k.sec <;> simp [initial, hsec] at hk

/-- A registry statement keeps the correspondence when the rows it changes are
not held by the pass and wait for their call. -/
lemma Tracks.of_registry {w w' : ReconcileWorld} (h : Tracks w) (hns : w'.ns = w.ns)
    (hpass : w'.pass = w.pass) (hwait : ∀ k ∈ w.waiting, k ∈ w'.waiting)
    (hheld : ∀ x ∈ w.pass.committed, committedProjection w'.db x.path = some x)
    (hframe : ∀ k ∉ w'.waiting, committedProjection w'.db k = committedProjection w.db k) :
    Tracks w' where
  held := by rwa [hpass]
  live k hk x hx := by
    rw [hframe k hk]
    exact h.live k (fun hmem => hk (hwait k hmem)) x (hns ▸ hx)
  read k hk hsec hlive x hx := by
    rw [hpass]
    rw [hpass] at hsec
    exact h.read k (fun hmem => hk (hwait k hmem)) hsec (hns ▸ hlive) x (hframe k hk ▸ hx)

lemma not_selected_of_not_mem_affected {db : Registry} {p : Metadb.AudioProjection → Bool}
    {k : AudioPath} (hk : k ∉ (affected db p).map (·.path)) {r : Metadb.AudioProjection}
    (hr : db.row k = some r) : p r = false := by
  by_contra hp
  obtain ⟨hmem, hpath⟩ := row_eq_some_iff.mp hr
  exact hk (mem_map.mpr ⟨r, mem_filter.mpr ⟨hmem, by simpa using hp⟩, hpath⟩)

variable {w w' : ReconcileWorld}

section

variable (h : Tracks w)

include h

lemma Tracks.stage {txnID : String} {rows : List Metadb.AudioProjection}
    (hst : Step w (.stage txnID rows) w') : Tracks w' := by
  unfold Step at hst
  simp only [exec] at hst
  split at hst
  · rename_i db' hdb
    cases hst
    have hsame : ∀ k, committedProjection db' k = committedProjection w.db k := fun k =>
      committedProjection_stage hdb
    exact h.of_registry rfl rfl (fun k hk => hk) (fun x hx => (hsame _).trans (h.held x hx))
      fun k _ => hsame k
  · cases hst
    exact h

lemma Tracks.commit {txnID : String} {t : ℤ} (hst : Step w (.commit txnID t) w') : Tracks w' := by
  cases hst
  refine h.of_registry rfl rfl (fun k hk => mem_append_right _ hk) (fun x hx => ?_)
    fun k hk => ?_
  · have hx' := h.held x hx
    obtain ⟨r, hr, hcom, -⟩ := committedProjection_eq_some.mp hx'
    -- a row already committed is not staged, so the statement passes it by
    have hskip : ∀ s, w.db.row x.path = some s → stagedBy txnID s = false := by
      intro s hs
      cases hr.symm.trans hs
      simp [stagedBy, hcom]
    exact (committedProjection_updateState hskip).trans hx'
  · have hk' : k ∉ (affected w.db (stagedBy txnID)).map (·.path) :=
      fun hmem => hk (mem_append_left _ hmem)
    exact committedProjection_updateState fun r hr => not_selected_of_not_mem_affected hk' hr

lemma Tracks.rollback {txnID : String} (hst : Step w (.rollback txnID) w') : Tracks w' := by
  cases hst
  have hsame : ∀ k, committedProjection (w.db.rollbackAudioProjections txnID).1 k
      = committedProjection w.db k := by
    intro k
    apply committedProjection_deleteWhere
    intro r _ hcom
    simp [stagedBy, hcom]
  exact h.of_registry rfl rfl (fun k hk => hk) (fun x hx => (hsame _).trans (h.held x hx))
    fun k _ => hsame k

lemma Tracks.markRemoving {sec : AudioSection} {paths : List RelPath} {t : ℤ}
    (hok : WellTimed w (.markRemoving sec paths t)) (hst : Step w (.markRemoving sec paths t) w') :
    Tracks w' := by
  cases hst
  have hframe : ∀ k ∉ (affected w.db (committedAt sec paths)).map (·.path),
      committedProjection (w.db.markAudioProjectionsRemovingPaths sec paths t).1 k
        = committedProjection w.db k := by
    intro k hk
    exact committedProjection_updateState fun r hr => not_selected_of_not_mem_affected hk hr
  refine h.of_registry rfl rfl (fun k hk => mem_append_right _ hk) (fun x hx => ?_)
    fun k hk => hframe k fun hmem => hk (mem_append_left _ hmem)
  rw [← h.held x hx]
  apply hframe
  intro hmem
  obtain ⟨r, hr, hpath⟩ := mem_map.mp hmem
  exact hok r hr x hx hpath.symm

lemma Tracks.delete {sec : AudioSection} {virtualPath : RelPath}
    (hok : WellTimed w (.delete sec virtualPath)) (hst : Step w (.delete sec virtualPath) w') :
    Tracks w' := by
  cases hst
  have hsame : ∀ k, committedProjection (w.db.deleteAudioProjection sec virtualPath) k
      = committedProjection w.db k := by
    intro k
    apply committedProjection_deleteWhere
    intro r hr hcom
    have hpath : r.path = k := (row_eq_some_iff.mp hr).2
    have hne : k ≠ ⟨sec, virtualPath⟩ := by
      rintro rfl
      have : committedProjection w.db ⟨sec, virtualPath⟩ = some (.ofRow r) :=
        committedProjection_eq_some.mpr ⟨r, hr, hcom, rfl⟩
      simp [WellTimed, this] at hok
    simpa [hpath] using hne
  exact h.of_registry rfl rfl (fun k hk => hk) (fun x hx => (hsame _).trans (h.held x hx))
    fun k _ => hsame k

lemma Tracks.addProjections {ps : List AudioProjection} (hok : WellTimed w (.addProjections ps))
    (hst : Step w (.addProjections ps) w') : Tracks w' := by
  simp only [Step, exec] at hst
  split_ifs at hst
  cases hst
  have hlookup : ∀ k, (∃ x ∈ ps, x.path = k ∧ committedProjection w.db k = some x ∧
      (w.ns.addProjections ps).live.lookup k = some x) ∨
      ((∀ x ∈ ps, x.path ≠ k) ∧
        (w.ns.addProjections ps).live.lookup k = w.ns.live.lookup k) := by
    intro k
    rw [AudioNamespace.live_addProjections]
    by_cases hex : ∃ x ∈ ps, x.path = k
    · obtain ⟨x, hx, rfl⟩ := hex
      refine Or.inl ⟨x, hx, rfl, hok x hx, GoMap.lookup_insertAll_of_mem hx fun y hy hxy => ?_⟩
      have hy' := hok y hy
      rw [hxy, hok x hx] at hy'
      exact (Option.some.inj hy').symm
    · have hne : ∀ x ∈ ps, x.path ≠ k := fun x hx hk => hex ⟨x, hx, hk⟩
      exact Or.inr ⟨hne, GoMap.lookup_insertAll_of_forall_ne hne⟩
  have hwait : ∀ k, k ∉ w.waiting.filter (fun k => k ∉ ps.map (·.path)) →
      (∀ x ∈ ps, x.path ≠ k) → k ∉ w.waiting := by
    intro k hk hne hmem
    apply hk
    simpa [hmem] using hne
  refine ⟨h.held, fun k hk x hx => ?_, fun k hk hsec hlive x hx => ?_⟩
  · rcases hlookup k with ⟨y, -, -, hy, hlk⟩ | ⟨hne, hlk⟩
    · rw [hlk] at hx
      rw [← hx]
      exact hy
    · exact h.live k (hwait k hk hne) x (hlk ▸ hx)
  · rcases hlookup k with ⟨y, -, -, -, hlk⟩ | ⟨hne, hlk⟩
    · simp [hlk] at hlive
    · exact h.read k (hwait k hk hne) hsec (hlk ▸ hlive) x hx

lemma Tracks.remove {k : AudioPath} (hok : WellTimed w (.remove k)) (hst : Step w (.remove k) w') :
    Tracks w' := by
  simp only [Step, exec] at hst
  split_ifs at hst
  cases hst
  have hnone : committedProjection w.db k = none := hok
  have hwait : ∀ l ≠ k, l ∉ w.waiting.filter (· ≠ k) → l ∉ w.waiting := by
    intro l hlk hl hmem
    exact hl (by simp [hmem, hlk])
  refine ⟨h.held, fun l hl x hx => ?_, fun l hl hsec hlive x hx => ?_⟩
  · by_cases hlk : l = k
    · subst hlk
      simp [AudioNamespace.remove] at hx
    · have hsame := AList.lookup_erase_ne (s := w.ns.live) hlk
      exact h.live l (hwait l hlk hl) x (hsame.symm.trans hx)
  · by_cases hlk : l = k
    · rw [hlk, hnone] at hx
      cases hx
    · have hsame := AList.lookup_erase_ne (s := w.ns.live) hlk
      exact h.read l (hwait l hlk hl) hsec (hsame.symm.trans hlive) x hx

end

lemma mem_healthyRows {sec : AudioSection} {x : AudioProjection} :
    x ∈ w.healthyRows sec ↔ ∃ r, w.db.row r.path = some r ∧ r.state = .committed ∧ r.sec = sec ∧
      r.path ∉ w.pass.unhealthy ∧ AudioProjection.ofRow r = x := by
  simp only [healthyRows, mem_map, mem_filter, mem_committedAudioProjections,
    decide_eq_true_eq, and_assoc]

lemma Tracks.readSection (h : Tracks w) (hok : WellTimed w .readSection)
    (hst : Step w .readSection w') : Tracks w' := by
  simp only [Step, exec] at hst
  cases hread : w.pass.toRead with
  | nil => simp [hread] at hst
  | cons sec rest =>
    simp only [hread] at hst
    cases hst
    have hwait : ∀ k, k ∉ w.waiting.filter
        (fun k => ¬(k.sec = sec ∧ w.ns.live.lookup k = none)) →
        ¬(k.sec = sec ∧ w.ns.live.lookup k = none) → k ∉ w.waiting := by
      intro k hk hnot hmem
      exact hk (mem_filter.mpr ⟨hmem, decide_eq_true hnot⟩)
    refine ⟨fun x hx => ?_, fun k hk x hx => ?_, fun k hk hsec hlive x hx => ?_⟩
    · rcases mem_append.mp hx with hx | hx
      · exact h.held x hx
      · obtain ⟨r, hr, hcom, -, -, rfl⟩ := mem_healthyRows.mp hx
        exact committedProjection_eq_some.mpr ⟨r, hr, hcom, rfl⟩
    · refine h.live k (hwait k hk fun hcon => ?_) x hx
      have hx' : w.ns.live.lookup k = some x := hx
      simp [hcon.2] at hx'
    · apply mem_append.mpr
      by_cases hks : k.sec = sec
      · obtain ⟨r, hr, hcom, rfl⟩ := committedProjection_eq_some.mp hx
        have hpath : r.path = k := (row_eq_some_iff.mp hr).2
        have hrsec : r.sec = sec := by rw [← hks, ← hpath]; rfl
        have hrow : w.db.row r.path = some r := by rw [hpath]; exact hr
        have hhealthy := hok sec (by simp [hread]) r
          (mem_committedAudioProjections.mpr ⟨hrow, hcom, hrsec⟩)
        exact Or.inr (mem_healthyRows.mpr ⟨r, hrow, hcom, hrsec, hhealthy, rfl⟩)
      · have hsec' : k.sec ∉ w.pass.toRead := by simpa [hread, hks] using hsec
        exact Or.inl (h.read k (hwait k hk fun hcon => hks hcon.1) hsec' hlive x hx)

/-- Until the publish every well timed step keeps the correspondence. -/
lemma Tracks.step {e : Event} (h : Tracks w) (hst : Transition.Guarded WellTimed Step w e w')
    (hpub : w'.pass.published = false) : Tracks w' := by
  obtain ⟨hok, hst⟩ := hst
  cases e with
  | stage txnID rows => exact h.stage hst
  | commit txnID t => exact h.commit hst
  | rollback txnID => exact h.rollback hst
  | markRemoving sec paths t => exact h.markRemoving hok hst
  | delete sec virtualPath => exact h.delete hok hst
  | addProjections ps => exact h.addProjections hok hst
  | remove k => exact h.remove hok hst
  | readSection => exact h.readSection hok hst
  | publishMerged =>
    simp only [Step, exec] at hst
    split_ifs at hst
    cases hst
    simp at hpub

/-- A pass publishes once: no step takes the mark back. -/
lemma published_of_step {e : Event} (hst : Step w e w') (hpub : w'.pass.published = false) :
    w.pass.published = false := by
  cases e with
  | stage txnID rows =>
    simp only [Step, exec] at hst
    split at hst <;> obtain rfl := Option.some.inj hst <;> exact hpub
  | readSection =>
    simp only [Step, exec] at hst
    split at hst
    · simp at hst
    · cases hst
      exact hpub
  | addProjections ps | remove k =>
    simp only [Step, exec] at hst
    split_ifs at hst
    cases hst
    exact hpub
  | publishMerged =>
    simp only [Step, exec] at hst
    split_ifs at hst with hif
    exact hif.2
  | commit txnID t | rollback txnID | markRemoving sec paths t | delete sec virtualPath =>
    cases hst
    exact hpub

lemma Tracks.lookup_publishMerged (h : Tracks w) (hwait : w.waiting = [])
    (hread : w.pass.toRead = []) (k : AudioPath) :
    (w.ns.publishMerged w.pass.committed).lookup k = committedProjection w.db k := by
  have hk : k ∉ w.waiting := by simp [hwait]
  unfold AudioNamespace.lookup AudioNamespace.publishMerged
  cases hlive : w.ns.live.lookup k with
  | some x =>
    have hmem : k ∈ w.ns.live := Writes.mem_iff.mpr ⟨_, hlive⟩
    rw [AList.lookup_union_left hmem, hlive, h.live k hk x hlive]
  | none =>
    have hmem : k ∉ w.ns.live := AList.lookup_eq_none.mp hlive
    rw [AList.lookup_union_right hmem]
    cases hcom : committedProjection w.db k with
    | none =>
      rw [GoMap.lookup_insertAll_of_forall_ne]
      · rfl
      · rintro x hx rfl
        simp [h.held x hx] at hcom
    | some x =>
      obtain rfl : x.path = k := path_of_committedProjection hcom
      refine GoMap.lookup_insertAll_of_mem
        (h.read x.path hk (by simp [hread]) hlive x hcom) fun y hy hxy => ?_
      have hy' := h.held y hy
      rw [hxy, hcom] at hy'
      exact (Option.some.inj hy').symm

open Transition in
/-- After a well timed pass the namespace is the committed set of the registry. -/
theorem lookup_eq_committed_after_publish (db : Registry) (unhealthy : List AudioPath)
    (events : List Event) (w w' : ReconcileWorld)
    (hrun : Run (Guarded WellTimed Step) (initial db unhealthy) events w)
    (hpub : Guarded WellTimed Step w .publishMerged w') (k : AudioPath) :
    w'.ns.lookup k = committedProjection w'.db k := by
  have hinv : w.pass.published = false → Tracks w := by
    refine Run.invariant (I := fun v => v.pass.published = false → Tracks v)
      (fun v e v' hv hst hnot => ?_) hrun fun _ => tracks_initial db unhealthy
    exact (hv (published_of_step hst.2 hnot)).step hst hnot
  obtain ⟨hwait, hst⟩ := hpub
  simp only [Step, exec] at hst
  split_ifs at hst with hif
  cases hst
  exact (hinv hif.2).lookup_publishMerged hwait hif.1 k

/-! ### An album in the library -/

def trackPath : RelPath := ["Artist", "Album", "01 - Intro_01234567.flac"]

def trackRow : Metadb.AudioProjection where
  sec := .music
  virtualPath := trackPath
  portablePathKey := "artist/album/01 - intro_01234567.flac"
  hash := "0123456789abcdef0123456789abcdef01234567"
  fileIndex := 1
  sourcePath := "Album/01 - Intro.flac"
  size := 1000
  mtimeNS := 1
  title := "Album"
  magnet := "magnet:?xt=urn:btih:0123456789abcdef0123456789abcdef01234567"
  externalID := ""
  externalIDNamespace := ""
  cueTrack := 0
  byteOffset := 0
  header := []
  state := .committed
  txnID := "00112233445566778899aabb"
  stagingName := ".tiramisu-00112233445566778899aabb-0"
  createdAtNS := 1
  updatedAtNS := 1

def trackLibrary : Registry := ⟨[trackRow], pairwise_singleton _ _⟩

/-- Run a list of events; `none` when one of them cannot happen. -/
def execAll (w : ReconcileWorld) : List Event → Option ReconcileWorld
  | [] => some w
  | e :: es => (w.exec e).bind fun w' => w'.execAll es

open Transition in
lemma run_of_execAll {w w' : ReconcileWorld} {es : List Event} (h : w.execAll es = some w') :
    Run Step w es w' := by
  induction es generalizing w with
  | nil =>
    obtain rfl : w = w' := by simpa [execAll] using h
    exact .nil w
  | cons e es ih =>
    obtain ⟨v, hv, hrest⟩ := Option.bind_eq_some_iff.mp h
    exact .cons hv (ih hrest)

def secondPath : RelPath := ["Artist", "Album", "02 - Song_01234567.flac"]

def secondRow : Metadb.AudioProjection :=
  { trackRow with
    virtualPath := secondPath
    portablePathKey := "artist/album/02 - song_01234567.flac"
    fileIndex := 2
    sourcePath := "Album/02 - Song.flac"
    txnID := "ffeeddccbbaa998877665544"
    stagingName := ".tiramisu-ffeeddccbbaa998877665544-0" }

def liveAdd : List Event :=
  [.readSection, .stage secondRow.txnID [secondRow], .commit secondRow.txnID 1, .readSection,
    .addProjections [.ofRow secondRow]]

lemma liveAdd_wellTimed :
    ∃ w w', Transition.Run (Transition.Guarded WellTimed Step) (initial trackLibrary []) liveAdd w ∧
      Transition.Guarded WellTimed Step w .publishMerged w' ∧
      committedProjection w'.db secondRow.path = some (.ofRow secondRow) := by
  have hread : ∀ w : ReconcileWorld, w.pass.unhealthy = [] → WellTimed w .readSection := by
    intro w hw sec _ r _
    simp [hw]
  refine ⟨_, _, .cons ⟨hread _ rfl, rfl⟩ (.cons ⟨trivial, rfl⟩ (.cons ⟨trivial, rfl⟩
    (.cons ⟨hread _ rfl, rfl⟩ (.cons ⟨?_, rfl⟩ (.nil _))))), ⟨rfl, rfl⟩, ?_⟩
  · intro x hx
    obtain rfl := mem_singleton.mp hx
    decide
  · decide

/-- A track added while the pass runs is kept by its publish. -/
theorem lookup_after_live_add :
    ∃ w w', Transition.Run (Transition.Guarded WellTimed Step) (initial trackLibrary []) liveAdd w ∧
      Transition.Guarded WellTimed Step w .publishMerged w' ∧
      w'.ns.lookup secondRow.path = some (.ofRow secondRow) := by
  obtain ⟨w, w', hrun, hpub, hcom⟩ := liveAdd_wellTimed
  refine ⟨w, w', hrun, hpub, ?_⟩
  rw [lookup_eq_committed_after_publish trackLibrary [] liveAdd w w' hrun hpub, hcom]

/-- A projection removed between the pass's read and its publish is served again. -/
theorem removed_projection_reappears :
    ∃ w, Transition.Run Step (initial trackLibrary [])
        [.readSection, .readSection, .markRemoving .music [trackPath] 2,
          .remove trackRow.path, .delete .music trackPath, .publishMerged] w ∧
      w.ns.lookup trackRow.path = some (.ofRow trackRow) ∧
      committedProjection w.db trackRow.path = none :=
  ⟨_, run_of_execAll rfl, by decide, by decide⟩

end ReconcileWorld

end Tiramisu.Library
