import Mathlib.Data.Int.Notation
import Mathlib.Logic.Function.Basic
import Tiramisu.Lib.Places
import Tiramisu.Lib.Runs

/-!
# Coalesced library refreshes

`scheduleRefresh` starts at most one goroutine for each section of the media
server.  It sleeps, forgets the requests its scan will cover, scans, and takes
the mark away; a request that finds the mark leaves the section dirty, and the
goroutine schedules once more if it finds the section dirty in the end.  The
state carries a history: the requests made and the scans started.
-/

namespace Tiramisu.Library

open Transition List Function

/-- Where a goroutine of `scheduleRefresh` stands: before the dirty mark is taken
away (from the moment the pending mark is set), before and after the scan has
started, with another refresh to schedule, or past its end. -/
inductive RefreshPlace
  | sleeping
  | covering
  | scanning
  | rescheduling
  | ended
  deriving DecidableEq, Repr

inductive RefreshEvent
  | requested (sec : ℤ)
  | scanned (sec : ℤ)
  deriving DecidableEq, Repr

/-- The two maps of the manager, where a missing section reads as `false`, the
goroutines with their sections, and the history. -/
structure Refresher where
  mediaServer : Bool
  refreshPending : ℤ → Bool
  refreshDirty : ℤ → Bool
  workers : List (ℤ × RefreshPlace)
  log : List RefreshEvent

inductive RefreshLabel
  | request (sec : ℤ)
  | wake (i : ℕ)
  | scan (i : ℕ)
  | finish (i : ℕ)
  | reschedule (i : ℕ)
  deriving DecidableEq, Repr

/-- A step of one of the goroutines. -/
def RefreshLabel.OfWorker : RefreshLabel → Prop
  | .request _ => False
  | _ => True

namespace Refresher

def start (mediaServer : Bool) : Refresher :=
  ⟨mediaServer, fun _ => false, fun _ => false, [], []⟩

def scheduleRefresh (r : Refresher) (sec : ℤ) : Refresher :=
  if !r.mediaServer then r
  else if r.refreshPending sec then
    { r with refreshDirty := update r.refreshDirty sec true }
  else
    { r with
      refreshPending := update r.refreshPending sec true
      workers := r.workers ++ [(sec, .sleeping)] }

def step (r : Refresher) : RefreshLabel → Option Refresher
  | .request sec => some { r.scheduleRefresh sec with log := r.log ++ [.requested sec] }
  | .wake i =>
    match r.workers[i]? with
    | some (sec, .sleeping) =>
      some { r with
        refreshDirty := update r.refreshDirty sec false
        workers := r.workers.set i (sec, .covering) }
    | _ => none
  | .scan i =>
    match r.workers[i]? with
    | some (sec, .covering) =>
      some { r with
        workers := r.workers.set i (sec, .scanning)
        log := r.log ++ [.scanned sec] }
    | _ => none
  | .finish i =>
    match r.workers[i]? with
    | some (sec, .scanning) =>
      some { r with
        refreshPending := update r.refreshPending sec false
        refreshDirty := update r.refreshDirty sec false
        workers := r.workers.set i (sec, if r.refreshDirty sec then .rescheduling else .ended) }
    | _ => none
  | .reschedule i =>
    match r.workers[i]? with
    | some (sec, .rescheduling) =>
      some ({ r with workers := r.workers.set i (sec, .ended) }.scheduleRefresh sec)
    | _ => none

def Step (r : Refresher) (l : RefreshLabel) (r' : Refresher) : Prop := r.step l = some r'

end Refresher

/-! ### What is pending and what is owed -/

/-- The places at which the goroutine has the pending mark. -/
def RefreshPlace.Pending : RefreshPlace → Prop
  | .sleeping | .covering | .scanning => True
  | .rescheduling | .ended => False

instance : DecidablePred RefreshPlace.Pending := fun place => by
  cases place <;> unfold RefreshPlace.Pending <;> infer_instance

/-- A request of the section that no scan has followed. -/
def Unserved (sec : ℤ) (log : List RefreshEvent) : Prop :=
  ∃ before after, log = before ++ .requested sec :: after ∧ .scanned sec ∉ after

lemma unserved_append_requested {sec s : ℤ} {log : List RefreshEvent}
    (h : Unserved sec (log ++ [.requested s])) : s = sec ∨ Unserved sec log := by
  obtain ⟨before, after, heq, hnone⟩ := h
  rcases eq_nil_or_concat' after with rfl | ⟨init, last, rfl⟩
  · have hlast := (append_inj' heq rfl).2
    exact .inl (RefreshEvent.requested.inj (singleton_inj.mp hlast))
  · rw [← cons_append, ← append_assoc] at heq
    obtain ⟨hlog, -⟩ := append_inj' heq rfl
    exact .inr ⟨before, init, hlog, fun hmem => hnone (mem_append_left _ hmem)⟩

lemma unserved_append_scanned {sec s : ℤ} {log : List RefreshEvent}
    (h : Unserved sec (log ++ [.scanned s])) : s ≠ sec ∧ Unserved sec log := by
  obtain ⟨before, after, heq, hnone⟩ := h
  rcases eq_nil_or_concat' after with rfl | ⟨init, last, rfl⟩
  · have hlast := (append_inj' heq rfl).2
    cases singleton_inj.mp hlast
  rw [← cons_append, ← append_assoc] at heq
  obtain ⟨hlog, hlast⟩ := append_inj' heq rfl
  obtain rfl := singleton_inj.mp hlast
  refine ⟨?_, before, init, hlog, fun hmem => hnone (mem_append_left _ hmem)⟩
  rintro rfl
  exact hnone (by simp)

/-- The pending mark of a section belongs to one goroutine. -/
structure Marks (pending : ℤ → Bool) (workers : List (ℤ × RefreshPlace)) : Prop where
  marked : ∀ sec, pending sec = true ↔
    ∃ (i : ℕ) (place : RefreshPlace), workers[i]? = some (sec, place) ∧ place.Pending
  single : ∀ (i j : ℕ) (sec : ℤ) (place place' : RefreshPlace), workers[i]? = some (sec, place) →
    workers[j]? = some (sec, place') → place.Pending → place'.Pending → i = j

section Marks

variable {pending : ℤ → Bool} {workers : List (ℤ × RefreshPlace)} {sec : ℤ} {i : ℕ}
  {place place' : RefreshPlace}

/-- A goroutine moves and keeps the mark, or moves without one. -/
lemma Marks.move (h : Marks pending workers) (hi : workers[i]? = some (sec, place))
    (hplace : place'.Pending ↔ place.Pending) : Marks pending (workers.set i (sec, place')) where
  marked s := by
    rw [h.marked s]
    constructor
    · rintro ⟨j, q, hj, hq⟩
      by_cases hji : j = i
      · subst hji
        cases hi.symm.trans hj
        exact ⟨j, place', Places.set_self hi, hplace.mpr hq⟩
      · exact ⟨j, q, Places.set_other hj hji, hq⟩
    · rintro ⟨j, q, hj, hq⟩
      rcases Places.of_set hj with ⟨rfl, heq⟩ | ⟨-, hj⟩
      · cases heq
        exact ⟨j, place, hi, hplace.mp hq⟩
      · exact ⟨j, q, hj, hq⟩
  single j k s p q hj hk hp hq := by
    have hback : ∀ (j : ℕ) (p : RefreshPlace), (workers.set i (sec, place'))[j]? = some (s, p) →
        p.Pending → ∃ p', workers[j]? = some (s, p') ∧ p'.Pending := by
      intro j p hj hp
      rcases Places.of_set hj with ⟨rfl, heq⟩ | ⟨-, hj⟩
      · cases heq
        exact ⟨place, hi, hplace.mp hp⟩
      · exact ⟨p, hj, hp⟩
    obtain ⟨p', hj', hp'⟩ := hback j p hj hp
    obtain ⟨q', hk', hq'⟩ := hback k q hk hq
    exact h.single j k s p' q' hj' hk' hp' hq'

/-- The goroutine with the mark gives it up. -/
lemma Marks.release (h : Marks pending workers) (hi : workers[i]? = some (sec, place))
    (hplace : place.Pending) (hplace' : ¬ place'.Pending) :
    Marks (update pending sec false) (workers.set i (sec, place')) where
  marked s := by
    constructor
    · intro hs
      have hne : s ≠ sec := by
        rintro rfl
        rw [update_self] at hs
        cases hs
      rw [update_of_ne hne] at hs
      obtain ⟨j, q, hj, hq⟩ := (h.marked s).mp hs
      have hji : j ≠ i := by
        rintro rfl
        exact hne (Prod.mk.inj (Option.some.inj (hj.symm.trans hi))).1
      exact ⟨j, q, Places.set_other hj hji, hq⟩
    · rintro ⟨j, q, hj, hq⟩
      rcases Places.of_set hj with ⟨rfl, heq⟩ | ⟨hji, hold⟩
      · cases heq
        exact absurd hq hplace'
      -- the mark was the goroutine's own, so the section is another one
      have hne : s ≠ sec := by
        rintro rfl
        exact hji (h.single j i s q place hold hi hq hplace)
      rw [update_of_ne hne]
      exact (h.marked s).mpr ⟨j, q, hold, hq⟩
  single j k s p q hj hk hp hq := by
    rcases Places.of_set hj with ⟨-, heq⟩ | ⟨-, hj⟩
    · cases heq
      exact absurd hp hplace'
    · rcases Places.of_set hk with ⟨-, heq⟩ | ⟨-, hk⟩
      · cases heq
        exact absurd hq hplace'
      · exact h.single j k s p q hj hk hp hq

/-- A new goroutine takes a mark that nobody had. -/
lemma Marks.join (h : Marks pending workers) (hfree : pending sec = false)
    (hplace : place.Pending) :
    Marks (update pending sec true) (workers ++ [(sec, place)]) where
  marked s := by
    by_cases hs : s = sec
    · subst hs
      rw [update_self]
      exact iff_of_true rfl ⟨workers.length, place, getElem?_concat_length, hplace⟩
    rw [update_of_ne hs, h.marked s]
    constructor
    · rintro ⟨j, q, hj, hq⟩
      exact ⟨j, q, Places.join hj, hq⟩
    · rintro ⟨j, q, hj, hq⟩
      rcases Places.of_join hj with ⟨-, heq⟩ | hj
      · exact absurd (Prod.mk.inj heq).1 hs
      · exact ⟨j, q, hj, hq⟩
  single j k s p q hj hk hp hq := by
    have hnone : ∀ (j : ℕ) (p : RefreshPlace), workers[j]? = some (sec, p) → ¬ p.Pending := by
      intro j p hj hp
      rw [(h.marked sec).mpr ⟨j, p, hj, hp⟩] at hfree
      cases hfree
    rcases Places.of_join hj with ⟨rfl, hnew⟩ | hold
    · rcases Places.of_join hk with ⟨rfl, -⟩ | hold'
      · rfl
      · cases hnew
        exact absurd hq (hnone k q hold')
    · rcases Places.of_join hk with ⟨rfl, hnew⟩ | hold'
      · cases hnew
        exact absurd hp (hnone j p hold)
      · exact h.single j k s p q hold hold' hp hq

end Marks

namespace Refresher

variable {r r' : Refresher} {sec s : ℤ} {i j : ℕ}

/-- The goroutine will start a scan of the section, by itself or through another
call of `scheduleRefresh`. -/
def Owes (r : Refresher) (i : ℕ) (sec : ℤ) : Prop :=
  r.workers[i]? = some (sec, .sleeping) ∨ r.workers[i]? = some (sec, .covering) ∨
    r.workers[i]? = some (sec, .rescheduling) ∨
    r.workers[i]? = some (sec, .scanning) ∧ r.refreshDirty sec = true

structure Tended (r : Refresher) : Prop where
  marks : Marks r.refreshPending r.workers
  owed : ∀ sec, Unserved sec r.log → ∃ i, r.Owes i sec

lemma marks_scheduleRefresh (h : Marks r.refreshPending r.workers) (sec : ℤ) :
    Marks (r.scheduleRefresh sec).refreshPending (r.scheduleRefresh sec).workers := by
  unfold scheduleRefresh
  split_ifs with hserver hpending
  · exact h
  · exact h
  · exact h.join (by simpa using hpending) trivial

/-- A debt stays: no goroutine moves, and no dirty mark is taken away. -/
lemma Owes.scheduleRefresh (h : r.Owes i s) (sec : ℤ) : (r.scheduleRefresh sec).Owes i s := by
  unfold Refresher.scheduleRefresh
  split_ifs with hserver hpending
  · exact h
  · rcases h with h | h | h | ⟨h, hdirty⟩
    · exact .inl h
    · exact .inr (.inl h)
    · exact .inr (.inr (.inl h))
    refine .inr (.inr (.inr ⟨h, ?_⟩))
    by_cases hs : s = sec
    · rw [hs]
      exact update_self _ _ _
    · exact (update_of_ne hs _ _).trans hdirty
  · rcases h with h | h | h | ⟨h, hdirty⟩
    · exact .inl (Places.join h)
    · exact .inr (.inl (Places.join h))
    · exact .inr (.inr (.inl (Places.join h)))
    · exact .inr (.inr (.inr ⟨Places.join h, hdirty⟩))

/-- Whoever calls `scheduleRefresh` is owed a scan: by the goroutine that has the
mark, which finds the section dirty if its scan has started, or by a new one. -/
lemma owes_of_scheduleRefresh (h : Marks r.refreshPending r.workers) (hserver : r.mediaServer = true)
    (sec : ℤ) : ∃ i, (r.scheduleRefresh sec).Owes i sec := by
  unfold Refresher.scheduleRefresh
  rw [hserver]
  simp only [Bool.not_true, Bool.false_eq_true, if_false]
  split_ifs with hpending
  · obtain ⟨i, place, hi, hplace⟩ := (h.marked sec).mp hpending
    refine ⟨i, ?_⟩
    cases place with
    | sleeping => exact .inl hi
    | covering => exact .inr (.inl hi)
    | scanning => exact .inr (.inr (.inr ⟨hi, update_self _ _ _⟩))
    | rescheduling => exact hplace.elim
    | ended => exact hplace.elim
  · exact ⟨r.workers.length, .inl getElem?_concat_length⟩

/-- A debt of another section does not notice a move. -/
lemma Owes.move {place : RefreshPlace} {x : ℤ × RefreshPlace} (h : r.Owes j s)
    (hi : r.workers[i]? = some (sec, place)) (hs : s ≠ sec)
    (hworkers : r'.workers = r.workers.set i x) (hdirty : r'.refreshDirty s = r.refreshDirty s) :
    r'.Owes j s := by
  have hstay : ∀ q, r.workers[j]? = some (s, q) → r'.workers[j]? = some (s, q) := by
    intro q hj
    have hji : j ≠ i := by
      rintro rfl
      exact hs (Prod.mk.inj (Option.some.inj (hj.symm.trans hi))).1
    rw [hworkers]
    exact Places.set_other hj hji
  rcases h with h | h | h | ⟨h, hd⟩
  · exact .inl (hstay _ h)
  · exact .inr (.inl (hstay _ h))
  · exact .inr (.inr (.inl (hstay _ h)))
  · exact .inr (.inr (.inr ⟨hstay _ h, hdirty.trans hd⟩))

@[simp] lemma log_scheduleRefresh (r : Refresher) (sec : ℤ) :
    (r.scheduleRefresh sec).log = r.log := by
  unfold Refresher.scheduleRefresh
  split_ifs <;> rfl

@[simp] lemma mediaServer_scheduleRefresh (r : Refresher) (sec : ℤ) :
    (r.scheduleRefresh sec).mediaServer = r.mediaServer := by
  unfold Refresher.scheduleRefresh
  split_ifs <;> rfl

/-! ### One step -/

lemma tended_request (h : r.Tended) (hserver : r.mediaServer = true) (sec : ℤ) :
    ({ r.scheduleRefresh sec with log := r.log ++ [.requested sec] } : Refresher).Tended where
  marks := marks_scheduleRefresh h.marks sec
  owed s hs := by
    rcases unserved_append_requested hs with rfl | hs
    · exact owes_of_scheduleRefresh h.marks hserver sec
    · obtain ⟨i, hi⟩ := h.owed s hs
      exact ⟨i, hi.scheduleRefresh sec⟩

lemma tended_wake (h : r.Tended) (hi : r.workers[i]? = some (sec, .sleeping)) :
    ({ r with
      refreshDirty := update r.refreshDirty sec false
      workers := r.workers.set i (sec, .covering) } : Refresher).Tended where
  marks := h.marks.move hi Iff.rfl
  owed s hs := by
    by_cases heq : s = sec
    · subst heq
      exact ⟨i, .inr (.inl (Places.set_self hi))⟩
    · obtain ⟨j, hj⟩ := h.owed s hs
      exact ⟨j, hj.move hi heq rfl (update_of_ne heq _ _)⟩

lemma tended_scan (h : r.Tended) (hi : r.workers[i]? = some (sec, .covering)) :
    ({ r with
      workers := r.workers.set i (sec, .scanning)
      log := r.log ++ [.scanned sec] } : Refresher).Tended where
  marks := h.marks.move hi Iff.rfl
  owed s hs := by
    obtain ⟨hne, hs⟩ := unserved_append_scanned hs
    obtain ⟨j, hj⟩ := h.owed s hs
    exact ⟨j, hj.move hi (Ne.symm hne) rfl rfl⟩

lemma tended_finish (h : r.Tended) (hi : r.workers[i]? = some (sec, .scanning)) :
    ({ r with
      refreshPending := update r.refreshPending sec false
      refreshDirty := update r.refreshDirty sec false
      workers := r.workers.set i
        (sec, if r.refreshDirty sec then .rescheduling else .ended) } : Refresher).Tended where
  marks := h.marks.release hi trivial (by split_ifs <;> exact id)
  owed s hs := by
    obtain ⟨j, hj⟩ := h.owed s hs
    by_cases heq : s = sec
    · subst heq
      have hsole : ∀ place : RefreshPlace, place.Pending → r.workers[j]? = some (s, place) → j = i :=
        fun place hplace hj => h.marks.single j i s place .scanning hj hi hplace trivial
      rcases hj with hj | hj | hj | ⟨hj, hdirty⟩
      · obtain rfl := hsole .sleeping trivial hj
        cases hi.symm.trans hj
      · obtain rfl := hsole .covering trivial hj
        cases hi.symm.trans hj
      · have hji : j ≠ i := by
          rintro rfl
          cases hi.symm.trans hj
        exact ⟨j, .inr (.inr (.inl (Places.set_other hj hji)))⟩
      · refine ⟨i, .inr (.inr (.inl ?_))⟩
        rw [if_pos hdirty]
        exact Places.set_self hi
    · exact ⟨j, hj.move hi heq rfl (update_of_ne heq _ _)⟩

lemma tended_reschedule (h : r.Tended) (hserver : r.mediaServer = true)
    (hi : r.workers[i]? = some (sec, .rescheduling)) :
    (({ r with workers := r.workers.set i (sec, .ended) } : Refresher).scheduleRefresh sec).Tended := by
  have hmarks : Marks r.refreshPending (r.workers.set i (sec, .ended)) := h.marks.move hi Iff.rfl
  constructor
  · exact marks_scheduleRefresh hmarks sec
  intro s hs
  rw [log_scheduleRefresh] at hs
  by_cases heq : s = sec
  · subst heq
    exact owes_of_scheduleRefresh (r := { r with workers := r.workers.set i (s, .ended) }) hmarks
      hserver s
  · obtain ⟨j, hj⟩ := h.owed s hs
    have hmoved : ({ r with workers := r.workers.set i (sec, .ended) } : Refresher).Owes j s :=
      hj.move hi heq rfl rfl
    exact ⟨j, hmoved.scheduleRefresh sec⟩

lemma tended_step {l : RefreshLabel} (h : r.Tended ∧ r.mediaServer = true) (hstep : r.Step l r') :
    r'.Tended ∧ r'.mediaServer = true := by
  obtain ⟨h, hserver⟩ := h
  unfold Step step at hstep
  cases l with
  | request sec =>
    cases hstep
    exact ⟨tended_request h hserver sec, (mediaServer_scheduleRefresh r sec).trans hserver⟩
  | wake i =>
    dsimp only at hstep
    split at hstep <;> cases hstep
    rename_i sec hi
    exact ⟨tended_wake h hi, hserver⟩
  | scan i =>
    dsimp only at hstep
    split at hstep <;> cases hstep
    rename_i sec hi
    exact ⟨tended_scan h hi, hserver⟩
  | finish i =>
    dsimp only at hstep
    split at hstep <;> cases hstep
    rename_i sec hi
    exact ⟨tended_finish h hi, hserver⟩
  | reschedule i =>
    dsimp only at hstep
    split at hstep <;> cases hstep
    rename_i sec hi
    exact ⟨tended_reschedule h hserver hi, (mediaServer_scheduleRefresh _ sec).trans hserver⟩

/-! ### A debt is paid -/

/-- The goroutines by themselves start a scan of the section. -/
def Pays (r : Refresher) (sec : ℤ) : Prop :=
  ∃ ls r', (∀ l ∈ ls, l.OfWorker) ∧ Run Step r ls r' ∧ r'.log = r.log ++ [.scanned sec]

lemma Pays.of_step {l : RefreshLabel} (hstep : r.Step l r') (hl : l.OfWorker)
    (hlog : r'.log = r.log) (h : r'.Pays sec) : r.Pays sec := by
  obtain ⟨ls, u, hls, hrun, hu⟩ := h
  refine ⟨l :: ls, u, ?_, .cons hstep hrun, by rw [hu, hlog]⟩
  intro l' hl'
  rcases mem_cons.mp hl' with rfl | hl'
  · exact hl
  · exact hls l' hl'

lemma pays_covering (hi : r.workers[i]? = some (sec, .covering)) : r.Pays sec := by
  have hstep : r.Step (.scan i) { r with
      workers := r.workers.set i (sec, .scanning)
      log := r.log ++ [.scanned sec] } := by
    simp only [Step, step, hi]
  refine ⟨[.scan i], _, ?_, .cons hstep (.nil _), rfl⟩
  intro l hl
  rw [mem_singleton.mp hl]
  trivial

lemma pays_sleeping (hi : r.workers[i]? = some (sec, .sleeping)) : r.Pays sec := by
  have hstep : r.Step (.wake i) { r with
      refreshDirty := update r.refreshDirty sec false
      workers := r.workers.set i (sec, .covering) } := by
    simp only [Step, step, hi]
  exact Pays.of_step hstep trivial rfl (pays_covering (Places.set_self hi))

/-- Nobody has the mark: the goroutine that schedules again starts a new one. -/
lemma pays_rescheduling (hserver : r.mediaServer = true) (hfree : r.refreshPending sec = false)
    (hi : r.workers[i]? = some (sec, .rescheduling)) : r.Pays sec := by
  have hstep : r.Step (.reschedule i) { r with
      refreshPending := update r.refreshPending sec true
      workers := r.workers.set i (sec, .ended) ++ [(sec, .sleeping)] } := by
    simp only [Step, step, hi, Refresher.scheduleRefresh, hserver, hfree, Bool.not_true,
      Bool.false_eq_true, if_false]
  exact Pays.of_step hstep trivial rfl (pays_sleeping getElem?_concat_length)

lemma pays_scanning (hserver : r.mediaServer = true)
    (hi : r.workers[i]? = some (sec, .scanning)) (hdirty : r.refreshDirty sec = true) :
    r.Pays sec := by
  have hstep : r.Step (.finish i) { r with
      refreshPending := update r.refreshPending sec false
      refreshDirty := update r.refreshDirty sec false
      workers := r.workers.set i (sec, .rescheduling) } := by
    simp only [Step, step, hi, hdirty, if_true]
  refine Pays.of_step hstep trivial rfl (pays_rescheduling hserver ?_ (Places.set_self hi))
  exact update_self _ _ _

lemma Owes.pays (h : r.Owes i sec) (hr : r.Tended) (hserver : r.mediaServer = true) :
    r.Pays sec := by
  rcases h with hi | hi | hi | ⟨hi, hdirty⟩
  · exact pays_sleeping hi
  · exact pays_covering hi
  · by_cases hpending : r.refreshPending sec = true
    · obtain ⟨k, place, hk, hplace⟩ := (hr.marks.marked sec).mp hpending
      cases place with
      | sleeping => exact pays_sleeping hk
      | covering => exact pays_covering hk
      | scanning =>
        -- the scan that runs is not enough, but the section is dirty after it
        have hstep : r.Step (.reschedule i) { r with
            refreshDirty := update r.refreshDirty sec true
            workers := r.workers.set i (sec, .ended) } := by
          simp only [Step, step, hi, Refresher.scheduleRefresh, hserver, hpending,
            Bool.not_true, Bool.false_eq_true, if_false, if_true]
        have hki : k ≠ i := by
          rintro rfl
          cases hi.symm.trans hk
        refine Pays.of_step hstep trivial rfl (pays_scanning hserver (Places.set_other hk hki) ?_)
        exact update_self _ _ _
      | rescheduling => exact hplace.elim
      | ended => exact hplace.elim
    · exact pays_rescheduling hserver (by simpa using hpending) hi
  · exact pays_scanning hserver hi hdirty

end Refresher

/-- Every request is followed by a scan that started after it, or by a goroutine
that will start one; a section has one pending refresh at most. -/
theorem every_request_is_scanned_after {r : Refresher} {ls : List RefreshLabel}
    (hrun : Run Refresher.Step (.start true) ls r) :
    (∀ before sec after, r.log = before ++ .requested sec :: after →
      .scanned sec ∈ after ∨ (∃ i, r.Owes i sec) ∧ r.Pays sec) ∧
    ∀ (i j : ℕ) (sec : ℤ) (place place' : RefreshPlace), r.workers[i]? = some (sec, place) →
      r.workers[j]? = some (sec, place') → place.Pending → place'.Pending → i = j := by
  have hstart : (Refresher.start true).Tended ∧ (Refresher.start true).mediaServer = true := by
    refine ⟨⟨⟨?_, ?_⟩, ?_⟩, rfl⟩
    · simp [Refresher.start]
    · intro i j sec place place' hi
      simp [Refresher.start] at hi
    · rintro sec ⟨before, after, hlog, -⟩
      simp [Refresher.start] at hlog
  obtain ⟨hr, hserver⟩ := hrun.invariant (fun _ _ _ h hst => Refresher.tended_step h hst) hstart
  constructor
  · intro before sec after hlog
    by_cases hscan : RefreshEvent.scanned sec ∈ after
    · exact .inl hscan
    · obtain ⟨i, hi⟩ := hr.owed sec ⟨before, after, hlog, hscan⟩
      exact .inr ⟨⟨i, hi⟩, hi.pays hr hserver⟩
  · exact hr.marks.single

/-- A request before the scan, and one while it runs. -/
def lateRequest : List RefreshLabel := [.request 7, .wake 0, .scan 0, .request 7]

theorem late_request_is_owed_a_scan :
    ∃ r, Run Refresher.Step (.start true) lateRequest r ∧
      r.log = [.requested 7, .scanned 7, .requested 7] ∧
      (RefreshEvent.scanned 7 ∈ ([] : List RefreshEvent) ∨ (∃ i, r.Owes i 7) ∧ r.Pays 7) := by
  obtain ⟨r, hr, hlog⟩ : ∃ r ∈ lateRequest.foldlM Refresher.step (.start true),
      r.log = [.requested 7, .scanned 7, .requested 7] := by decide
  have hrun : Run Refresher.Step (.start true) lateRequest r := run_of_foldlM hr
  exact ⟨r, hrun, hlog, (every_request_is_scanned_after hrun).1 [.requested 7, .scanned 7] 7 [] hlog⟩

end Tiramisu.Library
