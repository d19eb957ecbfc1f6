import Mathlib
import Tiramisu.Lib.Places
import Tiramisu.Lib.Runs

/-!
# The corruption shield and its watchdogs

`MarkNotComplete` raises the shield on the second corruption and makes sure that
a watchdog runs; a watchdog that finds a clean streak takes the shield down and
ends; `ResetShield` takes it down at once.  Every operation on one of the five
atomic variables is a step of its own, and any number of calls, watchdogs and
resets interleave.
-/

namespace Tiramisu.Torrstor

open Transition List Places

def strictEscalationCapSeconds : ℤ := 1800

/-- The clean streak a watchdog asks for, in seconds. -/
def cleanNeeded (cycle : ℤ) : ℤ :=
  let needed := if 30 * cycle < 30 then 30 else 30 * cycle
  if strictEscalationCapSeconds < needed then strictEscalationCapSeconds else needed

def nanosecond : ℤ := 10 ^ 9

/-- A call of `MarkNotComplete` on a piece with data, by the operation that comes
next: the look at the settings and the shield, the corruption counter, the cycle
counter, the shield, the look at the corruption counter, and the swap. -/
inductive MarkPlace
  | checking
  | counting
  | escalating
  | activating
  | looking
  | swapping
  | ended
  deriving DecidableEq, Repr

/-- A watchdog: asleep, with the time since the corruption it has read, and then
before each of the four operations of its end. -/
inductive DogPlace
  | sleeping
  | loaded (elapsed : ℤ)
  | clearing
  | zeroing
  | forgetting
  | leaving
  | gone
  deriving DecidableEq, Repr

inductive ResetPlace
  | stopping
  | zeroing
  | ended
  deriving DecidableEq, Repr

structure Shield where
  lastCorruptionUnix : ℤ
  shieldActive : Bool
  isWatchdogRunning : Bool
  staticCorruptionCount : ℤ
  strictCycleCount : ℤ
  calls : List MarkPlace
  dogs : List DogPlace
  resets : List ResetPlace
  deriving DecidableEq, Repr

/-- Times are in nanoseconds. -/
inductive ShieldLabel
  | mark (now : ℤ)
  | check (c : ℕ) (enabled : Bool)
  | count (c : ℕ)
  | escalate (c : ℕ)
  | activate (c : ℕ)
  | look (c : ℕ)
  | swap (c : ℕ)
  | load (d : ℕ) (now : ℤ)
  | decide (d : ℕ)
  | clear (d : ℕ)
  | zero (d : ℕ)
  | forget (d : ℕ)
  | leave (d : ℕ)
  | reset
  | resetRunning (r : ℕ)
  | resetCount (r : ℕ)
  deriving DecidableEq, Repr

/-- The call has decided to count, and may raise the shield. -/
def MarkPlace.raising : MarkPlace → Bool
  | .counting | .escalating | .activating => true
  | _ => false

/-- The call has counted and will come to the swap. -/
def MarkPlace.onTheWay : MarkPlace → Bool
  | .escalating | .activating | .looking | .swapping => true
  | _ => false

/-- The call goes by a count above one. -/
def MarkPlace.escalated : MarkPlace → Bool
  | .escalating | .activating => true
  | _ => false

def DogPlace.looping : DogPlace → Bool
  | .sleeping | .loaded _ => true
  | _ => false

/-- The watchdog has decided to end. -/
def DogPlace.ending : DogPlace → Bool
  | .clearing | .zeroing | .forgetting | .leaving => true
  | _ => false

/-- The watchdog has taken the shield down. -/
def DogPlace.cleared : DogPlace → Bool
  | .zeroing | .forgetting | .leaving => true
  | _ => false

/-- The watchdog has set the corruption counter to zero. -/
def DogPlace.zeroed : DogPlace → Bool
  | .forgetting | .leaving => true
  | _ => false

namespace Shield

def start : Shield := ⟨0, false, false, 0, 0, [], [], []⟩

def step (s : Shield) : ShieldLabel → Option Shield
  | .mark now => some { s with
      lastCorruptionUnix := now / nanosecond
      calls := s.calls ++ [.checking] }
  | .check c enabled =>
    match s.calls[c]? with
    | some .checking => some { s with
        calls := s.calls.set c (if enabled && !s.shieldActive then .counting else .looking) }
    | _ => none
  | .count c =>
    match s.calls[c]? with
    | some .counting => some { s with
        staticCorruptionCount := s.staticCorruptionCount + 1
        calls := s.calls.set c
          (if 1 < s.staticCorruptionCount + 1 then .escalating else .looking) }
    | _ => none
  | .escalate c =>
    match s.calls[c]? with
    | some .escalating => some { s with
        strictCycleCount := s.strictCycleCount + 1
        calls := s.calls.set c .activating }
    | _ => none
  | .activate c =>
    match s.calls[c]? with
    | some .activating => some { s with
        shieldActive := true
        calls := s.calls.set c .looking }
    | _ => none
  | .look c =>
    match s.calls[c]? with
    | some .looking => some { s with
        calls := s.calls.set c (if 1 ≤ s.staticCorruptionCount then .swapping else .ended) }
    | _ => none
  | .swap c =>
    match s.calls[c]? with
    | some .swapping => some { s with
        isWatchdogRunning := true
        calls := s.calls.set c .ended
        dogs := if s.isWatchdogRunning then s.dogs else s.dogs ++ [.sleeping] }
    | _ => none
  | .load d now =>
    match s.dogs[d]? with
    | some .sleeping => some { s with
        dogs := s.dogs.set d (.loaded (now - s.lastCorruptionUnix * nanosecond)) }
    | _ => none
  | .decide d =>
    match s.dogs[d]? with
    | some (.loaded elapsed) => some { s with
        dogs := s.dogs.set d
          (if cleanNeeded s.strictCycleCount * nanosecond < elapsed then .clearing
            else .sleeping) }
    | _ => none
  | .clear d =>
    match s.dogs[d]? with
    | some .clearing => some { s with
        shieldActive := false
        dogs := s.dogs.set d .zeroing }
    | _ => none
  | .zero d =>
    match s.dogs[d]? with
    | some .zeroing => some { s with
        staticCorruptionCount := 0
        dogs := s.dogs.set d .forgetting }
    | _ => none
  | .forget d =>
    match s.dogs[d]? with
    | some .forgetting => some { s with
        strictCycleCount := 0
        dogs := s.dogs.set d .leaving }
    | _ => none
  | .leave d =>
    match s.dogs[d]? with
    | some .leaving => some { s with
        isWatchdogRunning := false
        dogs := s.dogs.set d .gone }
    | _ => none
  | .reset => some { s with
      shieldActive := false
      resets := s.resets ++ [.stopping] }
  | .resetRunning r =>
    match s.resets[r]? with
    | some .stopping => some { s with
        isWatchdogRunning := false
        resets := s.resets.set r .zeroing }
    | _ => none
  | .resetCount r =>
    match s.resets[r]? with
    | some .zeroing => some { s with
        staticCorruptionCount := 0
        resets := s.resets.set r .ended }
    | _ => none

def Step (s : Shield) (l : ShieldLabel) (s' : Shield) : Prop := s.step l = some s'

end Shield

/-- A watchdog or a reset is taking things down. -/
def Falling (dogs : List DogPlace) (resets : List ResetPlace) : Prop :=
  (∃ d ∈ dogs, d.ending = true) ∨ ∃ r ∈ resets, r ≠ .ended

instance (dogs : List DogPlace) (resets : List ResetPlace) : Decidable (Falling dogs resets) :=
  inferInstanceAs (Decidable (_ ∨ _))

/-- No call may raise the shield. -/
def Calm (calls : List MarkPlace) : Prop := ∀ c ∈ calls, c.raising = false

instance (calls : List MarkPlace) : Decidable (Calm calls) :=
  inferInstanceAs (Decidable (∀ c ∈ calls, c.raising = false))

/-- The watchdog has waited long enough. -/
def Shield.satisfied (s : Shield) (d : ℕ) : Bool :=
  match s.dogs[d]? with
  | some (.loaded elapsed) => cleanNeeded s.strictCycleCount * nanosecond < elapsed
  | _ => false

/-- No corruption is counted while a watchdog ends or the shield is reset, and
neither begins while a call may still raise the shield. -/
def Shield.InTurn (s : Shield) : ShieldLabel → Prop
  | .check _ enabled =>
    enabled = true → s.shieldActive = false → ¬ Falling s.dogs s.resets
  | .decide d => s.satisfied d = true → Calm s.calls
  | .reset => Calm s.calls
  | _ => True

instance (s : Shield) (l : ShieldLabel) : Decidable (s.InTurn l) := by
  cases l <;> unfold Shield.InTurn <;> infer_instance

/-! ### The shield is watched -/

structure Watched (running shield : Bool) (count : ℤ) (calls : List MarkPlace)
    (dogs : List DogPlace) (resets : List ResetPlace) : Prop where
  nonneg : 0 ≤ count
  dog : running = true → ∃ d ∈ dogs, d ≠ .gone
  calm : Falling dogs resets → Calm calls
  counted : ∀ c ∈ calls, c.escalated = true → 1 ≤ count
  cleared : ∀ d ∈ dogs, d.cleared = true → shield = false
  reset : ∀ r ∈ resets, r ≠ .ended → shield = false
  zeroed : ∀ d ∈ dogs, d.zeroed = true → count = 0
  followed : ¬ Falling dogs resets → 1 ≤ count →
    (∃ d ∈ dogs, d.looping = true) ∨ ∃ c ∈ calls, c.onTheWay = true
  lit : ¬ Falling dogs resets → shield = true → 1 ≤ count

section Watched

variable {running shield : Bool} {count : ℤ} {calls : List MarkPlace} {dogs : List DogPlace}
  {resets : List ResetPlace} {i : ℕ} {x y : MarkPlace} {p q : DogPlace}

lemma ending_of_cleared (h : p.cleared = true) : p.ending = true := by
  cases p <;> first | rfl | cases h

lemma ending_of_zeroed (h : p.zeroed = true) : p.ending = true := by
  cases p <;> first | rfl | cases h

lemma Calm.not_escalated (h : Calm calls) (hx : x ∈ calls) : x.escalated = false := by
  have hquiet := h x hx
  cases x <;> first | rfl | cases hquiet

lemma looping_of_not_gone (h : p ≠ .gone) (hend : p.ending = false) : p.looping = true := by
  cases p <;> first | rfl | exact absurd rfl h | cases hend

section

variable (h : Watched running shield count calls dogs resets)

include h

/-- While a call may raise the shield, nothing is taken down. -/
lemma Watched.not_falling (hi : calls[i]? = some x) (hx : x.raising = true) :
    ¬ Falling dogs resets := by
  intro hfall
  have hcalm := h.calm hfall x (mem_of_getElem? hi)
  rw [hx] at hcalm
  cases hcalm

lemma Watched.arrive : Watched running shield count (calls ++ [.checking]) dogs resets :=
  { h with
    calm := fun hfall => forall_join (h.calm hfall) rfl
    counted := forall_join h.counted nofun
    followed := fun hcalm hone => by
      rcases h.followed hcalm hone with hdog | ⟨c, hc, hway⟩
      · exact .inl hdog
      · exact .inr ⟨c, mem_append_left _ hc, hway⟩ }

/-- A call goes on, and leaves the way to the swap only when it need not come to
it. -/
lemma Watched.call (hi : calls[i]? = some x) (hraise : y.raising = true → ¬ Falling dogs resets)
    (hcount : y.escalated = true → 1 ≤ count)
    (hway : ¬ Falling dogs resets → 1 ≤ count → x.onTheWay = true → y.onTheWay = false →
      ∃ d ∈ dogs, d.looping = true) : Watched running shield count (calls.set i y) dogs resets :=
  { h with
    calm := fun hfall => by
      apply forall_set (h.calm hfall)
      rw [← Bool.not_eq_true]
      exact fun hy => hraise hy hfall
    counted := forall_set h.counted hcount
    followed := fun hcalm hone => by
      rcases h.followed hcalm hone with hdog | hcall
      · exact .inl hdog
      cases hy : y.onTheWay with
      | true => exact .inr ⟨y, mem_set hi, hy⟩
      | false =>
        cases hx : x.onTheWay with
        | true => exact .inl (hway hcalm hone hx hy)
        | false =>
          refine .inr (exists_set hcall hi fun hx' => ?_)
          rw [hx] at hx'
          cases hx' }

lemma Watched.tally (hi : calls[i]? = some .counting) (hy : y.onTheWay = true) :
    Watched running shield (count + 1) (calls.set i y) dogs resets := by
  have hcalm := h.not_falling hi rfl
  have hnonneg := h.nonneg
  constructor
  · omega
  · exact h.dog
  · exact fun hfall => absurd hfall hcalm
  · intro c _ _
    omega
  · exact h.cleared
  · exact h.reset
  · intro d hd hzero
    exact absurd (.inl ⟨d, hd, ending_of_zeroed hzero⟩) hcalm
  · intro _ _
    exact .inr ⟨y, mem_set hi, hy⟩
  · intro _ _
    omega

lemma Watched.activate (hi : calls[i]? = some .activating) :
    Watched running true count (calls.set i .looking) dogs resets := by
  have hcalm := h.not_falling hi rfl
  have hone := h.counted _ (mem_of_getElem? hi) rfl
  constructor
  · exact h.nonneg
  · exact h.dog
  · exact fun hfall => absurd hfall hcalm
  · exact fun _ _ _ => hone
  · intro d hd hclear
    exact absurd (.inl ⟨d, hd, ending_of_cleared hclear⟩) hcalm
  · intro r hr hopen
    exact absurd (.inr ⟨r, hr, hopen⟩) hcalm
  · exact h.zeroed
  · intro _ _
    exact .inr ⟨.looking, mem_set hi, rfl⟩
  · exact fun _ _ => hone

end

/-- The swap finds a watchdog, which is not about to end. -/
lemma Watched.swap_known (h : Watched true shield count calls dogs resets)
    (hi : calls[i]? = some .swapping) :
    Watched true shield count (calls.set i .ended) dogs resets := by
  apply h.call hi
  · intro hfalse
    cases hfalse
  · intro hfalse
    cases hfalse
  intro hcalm _ _ _
  obtain ⟨d, hd, hgone⟩ := h.dog rfl
  refine ⟨d, hd, looping_of_not_gone hgone ?_⟩
  rw [← Bool.not_eq_true]
  exact fun hend => hcalm (.inl ⟨d, hd, hend⟩)

lemma falling_sleeping :
    Falling (dogs ++ [.sleeping]) resets ↔ Falling dogs resets := by
  unfold Falling
  simp [DogPlace.ending, or_and_right, exists_or]

section

variable (h : Watched running shield count calls dogs resets)

include h

lemma Watched.swap_new (i : ℕ) :
    Watched true shield count (calls.set i .ended) (dogs ++ [.sleeping]) resets := by
  have hnew : ∃ d ∈ dogs ++ [DogPlace.sleeping], d.looping = true :=
    ⟨.sleeping, mem_append_right _ (mem_singleton_self _), rfl⟩
  constructor
  · exact h.nonneg
  · exact fun _ => ⟨.sleeping, mem_append_right _ (mem_singleton_self _), by simp⟩
  · intro hfall
    exact forall_set (h.calm (falling_sleeping.mp hfall)) rfl
  · apply forall_set h.counted
    intro hfalse
    cases hfalse
  · exact forall_join h.cleared nofun
  · exact h.reset
  · exact forall_join h.zeroed nofun
  · exact fun _ _ => .inl hnew
  · intro hcalm hlit
    exact h.lit (fun hfall => hcalm (falling_sleeping.mpr hfall)) hlit

/-- A watchdog goes round its loop. -/
lemma Watched.round (hi : dogs[i]? = some p) (hp : p.looping = true) (hq : q.looping = true) :
    Watched running shield count calls (dogs.set i q) resets := by
  have hpend : p.ending = false := by cases p <;> first | rfl | cases hp
  have hqend : q.ending = false := by cases q <;> first | rfl | cases hq
  have hfalling : Falling (dogs.set i q) resets ↔ Falling dogs resets := by
    constructor
    · rintro (hdog | hreset)
      · rcases exists_of_set hdog with hend | hdog
        · rw [hqend] at hend
          cases hend
        · exact .inl hdog
      · exact .inr hreset
    · rintro (hdog | hreset)
      · refine .inl (exists_set hdog hi fun hend => ?_)
        rw [hpend] at hend
        cases hend
      · exact .inr hreset
  constructor
  · exact h.nonneg
  · intro hrunning
    refine ⟨q, mem_set hi, ?_⟩
    rintro rfl
    cases hq
  · exact fun hfall => h.calm (hfalling.mp hfall)
  · exact h.counted
  · apply forall_set h.cleared
    intro hclear
    rw [ending_of_cleared hclear] at hqend
    cases hqend
  · exact h.reset
  · apply forall_set h.zeroed
    intro hzero
    rw [ending_of_zeroed hzero] at hqend
    cases hqend
  · exact fun _ _ => .inl ⟨q, mem_set hi, hq⟩
  · exact fun hcalm hlit => h.lit (fun hfall => hcalm (hfalling.mpr hfall)) hlit

/-- A watchdog takes one of the steps of its end, which leaves it ending. -/
lemma Watched.fall {shield' : Bool} {count' : ℤ} (hi : dogs[i]? = some p) (hcalm : Calm calls)
    (hq : q.ending = true)
    (hshield : shield' = shield ∧ (q.cleared = true → shield = false) ∨ shield' = false)
    (hcount : count' = count ∧ (q.zeroed = true → count = 0) ∨ count' = 0) :
    Watched running shield' count' calls (dogs.set i q) resets := by
  have hfall : Falling (dogs.set i q) resets := .inl ⟨q, mem_set hi, hq⟩
  constructor
  · rcases hcount with ⟨rfl, -⟩ | rfl
    · exact h.nonneg
    · exact Int.le_refl 0
  · intro _
    refine ⟨q, mem_set hi, ?_⟩
    rintro rfl
    cases hq
  · exact fun _ => hcalm
  · intro c hc hesc
    rw [hcalm.not_escalated hc] at hesc
    cases hesc
  · rcases hshield with ⟨rfl, hclear⟩ | rfl
    · exact forall_set h.cleared hclear
    · exact fun _ _ _ => rfl
  · rcases hshield with ⟨rfl, -⟩ | rfl
    · exact h.reset
    · exact fun _ _ _ => rfl
  · rcases hcount with ⟨rfl, hzero⟩ | rfl
    · exact forall_set h.zeroed hzero
    · exact fun _ _ _ => rfl
  · exact fun hnot => absurd hfall hnot
  · exact fun hnot => absurd hfall hnot

lemma Watched.leave (hi : dogs[i]? = some .leaving) :
    Watched false shield count calls (dogs.set i .gone) resets := by
  have hmem := mem_of_getElem? hi
  have hzero := h.zeroed _ hmem rfl
  have hdown := h.cleared _ hmem rfl
  have hcalm : Calm calls := h.calm (.inl ⟨_, hmem, rfl⟩)
  constructor
  · exact h.nonneg
  · intro hfalse
    cases hfalse
  · exact fun _ => hcalm
  · exact h.counted
  · exact fun _ _ _ => hdown
  · exact h.reset
  · exact fun _ _ _ => hzero
  · intro _ hone
    omega
  · intro _ hlit
    rw [hdown] at hlit
    cases hlit

lemma Watched.reset_begin (hcalm : Calm calls) :
    Watched running false count calls dogs (resets ++ [.stopping]) := by
  have hfall : Falling dogs (resets ++ [.stopping]) :=
    .inr ⟨.stopping, mem_append_right _ (mem_singleton_self _), by simp⟩
  constructor
  · exact h.nonneg
  · exact h.dog
  · exact fun _ => hcalm
  · exact h.counted
  · exact fun _ _ _ => rfl
  · exact fun _ _ _ => rfl
  · exact h.zeroed
  · exact fun hnot => absurd hfall hnot
  · exact fun hnot => absurd hfall hnot

lemma Watched.reset_running (hi : resets[i]? = some .stopping) :
    Watched false shield count calls dogs (resets.set i .zeroing) := by
  have hmem := mem_of_getElem? hi
  have hfall : Falling dogs (resets.set i .zeroing) :=
    .inr ⟨.zeroing, mem_set hi, by simp⟩
  have hdown : shield = false := h.reset _ hmem (by simp)
  constructor
  · exact h.nonneg
  · intro hfalse
    cases hfalse
  · exact fun _ => h.calm (.inr ⟨_, hmem, by simp⟩)
  · exact h.counted
  · exact h.cleared
  · exact fun _ _ _ => hdown
  · exact h.zeroed
  · exact fun hnot => absurd hfall hnot
  · exact fun hnot => absurd hfall hnot

lemma Watched.reset_count (hi : resets[i]? = some .zeroing) :
    Watched running shield 0 calls dogs (resets.set i .ended) := by
  have hmem := mem_of_getElem? hi
  have hdown : shield = false := h.reset _ hmem (by simp)
  have hcalm : Calm calls := h.calm (.inr ⟨_, hmem, by simp⟩)
  constructor
  · exact Int.le_refl 0
  · exact h.dog
  · exact fun _ => hcalm
  · intro c hc hesc
    rw [hcalm.not_escalated hc] at hesc
    cases hesc
  · exact h.cleared
  · exact fun _ _ _ => hdown
  · exact fun _ _ _ => rfl
  · intro _ hone
    omega
  · intro _ hlit
    rw [hdown] at hlit
    cases hlit

end

end Watched

namespace Shield

variable {s s' : Shield}

def IsWatched (s : Shield) : Prop :=
  Watched s.isWatchdogRunning s.shieldActive s.staticCorruptionCount s.calls s.dogs s.resets

lemma isWatched_start : start.IsWatched where
  nonneg := Int.le_refl 0
  dog hfalse := by cases hfalse
  calm _ c hc := by cases hc
  counted c hc := by cases hc
  cleared d hd := by cases hd
  reset r hr := by cases hr
  zeroed d hd := by cases hd
  followed _ hone := absurd hone (by decide)
  lit _ hlit := by cases hlit

lemma isWatched_decide {d : ℕ} {elapsed : ℤ} (h : s.IsWatched)
    (hd : s.dogs[d]? = some (.loaded elapsed)) (hturn : s.satisfied d = true → Calm s.calls) :
    ({ s with
      dogs := s.dogs.set d (if cleanNeeded s.strictCycleCount * nanosecond < elapsed then .clearing
        else .sleeping) } : Shield).IsWatched := by
  by_cases hlong : cleanNeeded s.strictCycleCount * nanosecond < elapsed
  · have hcalm : Calm s.calls := by
      apply hturn
      rw [satisfied, hd]
      exact decide_eq_true hlong
    rw [if_pos hlong]
    apply h.fall hd hcalm rfl
    · exact .inl ⟨rfl, fun hfalse => by cases hfalse⟩
    · exact .inl ⟨rfl, fun hfalse => by cases hfalse⟩
  · rw [if_neg hlong]
    exact h.round hd rfl rfl

/-- Who takes a step. -/
inductive Party
  | call
  | watchdog
  | reset

def party : ShieldLabel → Party
  | .mark _ | .check _ _ | .count _ | .escalate _ | .activate _ | .look _ | .swap _ => .call
  | .load _ _ | .decide _ | .clear _ | .zero _ | .forget _ | .leave _ => .watchdog
  | .reset | .resetRunning _ | .resetCount _ => .reset

variable {l : ShieldLabel}

lemma isWatched_call_step (hl : party l = .call) (h : s.IsWatched) (hturn : s.InTurn l)
    (hstep : s.Step l s') : s'.IsWatched := by
  unfold Step step at hstep
  cases l with
  | mark now =>
    cases hstep
    exact h.arrive
  | check c enabled =>
    dsimp only at hstep
    split at hstep <;> cases hstep
    rename_i hc
    apply h.call hc
    · intro hraise
      split_ifs at hraise with hboth
      · rw [Bool.and_eq_true, Bool.not_eq_true'] at hboth
        exact hturn hboth.1 hboth.2
      · cases hraise
    · intro hesc
      split_ifs at hesc <;> cases hesc
    · intro _ _ hfalse
      cases hfalse
  | count c =>
    dsimp only at hstep
    split at hstep <;> cases hstep
    rename_i hc
    apply h.tally hc
    split_ifs <;> rfl
  | escalate c =>
    dsimp only at hstep
    split at hstep <;> cases hstep
    rename_i hc
    apply h.call hc
    · exact fun _ => h.not_falling hc rfl
    · exact fun _ => h.counted _ (mem_of_getElem? hc) rfl
    · intro _ _ _ hfalse
      cases hfalse
  | activate c =>
    dsimp only at hstep
    split at hstep <;> cases hstep
    rename_i hc
    exact h.activate hc
  | look c =>
    dsimp only at hstep
    split at hstep <;> cases hstep
    rename_i hc
    apply h.call hc
    · intro hraise
      split_ifs at hraise <;> cases hraise
    · intro hesc
      split_ifs at hesc <;> cases hesc
    · intro _ hone _ hoff
      rw [if_pos hone] at hoff
      cases hoff
  | swap c =>
    dsimp only at hstep
    split at hstep <;> cases hstep
    rename_i hc
    have hs : Watched s.isWatchdogRunning s.shieldActive s.staticCorruptionCount s.calls s.dogs
      s.resets := h
    cases hrunning : s.isWatchdogRunning with
    | true =>
      rw [hrunning] at hs
      exact hs.swap_known hc
    | false => exact hs.swap_new c
  | _ => cases hl

lemma isWatched_watchdog_step (hl : party l = .watchdog) (h : s.IsWatched) (hturn : s.InTurn l)
    (hstep : s.Step l s') : s'.IsWatched := by
  unfold Step step at hstep
  cases l with
  | load d now =>
    dsimp only at hstep
    split at hstep <;> cases hstep
    rename_i hd
    exact h.round hd rfl rfl
  | decide d =>
    dsimp only at hstep
    split at hstep <;> cases hstep
    rename_i elapsed hd
    exact isWatched_decide h hd hturn
  | clear d =>
    dsimp only at hstep
    split at hstep <;> cases hstep
    rename_i hd
    apply h.fall hd (h.calm (.inl ⟨_, mem_of_getElem? hd, rfl⟩)) rfl
    · exact .inr rfl
    · exact .inl ⟨rfl, fun hfalse => by cases hfalse⟩
  | zero d =>
    dsimp only at hstep
    split at hstep <;> cases hstep
    rename_i hd
    have hmem := mem_of_getElem? hd
    apply h.fall hd (h.calm (.inl ⟨_, hmem, rfl⟩)) rfl
    · exact .inl ⟨rfl, fun _ => h.cleared _ hmem rfl⟩
    · exact .inr rfl
  | forget d =>
    dsimp only at hstep
    split at hstep <;> cases hstep
    rename_i hd
    have hmem := mem_of_getElem? hd
    apply h.fall hd (h.calm (.inl ⟨_, hmem, rfl⟩)) rfl
    · exact .inl ⟨rfl, fun _ => h.cleared _ hmem rfl⟩
    · exact .inl ⟨rfl, fun _ => h.zeroed _ hmem rfl⟩
  | leave d =>
    dsimp only at hstep
    split at hstep <;> cases hstep
    rename_i hd
    exact h.leave hd
  | _ => cases hl

lemma isWatched_reset_step (hl : party l = .reset) (h : s.IsWatched) (hturn : s.InTurn l)
    (hstep : s.Step l s') : s'.IsWatched := by
  unfold Step step at hstep
  cases l with
  | reset =>
    cases hstep
    exact h.reset_begin hturn
  | resetRunning r =>
    dsimp only at hstep
    split at hstep <;> cases hstep
    rename_i hr
    exact h.reset_running hr
  | resetCount r =>
    dsimp only at hstep
    split at hstep <;> cases hstep
    rename_i hr
    exact h.reset_count hr
  | _ => cases hl

lemma isWatched_step (h : s.IsWatched) (hturn : s.InTurn l) (hstep : s.Step l s') :
    s'.IsWatched := by
  cases hl : party l with
  | call => exact isWatched_call_step hl h hturn hstep
  | watchdog => exact isWatched_watchdog_step hl h hturn hstep
  | reset => exact isWatched_reset_step hl h hturn hstep

lemma isWatched_of_run {ls : List ShieldLabel} (hrun : Run (Guarded InTurn Step) start ls s) :
    s.IsWatched :=
  hrun.invariant (I := IsWatched) (fun _ _ _ h hst => isWatched_step h hst.1 hst.2) isWatched_start

/-! ### What a watchdog will do -/

/-- The watchdog's own steps at a time past its quiet period take the shield
down. -/
def Clears (s : Shield) (d : ℕ) : Prop :=
  ∀ now, cleanNeeded s.strictCycleCount * nanosecond
      < now - s.lastCorruptionUnix * nanosecond →
    ∃ ls s', (∀ l ∈ ls, l = .load d now ∨ l = .decide d ∨ l = .clear d) ∧ Run Step s ls s' ∧
      s'.shieldActive = false

lemma step_clear {d : ℕ} (hd : s.dogs[d]? = some .clearing) :
    ∃ s', s.Step (.clear d) s' ∧ s'.shieldActive = false := by
  let down : Shield := { s with
    shieldActive := false
    dogs := s.dogs.set d .zeroing }
  have hdown : s.Step (.clear d) down := by rw [Step, step, hd]
  exact ⟨down, hdown, rfl⟩

/-- From its sleep the watchdog reads the time, decides and clears. -/
lemma clears_of_sleeping {d : ℕ} (hd : s.dogs[d]? = some .sleeping) : s.Clears d := by
  intro now hnow
  let loaded : Shield := { s with
    dogs := s.dogs.set d (.loaded (now - s.lastCorruptionUnix * nanosecond)) }
  let decided : Shield := { loaded with dogs := loaded.dogs.set d .clearing }
  have hload : s.Step (.load d now) loaded := by rw [Step, step, hd]
  have hld : loaded.dogs[d]? = some (.loaded (now - s.lastCorruptionUnix * nanosecond)) :=
    set_self hd
  have hdecide : loaded.Step (.decide d) decided := by
    rw [Step, step, hld]
    dsimp only
    rw [if_pos hnow]
  obtain ⟨s', hclear, hdown⟩ := step_clear (s := decided) (set_self hld)
  refine ⟨[.load d now, .decide d, .clear d], s', by simp, ?_, hdown⟩
  exact .cons hload (.cons hdecide (.cons hclear (.nil s')))

lemma clears_of_loaded {d : ℕ} {elapsed : ℤ} (hd : s.dogs[d]? = some (.loaded elapsed)) :
    s.Clears d := by
  intro now hnow
  by_cases hlong : cleanNeeded s.strictCycleCount * nanosecond < elapsed
  · let decided : Shield := { s with dogs := s.dogs.set d .clearing }
    have hdecide : s.Step (.decide d) decided := by
      rw [Step, step, hd]
      dsimp only
      rw [if_pos hlong]
    obtain ⟨s', hclear, hdown⟩ := step_clear (s := decided) (set_self hd)
    refine ⟨[.decide d, .clear d], s', by simp, ?_, hdown⟩
    exact .cons hdecide (.cons hclear (.nil s'))
  · let back : Shield := { s with dogs := s.dogs.set d .sleeping }
    have hdecide : s.Step (.decide d) back := by
      rw [Step, step, hd]
      dsimp only
      rw [if_neg hlong]
    obtain ⟨ls, s', hls, hrun, hdown⟩ :=
      clears_of_sleeping (s := back) (set_self hd) now hnow
    refine ⟨.decide d :: ls, s', ?_, .cons hdecide hrun, hdown⟩
    intro l hl
    rcases mem_cons.mp hl with rfl | hl
    · exact .inr (.inl rfl)
    · exact hls l hl

lemma clears_of_clearing {d : ℕ} (hd : s.dogs[d]? = some .clearing) : s.Clears d := by
  intro now _
  obtain ⟨s', hclear, hdown⟩ := step_clear hd
  exact ⟨[.clear d], s', by simp, .cons hclear (.nil s'), hdown⟩

lemma clears_of_looping {d : ℕ} {p : DogPlace} (hd : s.dogs[d]? = some p)
    (hp : p.looping = true) : s.Clears d := by
  cases p with
  | sleeping => exact clears_of_sleeping hd
  | loaded elapsed => exact clears_of_loaded hd
  | clearing => cases hp
  | zeroing => cases hp
  | forgetting => cases hp
  | leaving => cases hp
  | gone => cases hp

/-- What ends while the shield is up is about to take it down. -/
lemma exists_clearing (h : s.IsWatched) (hactive : s.shieldActive = true)
    (hfall : Falling s.dogs s.resets) : ∃ d : ℕ, s.dogs[d]? = some DogPlace.clearing := by
  rcases hfall with ⟨p, hp, hend⟩ | ⟨r, hr, hopen⟩
  · obtain ⟨d, hd⟩ := mem_iff_getElem?.mp hp
    cases hclear : p.cleared with
    | true =>
      rw [h.cleared p hp hclear] at hactive
      cases hactive
    | false =>
      obtain rfl : p = .clearing := by
        cases p with
        | clearing => rfl
        | sleeping => cases hend
        | loaded elapsed => cases hend
        | zeroing => cases hclear
        | forgetting => cases hclear
        | leaving => cases hclear
        | gone => cases hend
      exact ⟨d, hd⟩
  · rw [h.reset r hr hopen] at hactive
    cases hactive

/-! ### What a call on its way will do -/

/-- The call's own steps end with a watchdog in its loop. -/
def Summons (s : Shield) (c : ℕ) : Prop :=
  ∃ ls s', (∀ l ∈ ls, l = .escalate c ∨ l = .activate c ∨ l = .look c ∨ l = .swap c) ∧
    Run Step s ls s' ∧ ∃ (d : ℕ) (p : DogPlace), s'.dogs[d]? = some p ∧ p.looping = true ∧
      s'.Clears d

lemma Summons.cons {c : ℕ} {l : ShieldLabel} (h : s'.Summons c) (hstep : s.Step l s')
    (hl : l = .escalate c ∨ l = .activate c ∨ l = .look c) : s.Summons c := by
  obtain ⟨ls, t, hls, hrun, hend⟩ := h
  refine ⟨l :: ls, t, fun k hk => ?_, .cons hstep hrun, hend⟩
  rcases mem_cons.mp hk with rfl | hk
  · exact hl.imp_right fun hl => hl.imp_right .inl
  · exact hls k hk

section Summons

variable {c : ℕ} (hdog : s.isWatchdogRunning = true → ∃ p ∈ s.dogs, p.looping = true)
  (hone : 1 ≤ s.staticCorruptionCount)

include hdog

lemma summons_of_swapping (hc : s.calls[c]? = some .swapping) : s.Summons c := by
  let swapped : Shield := { s with
    isWatchdogRunning := true
    calls := s.calls.set c .ended
    dogs := if s.isWatchdogRunning then s.dogs else s.dogs ++ [.sleeping] }
  have hswap : s.Step (.swap c) swapped := by rw [Step, step, hc]
  obtain ⟨p, hp, hloop⟩ : ∃ p ∈ swapped.dogs, p.looping = true := by
    cases hrunning : s.isWatchdogRunning with
    | true => simpa [swapped, hrunning] using hdog hrunning
    | false => exact ⟨.sleeping, by simp [swapped, hrunning], rfl⟩
  obtain ⟨d, hd⟩ := mem_iff_getElem?.mp hp
  exact ⟨[.swap c], swapped, by simp, .cons hswap (.nil _), d, p, hd, hloop,
    clears_of_looping hd hloop⟩

include hone

lemma summons_of_looking (hc : s.calls[c]? = some .looking) : s.Summons c := by
  let looked : Shield := { s with calls := s.calls.set c .swapping }
  have hlook : s.Step (.look c) looked := by
    rw [Step, step, hc]
    dsimp only
    rw [if_pos hone]
  have hnext : looked.Summons c := summons_of_swapping hdog (set_self hc)
  exact hnext.cons hlook (by simp)

lemma summons_of_activating (hc : s.calls[c]? = some .activating) : s.Summons c := by
  let raised : Shield := { s with shieldActive := true, calls := s.calls.set c .looking }
  have hraise : s.Step (.activate c) raised := by rw [Step, step, hc]
  have hnext : raised.Summons c := summons_of_looking hdog hone (set_self hc)
  exact hnext.cons hraise (by simp)

lemma summons_of_onTheWay {p : MarkPlace} (hc : s.calls[c]? = some p)
    (hp : p.onTheWay = true) : s.Summons c := by
  cases p with
  | swapping => exact summons_of_swapping hdog hc
  | looking => exact summons_of_looking hdog hone hc
  | activating => exact summons_of_activating hdog hone hc
  | escalating =>
    let escalated : Shield := { s with
      strictCycleCount := s.strictCycleCount + 1
      calls := s.calls.set c .activating }
    have hescalate : s.Step (.escalate c) escalated := by rw [Step, step, hc]
    have hnext : escalated.Summons c := summons_of_activating hdog hone (set_self hc)
    exact hnext.cons hescalate (by simp)
  | _ => cases hp

end Summons

end Shield

open Shield

/-- While the shield is up a watchdog is there that will take it down, or a call
is on its way whose own steps end with one. -/
theorem active_shield_has_watchdog {ls : List ShieldLabel} {s : Shield}
    (hrun : Run (Guarded InTurn Step) start ls s) (hactive : s.shieldActive = true) :
    (∃ (d : ℕ) (p : DogPlace), s.dogs[d]? = some p ∧ (p.looping = true ∨ p = .clearing) ∧
      s.Clears d) ∨
      ∃ (c : ℕ) (p : MarkPlace), s.calls[c]? = some p ∧ p.onTheWay = true ∧ s.Summons c := by
  have hwatched := isWatched_of_run hrun
  by_cases hfall : Falling s.dogs s.resets
  · obtain ⟨d, hd⟩ := exists_clearing hwatched hactive hfall
    exact .inl ⟨d, .clearing, hd, .inr rfl, clears_of_clearing hd⟩
  have hone := hwatched.lit hfall hactive
  rcases hwatched.followed hfall hone with ⟨p, hp, hloop⟩ | ⟨p, hp, hway⟩
  · obtain ⟨d, hd⟩ := mem_iff_getElem?.mp hp
    exact .inl ⟨d, p, hd, .inl hloop, clears_of_looping hd hloop⟩
  · obtain ⟨c, hc⟩ := mem_iff_getElem?.mp hp
    refine .inr ⟨c, p, hc, hway, summons_of_onTheWay (fun hrunning => ?_) hone hc hway⟩
    -- a watchdog that is there is not ending, for nothing is
    obtain ⟨q, hq, hgone⟩ := hwatched.dog hrunning
    refine ⟨q, hq, looping_of_not_gone hgone ?_⟩
    exact Bool.eq_false_iff.mpr fun hend => hfall (.inl ⟨q, hq, hend⟩)

/-- Two corruptions, one second apart. -/
def twoCorruptions : List ShieldLabel :=
  [.mark 0, .check 0 true, .count 0, .look 0, .swap 0, .mark nanosecond, .check 1 true, .count 1,
    .escalate 1, .activate 1, .look 1, .swap 1]

theorem second_corruption_is_watched :
    ∃ s, Run (Guarded InTurn Step) start twoCorruptions s ∧ s.shieldActive = true ∧
      s.calls = [.ended, .ended] ∧ ∃ d, s.Clears d := by
  obtain ⟨s, hs, hactive, hcalls⟩ : ∃ s ∈ twoCorruptions.foldlM (fun (s : Shield) l =>
      if s.InTurn l then s.step l else none) start,
        s.shieldActive = true ∧ s.calls = [.ended, .ended] := by decide
  have hrun : Run (Guarded InTurn Step) start twoCorruptions s := guarded_run_of_foldlM hs
  refine ⟨s, hrun, hactive, hcalls, ?_⟩
  rcases active_shield_has_watchdog hrun hactive with ⟨d, p, -, -, hclears⟩ | ⟨c, p, hp, hway, -⟩
  · exact ⟨d, hclears⟩
  · have hc := mem_of_getElem? hp
    rw [hcalls] at hc
    simp only [mem_cons, not_mem_nil, or_false, or_self] at hc
    rw [hc] at hway
    cases hway

/-- The second corruption comes while the watchdog of the first is ending: it
raises the shield behind the watchdog's back and finds the counter at zero.  A
third call does not help. -/
def behindTheBack : List ShieldLabel :=
  [.mark 0, .check 0 true, .count 0, .look 0, .swap 0, .load 0 (100 * nanosecond),
    .mark (100 * nanosecond), .check 1 true, .count 1, .escalate 1, .decide 0, .clear 0,
    .activate 1, .zero 0, .forget 0, .leave 0, .look 1,
    .mark (101 * nanosecond), .check 2 true, .look 2]

theorem shield_stays_up_unwatched :
    ∃ s, Run Step start behindTheBack s ∧ s.shieldActive = true ∧ s.dogs = [.gone] ∧
      s.calls = [.ended, .ended, .ended] := by
  apply exists_run_of_foldlM (f := step)
  decide

end Tiramisu.Torrstor
