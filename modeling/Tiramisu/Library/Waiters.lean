import Tiramisu.Lib.Places
import Tiramisu.Vfs.Namespace

/-!
# Readers that wait for the namespace

A directory operation blocks in `WaitServable` while the namespace is
unreconciled.  It reads the wake channel under the lock and waits for it
outside; a transition closes the channel, and `MarkUnready` puts a fresh one in
its place.  No channel is ever reopened, so a reader that waits for a channel
nobody will close sleeps until its context ends.
-/

namespace Tiramisu.Library

open Transition
open Go
open Metadb (AudioPath)

/-- `ErrAudioReconcileFailed`, alone or wrapped around a cause. -/
inductive ReconcileError
  | failed
  | failedWith (cause : String)
  deriving DecidableEq, Repr

/-- The namespace with its wake channel.  A channel is its number in the order
of their making. -/
structure WokenNamespace where
  view : AudioNamespace
  failErr : Option ReconcileError
  wake : Option ℕ
  made : ℕ
  closed : List ℕ

namespace WokenNamespace

def transitionLocked (n : WokenNamespace) (state : NamespaceState)
    (failErr : Option ReconcileError) : WokenNamespace :=
  { n with
    view := { n.view with state := state }
    failErr := failErr
    closed := match n.wake with
      | none => n.closed
      | some ch => if ch ∈ n.closed then n.closed else ch :: n.closed }

def blockLocked (n : WokenNamespace) : WokenNamespace :=
  { n with
    view := { n.view with state := .unreconciled }
    failErr := none
    wake := some n.made
    made := n.made + 1 }

/-- The second critical section of `WaitServable`: a channel for the zero value. -/
def installWake (n : WokenNamespace) : WokenNamespace :=
  match n.wake with
  | none =>
    { n with
      wake := some n.made
      made := n.made + 1 }
  | some _ => n

end WokenNamespace

/-- Membership without an identity, as `Replace` and `Add` record it. -/
def bareProjection (p : AudioPath) : AudioProjection where
  sec := p.sec
  virtualPath := p.virtualPath
  hash := ""
  fileIndex := 0
  size := 0
  mtimeNS := 0
  updatedAtNS := 0
  externalID := ""
  externalIDNamespace := ""
  cueTrack := 0
  byteOffset := 0
  header := []

/-- The calls that change the namespace, each one critical section. -/
inductive NamespaceCall
  | markUnavailable
  | markFailed (cause : Option String)
  | replace (paths : List AudioPath)
  | add (p : AudioPath)
  | remove (p : AudioPath)
  | publish (projections : List AudioProjection)
  | publishMerged (projections : List AudioProjection)
  | markUnready
  | addProjections (projections : List AudioProjection)
  deriving DecidableEq, Repr

def NamespaceCall.run (n : WokenNamespace) : NamespaceCall → WokenNamespace
  | .markUnavailable =>
    { n with view := { n.view with entries := ∅ } }.transitionLocked .unavailable none
  | .markFailed cause =>
    { n with view := { n.view with entries := ∅ } }.transitionLocked .failed
      (some (cause.elim .failed .failedWith))
  | .replace paths =>
    { n with view := { n.view with
        entries := GoMap.insertAll AudioProjection.path ∅ (paths.map bareProjection)
        live := ∅ } }.transitionLocked .ready none
  | .add p =>
    { n with view := { n.view with entries := n.view.entries.insert p (bareProjection p) } }
  | .remove p => { n with view := n.view.remove p }
  | .publish projections =>
    { n with view := { n.view with
        entries := GoMap.insertAll AudioProjection.path ∅ projections
        live := ∅ } }.transitionLocked .ready none
  | .publishMerged projections =>
    { n with view := n.view.publishMerged projections }.transitionLocked .ready none
  | .markUnready => { n with view := { n.view with entries := ∅ } }.blockLocked
  | .addProjections projections => { n with view := n.view.addProjections projections }

inductive WaitResult
  | servable
  | failed (err : ReconcileError)
  | ctxErr
  deriving DecidableEq, Repr

/-- Where a call of `WaitServable` stands: before its read, between the read and
the installation of a channel, in the `select`, or past its return. -/
inductive WaitPlace
  | reading
  | installing
  | selecting (ch : ℕ)
  | returned (result : WaitResult)
  deriving DecidableEq, Repr

/-- What a reader does with the state it has read. -/
def WokenNamespace.afterRead (n : WokenNamespace) : WaitPlace :=
  match n.view.state with
  | .ready | .unavailable => .returned .servable
  | .failed => .returned (.failed (n.failErr.getD .failed))
  | .unreconciled =>
    match n.wake with
    | none => .installing
    | some ch => .selecting ch

/-- The channel installed, the state is looked at once more. -/
def WokenNamespace.afterInstall (n : WokenNamespace) : WaitPlace :=
  match n.view.state, n.wake with
  | .unreconciled, some ch => .selecting ch
  | _, _ => .reading

/-- The namespace and every call of `WaitServable` made so far. -/
structure Gate where
  space : WokenNamespace
  waiters : List WaitPlace

def Gate.start : Gate := ⟨⟨.newAudioNamespace, none, none, 0, []⟩, []⟩

inductive GateLabel
  | call (c : NamespaceCall)
  | arrive
  | read (i : ℕ)
  | install (i : ℕ)
  | woken (i : ℕ)
  | cancelled (i : ℕ)
  deriving DecidableEq, Repr

namespace Gate

/-- One critical section of any goroutine, or one branch of a `select`; `none`
when the label is not possible. -/
def step (g : Gate) : GateLabel → Option Gate
  | .call c => some { g with space := c.run g.space }
  | .arrive => some { g with waiters := g.waiters ++ [.reading] }
  | .read i =>
    match g.waiters[i]? with
    | some .reading => some { g with waiters := g.waiters.set i g.space.afterRead }
    | _ => none
  | .install i =>
    match g.waiters[i]? with
    | some .installing =>
      some ⟨g.space.installWake, g.waiters.set i g.space.installWake.afterInstall⟩
    | _ => none
  | .woken i =>
    match g.waiters[i]? with
    | some (.selecting ch) =>
      if ch ∈ g.space.closed then some { g with waiters := g.waiters.set i .reading } else none
    | _ => none
  | .cancelled i =>
    match g.waiters[i]? with
    | some (.selecting _) => some { g with waiters := g.waiters.set i (.returned .ctxErr) }
    | _ => none

def Step (g : Gate) (l : GateLabel) (g' : Gate) : Prop := g.step l = some g'

/-- `MarkUnready` does not meet a namespace that is unreconciled already and
whose channel readers may be waiting for. -/
def ReleasesFirst (g : Gate) (l : GateLabel) : Prop :=
  l = .call .markUnready → g.space.view.state = .unreconciled → g.space.wake = none

instance (g : Gate) (l : GateLabel) : Decidable (g.ReleasesFirst l) :=
  inferInstanceAs (Decidable (_ → _ → _))

end Gate

/-! ### What the sections do to the channels -/

/-- A channel that will be closed before the namespace is anything but
unreconciled, or is closed already. -/
def WokenNamespace.Minds (n : WokenNamespace) (ch : ℕ) : Prop :=
  ch ∈ n.closed ∨ n.wake = some ch ∧ n.view.state = .unreconciled

namespace WokenNamespace

variable {n : WokenNamespace} {ch : ℕ}

lemma minds_transitionLocked (h : n.Minds ch) (view : AudioNamespace) (state : NamespaceState)
    (failErr : Option ReconcileError) :
    ({ n with view := view }.transitionLocked state failErr).Minds ch := by
  apply Or.inl
  rcases h with h | ⟨hwake, -⟩
  · unfold transitionLocked
    cases n.wake with
    | none => exact h
    | some w =>
      dsimp only
      split_ifs
      · exact h
      · exact List.mem_cons_of_mem _ h
  · simp only [transitionLocked, hwake]
    split_ifs with hclosed
    · exact hclosed
    · exact List.mem_cons_self

/-- A fresh channel takes the place of one that is closed or that nobody has. -/
lemma minds_blockLocked (h : n.Minds ch) (view : AudioNamespace)
    (hfree : n.view.state = .unreconciled → n.wake = none) :
    ({ n with view := view }.blockLocked).Minds ch := by
  rcases h with h | ⟨hwake, hstate⟩
  · exact Or.inl h
  · rw [hfree hstate] at hwake
    cases hwake

lemma minds_run (h : n.Minds ch) (c : NamespaceCall)
    (hfree : c = .markUnready → n.view.state = .unreconciled → n.wake = none) :
    (c.run n).Minds ch := by
  cases c with
  | markUnready => exact minds_blockLocked h _ (hfree rfl)
  | markUnavailable | markFailed | replace | publish | publishMerged =>
    exact minds_transitionLocked h _ _ _
  | add | remove => exact h
  | addProjections projections =>
    simp only [NamespaceCall.run, Minds, AudioNamespace.addProjections]
    split_ifs <;> exact h

lemma minds_installWake (h : n.Minds ch) : n.installWake.Minds ch := by
  unfold installWake
  cases hwake : n.wake with
  | some w => exact h
  | none =>
    rcases h with h | ⟨hch, -⟩
    · exact Or.inl h
    · rw [hwake] at hch
      cases hch

lemma minds_of_afterRead (h : n.afterRead = .selecting ch) : n.Minds ch := by
  unfold afterRead at h
  cases hstate : n.view.state with
  | unreconciled =>
    cases hwake : n.wake with
    | none => simp [hstate, hwake] at h
    | some w =>
      obtain rfl : w = ch := by simpa [hstate, hwake] using h
      exact Or.inr ⟨hwake, hstate⟩
  | ready | unavailable | failed => simp [hstate] at h

lemma minds_of_afterInstall (h : n.afterInstall = .selecting ch) : n.Minds ch := by
  unfold afterInstall at h
  split at h
  · rename_i w hstate hwake
    obtain rfl : w = ch := WaitPlace.selecting.inj h
    exact Or.inr ⟨hwake, hstate⟩
  · cases h

end WokenNamespace

/-! ### Every reader's channel is minded -/

def Gate.Attended (g : Gate) : Prop :=
  ∀ (i ch : ℕ), g.waiters[i]? = some (WaitPlace.selecting ch) → g.space.Minds ch

/-- A reader moves on; the others stay where they are. -/
lemma Gate.attended_set {g : Gate} (h : g.Attended) {space : WokenNamespace} {i : ℕ}
    {place : WaitPlace} (hspace : ∀ ch, g.space.Minds ch → space.Minds ch)
    (hplace : ∀ ch, place = .selecting ch → space.Minds ch) :
    Gate.Attended ⟨space, g.waiters.set i place⟩ := by
  intro j ch hj
  rcases Places.of_set hj with ⟨-, heq⟩ | ⟨-, hold⟩
  · exact hplace ch heq.symm
  · exact hspace ch (h j ch hold)

lemma Gate.attended_step {g g' : Gate} {l : GateLabel} (h : g.Attended)
    (hok : g.ReleasesFirst l) (hstep : g.Step l g') : g'.Attended := by
  unfold Step step at hstep
  cases l with
  | call c =>
    cases hstep
    exact fun i ch hi => WokenNamespace.minds_run (h i ch hi) c fun hc => hok (by rw [hc])
  | arrive =>
    cases hstep
    intro i ch hi
    rcases Places.of_join hi with ⟨-, heq⟩ | hold
    · cases heq
    · exact h i ch hold
  | read i =>
    dsimp only at hstep
    split at hstep
    · cases hstep
      exact attended_set h (fun _ hm => hm) fun ch hch => WokenNamespace.minds_of_afterRead hch
    · cases hstep
  | install i =>
    dsimp only at hstep
    split at hstep
    · cases hstep
      exact attended_set h (fun _ hm => WokenNamespace.minds_installWake hm) fun ch hch =>
        WokenNamespace.minds_of_afterInstall hch
    · cases hstep
  | woken i =>
    dsimp only at hstep
    split at hstep
    · split_ifs at hstep
      cases hstep
      exact attended_set h (fun _ hm => hm) fun ch hch => by cases hch
    · cases hstep
  | cancelled i =>
    dsimp only at hstep
    split at hstep
    · cases hstep
      exact attended_set h (fun _ hm => hm) fun ch hch => by cases hch
    · cases hstep

/-- As long as `MarkUnready` follows a transition, every reader waits for a
closed channel or for the current one, and once the namespace is servable or
has failed every reader can wake up. -/
theorem readers_wait_for_current_channel {g : Gate} {ls : List GateLabel}
    (hrun : Run (Guarded Gate.ReleasesFirst Gate.Step) Gate.start ls g) {i ch : ℕ}
    (hi : g.waiters[i]? = some (.selecting ch)) :
    (ch ∈ g.space.closed ∨ g.space.wake = some ch) ∧
      (g.space.view.state ≠ .unreconciled → ∃ g', g.Step (.woken i) g') := by
  have hstart : Gate.start.Attended := fun j c hj => by simp [Gate.start] at hj
  have hend : g.Attended :=
    hrun.invariant (fun _ _ _ hg hst => Gate.attended_step hg hst.1 hst.2) hstart
  constructor
  · exact (hend i ch hi).imp_right And.left
  · intro hstate
    have hclosed : ch ∈ g.space.closed := (hend i ch hi).resolve_right fun h => hstate h.2
    refine ⟨{ g with waiters := g.waiters.set i .reading }, ?_⟩
    simp only [Gate.Step, Gate.step, hi, if_pos hclosed]

/-- A reader waits, the namespace is published and dropped again, and a second
reader waits. -/
def releasedLabels : List GateLabel :=
  [.arrive, .read 0, .install 0, .call (.publish []), .call .markUnready, .arrive, .read 1]

theorem second_reader_waits_for_new_channel :
    ∃ g, Run (Guarded Gate.ReleasesFirst Gate.Step) Gate.start releasedLabels g ∧
      g.waiters[1]? = some (.selecting 1) ∧ (1 ∈ g.space.closed ∨ g.space.wake = some 1) := by
  obtain ⟨g, hg, hwaiter⟩ : ∃ g ∈ releasedLabels.foldlM (fun (g : Gate) l =>
      if g.ReleasesFirst l then g.step l else none) Gate.start,
        g.waiters[1]? = some (.selecting 1) := by decide
  have hrun : Run (Guarded Gate.ReleasesFirst Gate.Step) Gate.start releasedLabels g :=
    guarded_run_of_foldlM hg
  exact ⟨g, hrun, hwaiter, (readers_wait_for_current_channel hrun hwaiter).1⟩

/-- The reader's channel is replaced while it is open; the publication closes
the new one. -/
theorem reader_sleeps_through_publication :
    ∃ g, Run Gate.Step Gate.start
        [.arrive, .read 0, .install 0, .call .markUnready, .call (.publish [])] g ∧
      g.waiters = [.selecting 0] ∧ 0 ∉ g.space.closed ∧ g.space.wake = some 1 ∧
      g.space.view.state = .ready ∧ ∀ g', ¬ g.Step (.woken 0) g' := by
  obtain ⟨g, hg, hwaiters, hclosed, hwake, hstate, hnone⟩ : ∃ g ∈ [.arrive, .read 0, .install 0,
      .call .markUnready, .call (.publish [])].foldlM Gate.step Gate.start,
      g.waiters = [.selecting 0] ∧ 0 ∉ g.space.closed ∧ g.space.wake = some 1 ∧
        g.space.view.state = .ready ∧ (g.step (.woken 0)).isNone := by decide
  refine ⟨g, run_of_foldlM hg, hwaiters, hclosed, hwake, hstate, fun g' hg' => ?_⟩
  rw [Gate.Step, Option.isNone_iff_eq_none.mp hnone] at hg'
  cases hg'

end Tiramisu.Library
