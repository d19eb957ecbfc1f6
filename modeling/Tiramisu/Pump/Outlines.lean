import Tiramisu.Lib.Outline
import Tiramisu.Pump.Handles

/-!
# What a goroutine knows at each of its points

`Sight` collects what a party has done and seen so far: the tokens it holds,
how far it has got with attaching a handle or with a pump's exit or a
`Release`.  Every program keeps to the transitions of `Follows`; what the
knowledge is worth depends on the invariant it is read against.
-/

namespace Tiramisu.Pump

open Protocol Program

variable {n : ℕ}

/-- The life of a pump as its creator and then its goroutine see it. -/
inductive Stage
  | fresh
  | ready
  | running
  | unlisted
  | leaving
  deriving DecidableEq

inductive Closing
  | closing
  | found (ps : ℕ)
  | owns (ps : ℕ)
  | gone

/-- A handle on its way to `ps`: whether the party made the pump itself,
whether it has counted the handle and stored the state in it. -/
structure Attach where
  ps : ℕ
  own : Bool
  counted : Bool
  stored : Bool

/-- `token`, `temporary`: the party holds a token for a pump, or for a read.
`lock` is the handle it holds `pumpCreationMu` for; since then it has `seen`
that the handle had no slot, and has `flagged` it.  An `absurd` party got an
answer that was not to be expected. -/
structure Sight (n : ℕ) where
  token : Bool := false
  temporary : Bool := false
  lock : Option (Caller × Fin n) := none
  seen : Bool := false
  flagged : Bool := false
  attach : Option Attach := none
  pump : Option (ℕ × Fin n × String × Stage) := none
  close : Option (Fin n × Closing) := none
  absurd : Bool := false

def Sight.start : Sight n := {}

/-- The operations that tell nothing and disturb nobody. -/
def Op.Mild : Op n → Prop
  | loadSlot _ | resolveSlot _ | canTakeSlot | playbackConfirmed | lockHandle _ | unlockHandle _
  | loadActive _ | deleteActive _ | loadRef _ | pumpBody _ | cancel _ => True
  | _ => False

variable (pathOf : Fin n → String)

inductive Follows : Sight n → (o : Op n) → o.Res → Sight n → Prop
  | absurd {L : Sight n} {o : Op n} {r : o.Res} (hL : L.absurd = true) : Follows L o r L
  | mild {L : Sight n} {o : Op n} {r : o.Res} (ho : o.Mild) : Follows L o r L
  | lock {L : Sight n} {c : Caller} {h : Fin n} (hL : L.lock = none) (hp : L.pump = none) :
      Follows L (.lockCreation c h) ()
        { L with lock := some (c, h), seen := false, flagged := false, attach := none }
  /-- The handle was left as it was, -/
  | pass {L : Sight n} {c : Caller} {h : Fin n} (hL : L.lock = some (c, h))
      (hf : L.flagged = false) (ha : L.attach = none) :
      Follows L .unlockCreation () { L with lock := none, seen := false }
  /-- or it is attached for good. -/
  | settle {L : Sight n} {c : Caller} {h : Fin n} {a : Attach} (hL : L.lock = some (c, h))
      (hf : L.flagged = true) (ha : L.attach = some a) (hc : a.counted = true)
      (hs : a.stored = true) :
      Follows L .unlockCreation ()
        { L with lock := none, seen := false, flagged := false, attach := none }
  | look {L : Sight n} {c : Caller} {h : Fin n} {r : Bool} (hL : L.lock = some (c, h))
      (hs : L.seen = false) (hf : L.flagged = false) (ha : L.attach = none) :
      Follows L (.loadSlot h) r { L with seen := !r }
  | lookAgain {L : Sight n} {c : Caller} {h : Fin n} {r : Bool} (hL : L.lock = some (c, h))
      (hs : L.seen = true) :
      Follows L (.loadSlot h) r { L with absurd := L.absurd || (r != L.flagged) }
  | target {L : Sight n} {c : Caller} {h : Fin n} {r : Option ℕ} (hL : L.lock = some (c, h))
      (hs : L.seen = true ∨ c = .start) (hf : L.flagged = false) (ha : L.attach = none) :
      Follows L (.loadActive (pathOf h)) r
        { L with attach := r.map fun ps => ⟨ps, false, false, false⟩ }
  | count {L : Sight n} {c : Caller} {h : Fin n} {ps : ℕ} {s : Bool} {r : ℤ}
      (hL : L.lock = some (c, h)) (ha : L.attach = some ⟨ps, false, false, s⟩) :
      Follows L (.addRef h ps) r { L with attach := some ⟨ps, false, true, s⟩ }
  | flag {L : Sight n} {c : Caller} {h : Fin n} {ps : ℕ} {k : Bool} (hL : L.lock = some (c, h))
      (ha : L.attach = some ⟨ps, false, k, false⟩) (hf : L.flagged = false) :
      Follows L (.storeSlot h) () { L with flagged := true }
  | store {L : Sight n} {c : Caller} {h : Fin n} {ps : ℕ} {k : Bool} (hL : L.lock = some (c, h))
      (ha : L.attach = some ⟨ps, false, k, false⟩) (hf : L.flagged = true) :
      Follows L (.storeState h ps) () { L with attach := some ⟨ps, false, k, true⟩ }
  | claim {L : Sight n} {c : Caller} {h : Fin n} (hL : L.lock = some (c, h))
      (hs : L.seen = true ∨ c = .start) (hf : L.flagged = false) (ha : L.attach = none) :
      Follows L (.claimSlot c h) () { L with seen := true, flagged := true }
  | create {L : Sight n} {c : Caller} {h : Fin n} {ps : ℕ} (hL : L.lock = some (c, h))
      (hs : L.seen = true) (hf : L.flagged = true) (ha : L.attach = none) (hp : L.pump = none) :
      Follows L (.newPump h (pathOf h)) ps
        { L with
          seen := false
          attach := some ⟨ps, true, true, false⟩
          pump := some (ps, h, pathOf h, .fresh) }
  | list {L : Sight n} {c : Caller} {h : Fin n} {ps : ℕ} (hL : L.lock = some (c, h))
      (ha : L.attach = some ⟨ps, true, true, false⟩)
      (hp : L.pump = some (ps, h, pathOf h, .fresh)) :
      Follows L (.storeActive (pathOf h) ps) () L
  | own {L : Sight n} {c : Caller} {h : Fin n} {ps : ℕ} (hL : L.lock = some (c, h))
      (ha : L.attach = some ⟨ps, true, true, false⟩)
      (hp : L.pump = some (ps, h, pathOf h, .fresh)) :
      Follows L (.storeState h ps) ()
        { L with
          attach := some ⟨ps, true, true, true⟩
          pump := some (ps, h, pathOf h, .ready) }
  | launch {L : Sight n} {h : Fin n} {path : String} {ps : ℕ} (ht : L.token = true)
      (hp : L.pump = some (ps, h, path, .ready)) :
      Follows L (.launch ps) () { L with token := false, pump := none }
  | begin {L : Sight n} {r : ℕ × Fin n × String} (hp : L.pump = none) :
      Follows L .nextPump r { L with pump := some (r.1, r.2.1, r.2.2, .running) }
  | unlisted {L : Sight n} {h : Fin n} {path : String} {ps : ℕ} {r : Option ℕ}
      (hp : L.pump = some (ps, h, path, .running)) (hr : r ≠ some ps) :
      Follows L (.loadActive path) r { L with pump := some (ps, h, path, .unlisted) }
  | unlist {L : Sight n} {h : Fin n} {path : String} {ps : ℕ}
      (hp : L.pump = some (ps, h, path, .running)) :
      Follows L (.deleteActive path) () { L with pump := some (ps, h, path, .unlisted) }
  | orphan {L : Sight n} {h : Fin n} {path : String} {ps : ℕ} {r : Bool}
      (hp : L.pump = some (ps, h, path, .unlisted)) :
      Follows L (.loadSlot h) r { L with absurd := L.absurd || !r }
  | repay {L : Sight n} {h : Fin n} {path : String} {ps : ℕ}
      (hp : L.pump = some (ps, h, path, .unlisted)) :
      Follows L (.returnToken ps) () { L with pump := some (ps, h, path, .leaving) }
  | clear {L : Sight n} {h : Fin n} {path : String} {ps : ℕ}
      (hp : L.pump = some (ps, h, path, .leaving)) :
      Follows L (.clearSlot h ps) () { L with pump := none }
  | acquire {L : Sight n} {r : Bool} (ht : L.token = false) :
      Follows L .tryAcquire r { L with token := r }
  | giveBack {L : Sight n} (ht : L.token = true) : Follows L .giveBack () { L with token := false }
  | borrow {L : Sight n} {r : Bool} (ht : L.temporary = false) :
      Follows L .acquireTemporary r { L with temporary := r }
  | returnBorrowed {L : Sight n} (ht : L.temporary = true) :
      Follows L .releaseTemporary () { L with temporary := false }
  | close {L : Sight n} {h : Fin n} (hc : L.close = none) (hl : L.lock = none) :
      Follows L (.closeHandle h) () { L with close := some (h, .closing) }
  | find {L : Sight n} {h : Fin n} {r : Option ℕ} (hc : L.close = some (h, .closing)) :
      Follows L (.loadActive (pathOf h)) r
        { L with close := some (h, r.elim .gone .found) }
  | slotless {L : Sight n} {h : Fin n} {ps : ℕ} (hc : L.close = some (h, .found ps)) :
      Follows L (.loadSlot h) false { L with close := some (h, .gone) }
  | compare {L : Sight n} {h : Fin n} {ps : ℕ} {r : Option ℕ}
      (hc : L.close = some (h, .found ps)) :
      Follows L (.loadState h) r
        { L with close := some (h, if r = some ps then .owns ps else .gone) }
  | uncount {L : Sight n} {h : Fin n} {ps : ℕ} {r : ℤ} (hc : L.close = some (h, .owns ps)) :
      Follows L (.dropRef h ps) r { L with close := some (h, .gone) }
  | closed {L : Sight n} {h : Fin n} (hc : L.close = some (h, .gone)) :
      Follows L (.endRelease h) () { L with close := none }

/-! ### The programs keep to it -/

section Programs

variable {pathOf} {α : Type} {L : Sight n} {h : Fin n} {ps : ℕ} {R : α → Sight n → Prop}

abbrev Kept (pathOf : Fin n → String) (p : Prog n α) (R : α → Sight n → Prop) (L : Sight n) :
    Prop :=
  Outline (Follows pathOf) R L p

/-- A program ends with nothing in hand, or got an answer it could not get. -/
def Sight.Over (L : Sight n) : Prop := L = Sight.start ∨ L.absurd = true

lemma kept_absurd {p : Prog n α} (hL : L.absurd = true) (hR : ∀ a, R a L) :
    Kept pathOf p R L :=
  outline_of_loop (fun _ _ => .absurd hL) hR

lemma kept_mild {o : Op n} {k : o.Res → Prog n α} (ho : o.Mild)
    (hk : ∀ r, Kept pathOf (k r) R L) : Kept pathOf (.perform o k) R L :=
  outline_always (fun _ => .mild ho) hk

lemma kept_joinPump {c : Caller} {token : Bool}
    (ht : token = false) : Kept pathOf (joinPump h ps) (fun _ L => L = Sight.start)
      { token := token, lock := some (c, h), attach := some ⟨ps, false, false, false⟩ } := by
  subst ht
  refine outline_always (fun _ => .count rfl rfl) fun _ => ?_
  refine kept_mild trivial fun _ => ?_
  refine outline_always (fun _ => .flag rfl rfl rfl) fun _ => ?_
  refine outline_always (fun _ => .store rfl rfl rfl) fun _ => ?_
  refine kept_mild trivial fun _ => ?_
  exact outline_always (fun _ => .settle rfl rfl rfl rfl rfl) fun _ => rfl

/-- The point at which `attachToExistingPump` is done, -/
def attached (h : Fin n) (ps : ℕ) : Sight n :=
  { lock := some (.read, h), seen := true, flagged := true
    attach := some ⟨ps, false, true, true⟩ }

/-- and the one at which `createPump` is. -/
def created (c : Caller) (h : Fin n) (path : String) (ps : ℕ) : Sight n :=
  { token := true, lock := some (c, h), flagged := true
    attach := some ⟨ps, true, true, true⟩
    pump := some (ps, h, path, .ready) }

lemma kept_createPump {c : Caller} {seen : Bool} (hs : seen = true ∨ c = .start) :
    Kept pathOf (createPump c h (pathOf h)) (fun ps L => L = created c h (pathOf h) ps)
      { token := true, lock := some (c, h), seen := seen } := by
  refine outline_always (fun _ => .claim rfl hs rfl rfl) fun _ => ?_
  refine outline_perform fun ps => ⟨_, .create rfl rfl rfl rfl rfl, ?_⟩
  refine outline_always (fun _ => .list rfl rfl rfl) fun _ => ?_
  exact outline_always (fun _ => .own rfl rfl rfl) fun _ => rfl

lemma kept_startWithToken :
    Kept pathOf (startWithToken h (pathOf h)) (fun _ L => L = Sight.start) { token := true } := by
  refine outline_always (fun _ => .lock rfl rfl) fun _ => ?_
  refine outline_perform fun r => ⟨_, .target rfl (.inr rfl) rfl rfl, ?_⟩
  cases r with
  | some ps =>
    refine outline_always (fun _ => .giveBack rfl) fun _ => ?_
    exact kept_joinPump rfl
  | none =>
    refine (kept_createPump (.inr rfl)).bind fun ps L hL => ?_
    subst hL
    refine outline_always (fun _ => .settle rfl rfl rfl rfl rfl) fun _ => ?_
    exact outline_always (fun _ => .launch rfl rfl) fun _ => rfl

lemma kept_startUnderLock :
    Kept pathOf (startUnderLock h (pathOf h)) (fun _ L => L = Sight.start) Sight.start := by
  refine outline_always (fun _ => .lock rfl rfl) fun _ => ?_
  refine outline_perform fun r => ⟨_, .target rfl (.inr rfl) rfl rfl, ?_⟩
  cases r with
  | some ps => exact kept_joinPump rfl
  | none =>
    refine outline_always (fun _ => .pass rfl rfl rfl) fun _ => ?_
    refine outline_perform fun r => ⟨_, .acquire rfl, ?_⟩
    cases r with
    | true => exact kept_startWithToken
    | false => exact rfl

lemma kept_startNativePump :
    Kept pathOf (startNativePump h (pathOf h)) (fun _ L => L = Sight.start) Sight.start := by
  refine kept_mild trivial fun slot => ?_
  cases slot with
  | true => exact rfl
  | false =>
    refine kept_mild trivial fun can => ?_
    cases can with
    | true => exact kept_startUnderLock
    | false => exact rfl

lemma kept_upgrade : Kept pathOf (upgrade h (pathOf h)) (fun _ L => L = Sight.start)
    { lock := some (.read, h), seen := true } := by
  refine kept_mild trivial fun confirmed => ?_
  cases confirmed with
  | false => exact outline_always (fun _ => .pass rfl rfl rfl) fun _ => rfl
  | true =>
    refine outline_perform fun taken => ⟨_, .acquire rfl, ?_⟩
    cases taken with
    | false => exact outline_always (fun _ => .pass rfl rfl rfl) fun _ => rfl
    | true =>
      refine (kept_createPump (.inl rfl)).bind fun ps L hL => ?_
      subst hL
      refine outline_always (fun _ => .launch rfl rfl) fun _ => ?_
      exact outline_always (fun _ => .settle rfl rfl rfl rfl rfl) fun _ => rfl

/-- After an attach the flag is set, otherwise it is still clear. -/
lemma kept_upgradeUnlessAttached {a : Option Attach} (ha : ∀ x ∈ a, x.counted ∧ x.stored) :
    Kept pathOf (upgradeUnlessAttached h (pathOf h)) (fun _ L => L.Over)
      { lock := some (.read, h), seen := true, flagged := a.isSome, attach := a } := by
  refine outline_perform fun slot => ⟨_, .lookAgain rfl rfl, ?_⟩
  cases a with
  | none =>
    cases slot with
    | true => exact kept_absurd rfl fun _ => .inr rfl
    | false => exact kept_upgrade.mono fun _ _ hL => .inl hL
  | some a =>
    obtain ⟨hc, hs⟩ := ha a rfl
    cases slot with
    | true => exact outline_always (fun _ => .settle rfl rfl rfl hc hs) fun _ => .inl rfl
    | false => exact kept_absurd rfl fun _ => .inr rfl

lemma kept_attachToExistingPump :
    Kept pathOf (attachToExistingPump h ps)
      (fun _ L => L.absurd = true ∨ L = attached h ps)
      { lock := some (.read, h), seen := true, attach := some ⟨ps, false, false, false⟩ } := by
  refine kept_mild trivial fun _ => ?_
  refine outline_perform fun slot => ⟨_, .lookAgain rfl rfl, ?_⟩
  cases slot with
  | true => exact kept_absurd rfl fun _ => .inl rfl
  | false =>
    refine outline_always (fun _ => .flag rfl rfl rfl) fun _ => ?_
    refine outline_always (fun _ => .store rfl rfl rfl) fun _ => ?_
    refine kept_mild trivial fun _ => ?_
    exact outline_always (fun _ => .count rfl rfl) fun _ => .inr rfl

lemma kept_attachOrUpgrade :
    Kept pathOf (attachOrUpgrade h (pathOf h)) (fun _ L => L.Over) Sight.start := by
  refine outline_always (fun _ => .lock rfl rfl) fun _ => ?_
  refine outline_perform fun slot => ⟨_, .look rfl rfl rfl rfl, ?_⟩
  cases slot with
  | true => exact outline_always (fun _ => .pass rfl rfl rfl) fun _ => .inl rfl
  | false =>
    refine outline_perform fun r => ⟨_, .target rfl (.inl rfl) rfl rfl, ?_⟩
    cases r with
    | none => exact kept_upgradeUnlessAttached (a := none) (by simp)
    | some ps =>
      refine kept_attachToExistingPump.bind fun _ L hL => ?_
      rcases hL with hL | rfl
      · exact kept_absurd hL fun _ => .inr hL
      · exact kept_upgradeUnlessAttached (a := some _) (by simp)

lemma kept_temporarySlot : Kept pathOf (temporarySlot h) (fun _ L => L.Over) Sight.start := by
  refine kept_mild trivial fun slot => ?_
  cases slot with
  | true => exact .inl rfl
  | false =>
    refine outline_perform fun taken => ⟨_, .borrow rfl, ?_⟩
    cases taken with
    | true => exact outline_always (fun _ => .returnBorrowed rfl) fun _ => .inl rfl
    | false => exact .inl rfl

lemma kept_prefetch : Kept pathOf prefetch (fun _ L => L.Over) Sight.start := by
  refine outline_perform fun taken => ⟨_, .borrow rfl, ?_⟩
  cases taken with
  | true => exact outline_always (fun _ => .returnBorrowed rfl) fun _ => .inl rfl
  | false => exact .inl rfl

lemma kept_readInner :
    Kept pathOf (readInner h (pathOf h)) (fun _ L => L.Over) Sight.start := by
  refine kept_mild trivial fun slot => ?_
  cases slot with
  | true => exact kept_temporarySlot
  | false =>
    refine kept_attachOrUpgrade.bind fun _ L hL => ?_
    rcases hL with rfl | hL
    · exact kept_temporarySlot
    · exact kept_absurd hL fun _ => .inr hL

lemma kept_returnSlot {path : String} :
    Kept pathOf (returnSlot ps h) (fun _ L => L.Over)
      { pump := some (ps, h, path, .unlisted) } := by
  refine outline_perform fun slot => ⟨_, .orphan rfl, ?_⟩
  cases slot with
  | true =>
    refine outline_always (fun _ => .repay rfl) fun _ => ?_
    exact outline_always (fun _ => .clear rfl) fun _ => .inl rfl
  | false => exact kept_absurd rfl fun _ => .inr rfl

lemma kept_nativePump : Kept pathOf nativePump (fun _ L => L.Over) Sight.start := by
  simp only [nativePump, op, op_bind]
  refine outline_perform fun r => ⟨_, .begin rfl, ?_⟩
  obtain ⟨ps, h, path⟩ := r
  refine kept_mild trivial fun _ => ?_
  refine kept_mild trivial fun _ => ?_
  refine outline_perform fun r => ?_
  by_cases hr : r = some ps
  · refine ⟨_, .mild trivial, ?_⟩
    rw [if_pos hr]
    refine outline_always (fun _ => .unlist rfl) fun _ => ?_
    exact kept_mild trivial fun _ => kept_returnSlot
  · refine ⟨_, .unlisted rfl hr, ?_⟩
    rw [if_neg hr]
    exact kept_mild trivial fun _ => kept_returnSlot

lemma kept_release : Kept pathOf (release h (pathOf h)) (fun _ L => L.Over) Sight.start := by
  have hend : Kept pathOf (op (.endRelease h)) (fun _ L => L.Over)
      { close := some (h, .gone) } :=
    outline_always (fun _ => .closed rfl) fun _ => .inl rfl
  simp only [release, op, op_bind]
  refine outline_always (fun _ => .close rfl rfl) fun _ => ?_
  refine outline_perform fun r => ⟨_, .find rfl, ?_⟩
  cases r with
  | none => exact hend
  | some ps =>
    refine outline_perform fun slot => ?_
    cases slot with
    | false => exact ⟨_, .slotless rfl, hend⟩
    | true =>
      refine ⟨_, .mild trivial, outline_perform fun st => ⟨_, .compare rfl, ?_⟩⟩
      by_cases hst : st = some ps
      · simp only [if_pos hst]
        exact outline_always (fun _ => .uncount rfl) fun _ => hend
      · simp only [if_neg hst]
        exact hend

lemma kept_terminatePump {path : String} :
    Kept pathOf (terminatePump path) (fun _ L => L.Over) Sight.start := by
  refine kept_mild trivial fun r => ?_
  cases r with
  | none => exact .inl rfl
  | some ps => exact kept_mild trivial fun _ => kept_mild trivial fun _ => .inl rfl

lemma kept_graceTimer {path : String} :
    Kept pathOf (graceTimer path) (fun _ L => L.Over) Sight.start := by
  simp only [graceTimer, op, op_bind]
  refine kept_mild trivial fun r => ?_
  cases r with
  | none => exact .inl rfl
  | some ps =>
    refine kept_mild trivial fun refs => ?_
    split_ifs
    · exact kept_mild trivial fun _ => kept_mild trivial fun _ => .inl rfl
    · exact .inl rfl

theorem kept_program (pathOf : Fin n → String) (g : Goroutine n) :
    Kept pathOf (g.program pathOf) (fun _ L => L.Over) Sight.start := by
  cases g with
  | start h => exact kept_startNativePump.mono fun _ _ hL => .inl hL
  | read h => exact kept_readInner
  | prefetch => exact kept_prefetch
  | pump => exact kept_nativePump
  | release h => exact kept_release
  | stop path => exact kept_terminatePump
  | grace path => exact kept_graceTimer

end Programs

end Tiramisu.Pump
