import Mathlib.Data.List.Basic
import Tiramisu.Lib.Runs

/-!
# Programs of atomic operations

A program is a tree of operations: after each operation it continues with the
answer it got.  A `Machine` gives the operations their effect on a state; the
choice `χ` of a step stands for what the environment decides (a fault, a fresh
number).  Requests that run side by side interleave between operations, and a
crash cuts a program off between two of them.

`wp` is a rely/guarantee triple: before every operation the other parties may
have moved the state along `rely`, and every own step has to keep the
invariant and move along `guar`.
-/

namespace Protocol

inductive Program (Op : Type) (Res : Op → Type) (α : Type) : Type
  | ret (a : α)
  | perform (o : Op) (k : Res o → Program Op Res α)

variable {Op : Type} {Res : Op → Type} {χ σ α β γ : Type}

namespace Program

def bind : Program Op Res α → (α → Program Op Res β) → Program Op Res β
  | ret a, f => f a
  | perform o k, f => perform o fun r => (k r).bind f

instance : Monad (Program Op Res) where
  pure := ret
  bind := bind

/-- A single operation as a program. -/
def op (o : Op) : Program Op Res (Res o) := perform o ret

@[simp] theorem pure_eq (a : α) : (pure a : Program Op Res α) = ret a := rfl

@[simp] theorem ret_bind (a : α) (f : α → Program Op Res β) : (ret a >>= f) = f a := rfl

@[simp] theorem perform_bind (o : Op) (k : Res o → Program Op Res α)
    (f : α → Program Op Res β) : (perform o k >>= f) = perform o fun r => k r >>= f := rfl

@[simp] theorem op_bind (o : Op) (f : Res o → Program Op Res β) :
    (op o >>= f) = perform o f := rfl

theorem bind_assoc (p : Program Op Res α) (f : α → Program Op Res β)
    (g : β → Program Op Res γ) : (p >>= f >>= g) = p >>= fun a => f a >>= g := by
  induction p with
  | ret a => rfl
  | perform o k ih =>
    simp only [perform_bind]
    congr 1
    funext r
    exact ih r

/-- Whatever answers it gets, the program performs only operations in `P` and
ends with a value in `R`. -/
def Uses (P : Op → Prop) (R : α → Prop) : Program Op Res α → Prop
  | ret a => R a
  | perform o k => P o ∧ ∀ r, (k r).Uses P R

/-- A program whose operations are in `P`, whatever it ends with. -/
abbrev Only (P : Op → Prop) (p : Program Op Res α) : Prop := p.Uses P fun _ => True

variable {P P' : Op → Prop} {R R' : α → Prop}

theorem uses_ret {a : α} (h : R a) : (ret a : Program Op Res α).Uses P R := h

theorem uses_done {a : α} : (ret a : Program Op Res α).Only P := trivial

theorem uses_op {o : Op} (h : P o) : (op o : Program Op Res (Res o)).Only P :=
  ⟨h, fun _ => trivial⟩

theorem Uses.bind {R' : β → Prop} {p : Program Op Res α} {f : α → Program Op Res β}
    (hp : p.Uses P R) (hf : ∀ a, R a → (f a).Uses P R') : (p >>= f).Uses P R' := by
  induction p with
  | ret a => exact hf a hp
  | perform o k ih => exact ⟨hp.1, fun r => ih r (hp.2 r)⟩

/-- An error and an answer go different ways. -/
theorem Uses.except {ε : Type} {R : Except ε α → Prop} {R' : β → Prop}
    {p : Program Op Res (Except ε α)} {f : Except ε α → Program Op Res β} (hp : p.Uses P R)
    (herr : ∀ e, R (.error e) → (f (.error e)).Uses P R')
    (hok : ∀ a, R (.ok a) → (f (.ok a)).Uses P R') : (p >>= f).Uses P R' := by
  refine hp.bind fun r hr => ?_
  cases r with
  | error e => exact herr e hr
  | ok a => exact hok a hr

theorem Uses.mono {p : Program Op Res α} (hp : p.Uses P R) (h : ∀ o, P o → P' o)
    (hR : ∀ a, R a → R' a) : p.Uses P' R' := by
  induction p with
  | ret a => exact hR a hp
  | perform o k ih => exact ⟨h o hp.1, fun r => ih r (hp.2 r)⟩

/-- The value of a finished program. -/
def result? : Program Op Res α → Option α
  | ret a => some a
  | perform _ _ => none

end Program

/-! ### Programs of one set of operations inside another -/

/-- The operations of one kind seen as operations of another. -/
structure Embedding (Op : Type) (Res : Op → Type) (Op' : Type) (Res' : Op' → Type) where
  op : Op → Op'
  res : (o : Op) → Res' (op o) → Res o

section Lift

variable {Op' : Type} {Res' : Op' → Type} (E : Embedding Op Res Op' Res')

def Program.lift : Program Op Res α → Program Op' Res' α
  | .ret a => .ret a
  | .perform o k => .perform (E.op o) fun r => (k (E.res o r)).lift

variable {E}

theorem Program.Uses.lift {P : Op' → Prop} {R : α → Prop} {p : Program Op Res α}
    (hp : p.Uses (fun o => P (E.op o)) R) : (p.lift E).Uses P R := by
  induction p with
  | ret a => exact hp
  | perform o k ih => exact ⟨hp.1, fun r => ih _ (hp.2 _)⟩

end Lift

open Program

/-- The effect of each operation; `none` when it has to wait. -/
structure Machine (Op : Type) (Res : Op → Type) (χ σ : Type) where
  exec : (o : Op) → χ → σ → Option (Res o × σ)

/-- What is kept by everybody (`inv`), which steps are considered (`ok`), and
how the others (`rely`) and the program itself (`guar`) may move the state. -/
structure Contract (Op χ σ : Type) where
  inv : σ → Prop
  ok : Op → χ → σ → Prop
  rely : σ → σ → Prop
  guar : σ → σ → Prop
  rely_refl : ∀ w, rely w w
  rely_trans : ∀ {w w' w''}, rely w w' → rely w' w'' → rely w w''

variable (M : Machine Op Res χ σ) (C : Contract Op χ σ)

def wp (Q : α → σ → Prop) : Program Op Res α → σ → Prop
  | .ret a, w => ∀ w', C.rely w w' → C.inv w' → Q a w'
  | .perform o k, w => ∀ w', C.rely w w' → C.inv w' → ∀ c, C.ok o c w' → ∀ r w'',
      M.exec o c w' = some (r, w'') → C.inv w'' ∧ C.guar w' w'' ∧ wp Q (k r) w''

section Rules

variable {M C} {Q Q' : α → σ → Prop} {p : Program Op Res α} {w w' : σ}

theorem wp_stable (h : wp M C Q p w) (hr : C.rely w w') : wp M C Q p w' := by
  cases p with
  | ret | perform => exact fun v hv => h v (C.rely_trans hr hv)

/-- The state before a program may be taken after a move of the others. -/
theorem wp_of_rely (h : ∀ v, C.rely w v → C.inv v → wp M C Q p v) : wp M C Q p w := by
  cases p with
  | ret | perform => exact fun v hv hi => h v hv hi v (C.rely_refl v) hi

theorem wp_mono (hQ : ∀ a v, Q a v → Q' a v) (h : wp M C Q p w) : wp M C Q' p w := by
  induction p generalizing w with
  | ret a => exact fun v hv hi => hQ a v (h v hv hi)
  | perform o k ih =>
    intro v hv hi c hc r u hex
    obtain ⟨hu, hg, hk⟩ := h v hv hi c hc r u hex
    exact ⟨hu, hg, ih r hk⟩

theorem wp_bind {Q : β → σ → Prop} {f : α → Program Op Res β}
    (h : wp M C (fun a v => wp M C Q (f a) v) p w) : wp M C Q (p >>= f) w := by
  induction p generalizing w with
  | ret a => exact wp_of_rely h
  | perform o k ih =>
    intro v hv hi c hc r u hex
    obtain ⟨hu, hg, hk⟩ := h v hv hi c hc r u hex
    exact ⟨hu, hg, ih r hk⟩

theorem wp_then {Q : β → σ → Prop} {f : α → Program Op Res β} (h : wp M C Q' p w)
    (hf : ∀ a v, Q' a v → wp M C Q (f a) v) : wp M C Q (p >>= f) w :=
  wp_bind (wp_mono hf h)

theorem wp_op {o : Op} {Q : Res o → σ → Prop}
    (h : ∀ v, C.rely w v → C.inv v → ∀ c, C.ok o c v → ∀ r u, M.exec o c v = some (r, u) →
      C.inv u ∧ C.guar v u ∧ ∀ t, C.rely u t → C.inv t → Q r t) :
    wp M C Q (op o) w :=
  h

/-- A program all of whose operations keep `I` keeps `I`. -/
theorem wp_of_uses {P : Op → Prop} {R : α → Prop} {I : σ → Prop} (hp : p.Uses P R)
    (hrely : ∀ v v', I v → C.rely v v' → C.inv v' → I v')
    (hstep : ∀ o c v r u, P o → C.ok o c v → C.inv v → I v → M.exec o c v = some (r, u) →
      C.inv u ∧ C.guar v u ∧ I u) (hw : I w) : wp M C (fun a v => R a ∧ I v) p w := by
  induction p generalizing w with
  | ret a => exact fun v hv hi => ⟨hp, hrely w v hw hv hi⟩
  | perform o k ih =>
    intro v hv hi c hc r u hex
    obtain ⟨hu, hg, hI⟩ := hstep o c v r u hp.1 hc hi (hrely w v hw hv hi) hex
    exact ⟨hu, hg, ih r (hp.2 r) hI⟩

end Rules

section Pull

variable {Op' : Type} {Res' : Op' → Type} {M' : Machine Op' Res' χ σ} {C' : Contract Op' χ σ}
  {E : Embedding Op Res Op' Res'}

/-- The machine and the contract that embedded operations meet. -/
def Machine.pull (M' : Machine Op' Res' χ σ) (E : Embedding Op Res Op' Res') :
    Machine Op Res χ σ where
  exec o c w := (M'.exec (E.op o) c w).map fun (r, w') => (E.res o r, w')

def Contract.pull (C' : Contract Op' χ σ) (E : Embedding Op Res Op' Res') : Contract Op χ σ where
  inv := C'.inv
  ok o := C'.ok (E.op o)
  rely := C'.rely
  guar := C'.guar
  rely_refl := C'.rely_refl
  rely_trans := C'.rely_trans

theorem wp_lift {Q : α → σ → Prop} {p : Program Op Res α} {w : σ}
    (h : wp (M'.pull E) (C'.pull E) Q p w) : wp M' C' Q (p.lift E) w := by
  induction p generalizing w with
  | ret a => exact h
  | perform o k ih =>
    intro v hv hi c hc r u hex
    have hpull : (M'.pull E).exec o c v = some (E.res o r, u) := by simp [Machine.pull, hex]
    obtain ⟨hu, hg, hk⟩ := h v hv hi c hc _ u hpull
    exact ⟨hu, hg, ih _ hk⟩

end Pull

/-! ### One program, cut off at any operation -/

/-- The steps a program takes alone; any program on the way is where a crash
may leave it. -/
inductive Steps (ok : Op → χ → σ → Prop) : Program Op Res α → σ → Program Op Res α → σ → Prop
  | refl (p : Program Op Res α) (w : σ) : Steps ok p w p w
  | step {o : Op} {k : Res o → Program Op Res α} {q : Program Op Res α} {c : χ} {r : Res o}
      {w w' w'' : σ} : ok o c w → M.exec o c w = some (r, w') → Steps ok (k r) w' q w'' →
      Steps ok (.perform o k) w q w''

/-- The contract of a program that runs alone. -/
def Contract.alone (inv : σ → Prop) (ok : Op → χ → σ → Prop) : Contract Op χ σ where
  inv := inv
  ok := ok
  rely := Eq
  guar _ _ := True
  rely_refl _ := rfl
  rely_trans h h' := h.trans h'

/-- The contract of a program that runs alone, every step of it in `guar`. -/
def Contract.solo (inv : σ → Prop) (ok : Op → χ → σ → Prop) (guar : σ → σ → Prop) :
    Contract Op χ σ where
  inv := inv
  ok := ok
  rely := Eq
  guar := guar
  rely_refl _ := rfl
  rely_trans h h' := h.trans h'

section Alone

variable {M} {inv : σ → Prop} {ok : Op → χ → σ → Prop} {Q : α → σ → Prop}
  {p q : Program Op Res α} {w w' : σ}

theorem wp_alone_ret {a : α} (h : Q a w) : wp M (.alone inv ok) Q (.ret a) w := by
  rintro v rfl _
  exact h

theorem wp_alone_done {a : α} : wp M (.alone inv ok) (fun _ _ => True) (.ret a) w :=
  wp_alone_ret trivial

theorem wp_alone_perform {o : Op} {k : Res o → Program Op Res α}
    (h : ∀ c, ok o c w → ∀ r u, M.exec o c w = some (r, u) →
      inv u ∧ wp M (.alone inv ok) Q (k r) u) :
    wp M (.alone inv ok) Q (.perform o k) w := by
  rintro v rfl _ c hc r u hex
  obtain ⟨hu, hk⟩ := h c hc r u hex
  exact ⟨hu, trivial, hk⟩

/-- What a program that runs alone does beside keeping an invariant. -/
theorem wp_alone_and {Q' : α → σ → Prop} (h : wp M (.alone inv ok) Q p w)
    (h' : wp M (.alone (fun _ => True) ok) Q' p w) (hw : inv w) :
    wp M (.alone inv ok) (fun a v => Q a v ∧ Q' a v) p w := by
  induction p generalizing w with
  | ret a => exact wp_alone_ret ⟨h w rfl hw, h' w rfl trivial⟩
  | perform o k ih =>
    refine wp_alone_perform fun c hc r u hex => ?_
    obtain ⟨hu, -, hk⟩ := h w rfl hw c hc r u hex
    obtain ⟨-, -, hk'⟩ := h' w rfl trivial c hc r u hex
    exact ⟨hu, ih r hk hk' hu⟩

/-- Wherever the program stands, the invariant holds and the rest is still proved. -/
theorem Steps.sound (h : Steps M ok p w q w') (hp : wp M (.alone inv ok) Q p w) (hw : inv w) :
    inv w' ∧ wp M (.alone inv ok) Q q w' := by
  induction h with
  | refl p w => exact ⟨hw, hp⟩
  | step hok hex _ ih =>
    obtain ⟨hu, -, hk⟩ := hp _ rfl hw _ hok _ _ hex
    exact ih hk hu

/-- The steps of a program that keeps an invariant are steps between states in it. -/
theorem Steps.guarded {ok0 ok' : Op → χ → σ → Prop} (h : Steps M ok p w q w')
    (hp : wp M (.alone inv ok0) Q p w) (hw : inv w) (hok : ∀ o c w, ok o c w → ok0 o c w)
    (hsub : ∀ o c w, ok o c w → inv w → ok' o c w) : Steps M ok' p w q w' := by
  induction h with
  | refl p w => exact .refl p w
  | step ho hex _ ih =>
    obtain ⟨hu, -, hk⟩ := hp _ rfl hw _ (hok _ _ _ ho) _ _ hex
    exact .step (hsub _ _ _ ho hw) hex (ih hk hu)

theorem Steps.result {a : α} (h : Steps M ok p w (.ret a) w')
    (hp : wp M (.alone inv ok) Q p w) (hw : inv w) : Q a w' := by
  obtain ⟨hw', hret⟩ := h.sound hp hw
  exact hret w' rfl hw'

section Solo

variable {inv' : σ → Prop} {ok' : Op → χ → σ → Prop} {guar : σ → σ → Prop} {Q' : α → σ → Prop}

theorem wp_solo_ret {a : α} (h : Q a w) : wp M (.solo inv ok guar) Q (.ret a) w := by
  rintro v rfl _
  exact h

theorem wp_solo_perform {o : Op} {k : Res o → Program Op Res α}
    (h : ∀ c, ok o c w → ∀ r u, M.exec o c w = some (r, u) →
      inv u ∧ guar w u ∧ wp M (.solo inv ok guar) Q (k r) u) :
    wp M (.solo inv ok guar) Q (.perform o k) w := by
  rintro v rfl _ c hc r u hex
  exact h c hc r u hex

/-- A second contract may count on what a first one keeps. -/
theorem wp_solo_with (hsub : ∀ o c w, ok' o c w → ok o c w ∧ inv w)
    (h : wp M (.alone inv ok) Q p w) (h' : wp M (.solo inv' ok' guar) Q' p w) :
    wp M (.solo inv' ok' guar) (fun a v => Q' a v ∧ (inv v → Q a v)) p w := by
  induction p generalizing w with
  | ret a =>
    rintro v rfl hv
    exact ⟨h' w rfl hv, h w rfl⟩
  | perform o k ih =>
    rintro v rfl hv c hc r u hex
    obtain ⟨hok, hi⟩ := hsub o c w hc
    obtain ⟨-, -, hk⟩ := h w rfl hi c hok r u hex
    obtain ⟨hu, hg, hk'⟩ := h' w rfl hv c hc r u hex
    exact ⟨hu, hg, ih r hk hk'⟩

theorem wp_alone_with (hsub : ∀ o c w, ok' o c w → ok o c w ∧ inv w)
    (h : wp M (.alone inv ok) Q p w) (h' : wp M (.alone inv' ok') Q' p w) :
    wp M (.alone inv' ok') (fun a v => Q' a v ∧ (inv v → Q a v)) p w :=
  wp_solo_with hsub h h'

/-- What a second contract keeps on top of a first one is kept together with it. -/
theorem wp_alone_both {both : σ → Prop} (hboth : ∀ w, both w ↔ inv w ∧ inv' w)
    (hsub : ∀ o c w, ok o c w → inv w → ok' o c w) (h : wp M (.alone inv ok) Q p w)
    (h' : wp M (.alone inv' ok') Q' p w) : wp M (.alone both ok) Q p w := by
  induction p generalizing w with
  | ret a =>
    rintro v rfl hv
    exact h w rfl ((hboth w).mp hv).1
  | perform o k ih =>
    rintro v rfl hv c hc r u hex
    obtain ⟨hi, hi'⟩ := (hboth w).mp hv
    obtain ⟨hu, -, hk⟩ := h w rfl hi c hc r u hex
    obtain ⟨hu', -, hk'⟩ := h' w rfl hi' c (hsub o c w hc hi) r u hex
    exact ⟨(hboth u).mpr ⟨hu, hu'⟩, trivial, ih r hk hk'⟩

/-- Wherever the program stands, its next step is one in `guar`. -/
theorem Steps.solo (h : Steps M ok p w q w') (hp : wp M (.solo inv ok guar) Q p w) (hw : inv w) :
    inv w' ∧ wp M (.solo inv ok guar) Q q w' := by
  induction h with
  | refl p w => exact ⟨hw, hp⟩
  | step hok hex _ ih =>
    obtain ⟨hu, -, hk⟩ := hp _ rfl hw _ hok _ _ hex
    exact ih hk hu

end Solo

/-- Follow a list of choices as far as they are allowed. -/
def runAlone (M : Machine Op Res χ σ) (ok : Op → χ → σ → Prop) [∀ o c w, Decidable (ok o c w)] :
    List χ → Program Op Res α → σ → Program Op Res α × σ
  | c :: cs, .perform o k, w =>
    if ok o c w then
      match M.exec o c w with
      | some (r, w') => runAlone M ok cs (k r) w'
      | none => (.perform o k, w)
    else (.perform o k, w)
  | _, p, w => (p, w)

theorem steps_runAlone (M : Machine Op Res χ σ) (ok : Op → χ → σ → Prop)
    [∀ o c w, Decidable (ok o c w)] (cs : List χ) (p : Program Op Res α)
    (w : σ) : Steps M ok p w (runAlone M ok cs p w).1 (runAlone M ok cs p w).2 := by
  induction cs generalizing p w with
  | nil => cases p <;> exact .refl _ _
  | cons c cs ih =>
    cases p with
    | ret a => exact .refl _ _
    | perform o k =>
      unfold runAlone
      split_ifs with hok
      · cases hex : M.exec o c w with
        | none => exact .refl _ _
        | some a => exact .step hok hex (ih (k a.1) a.2)
      · exact .refl _ _

theorem eq_ret_of_result? {a : α} (h : p.result? = some a) : p = .ret a := by
  cases p with
  | ret b => rw [Option.some.inj h]
  | perform o k => exact absurd h (by simp [result?])

end Alone

end Protocol
