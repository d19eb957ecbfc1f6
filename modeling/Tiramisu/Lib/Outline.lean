import Tiramisu.Lib.Parallel

/-!
# Proof outlines

An outline gives every point of a program a typestate `τ`, and `follows` says
which typestate an operation and its answer lead to.  That a program keeps to
an outline is a fact about the program alone.  What the typestates mean is
fixed by each contract separately, so one outline serves several invariants:
only its transitions are checked against a contract, not the programs again.
-/

namespace Protocol

variable {Op : Type} {Res : Op → Type} {χ σ α β τ : Type}

/-- Whatever the answers are, every operation is a transition of `follows`, and
the program ends in a typestate in `R`. -/
def Outline (follows : τ → (o : Op) → Res o → τ → Prop) (R : α → τ → Prop) :
    τ → Program Op Res α → Prop
  | t, .ret a => R a t
  | t, .perform o k => ∀ r, ∃ t', follows t o r t' ∧ Outline follows R t' (k r)

variable {follows : τ → (o : Op) → Res o → τ → Prop} {R : α → τ → Prop} {t t' : τ}

theorem outline_perform {o : Op} {k : Res o → Program Op Res α}
    (h : ∀ r, ∃ t', follows t o r t' ∧ Outline follows R t' (k r)) :
    Outline follows R t (.perform o k) :=
  h

/-- An operation that leads to one typestate, whatever it answers. -/
theorem outline_always {o : Op} {k : Res o → Program Op Res α} (hf : ∀ r, follows t o r t')
    (hk : ∀ r, Outline follows R t' (k r)) : Outline follows R t (.perform o k) :=
  fun r => ⟨t', hf r, hk r⟩

theorem Outline.bind {R' : β → τ → Prop} {p : Program Op Res α} {f : α → Program Op Res β}
    (hp : Outline follows R t p) (hf : ∀ a t', R a t' → Outline follows R' t' (f a)) :
    Outline follows R' t (p >>= f) := by
  induction p generalizing t with
  | ret a => exact hf a t hp
  | perform o k ih =>
    intro r
    obtain ⟨t', hstep, hk⟩ := hp r
    exact ⟨t', hstep, ih r hk⟩

theorem Outline.mono {R' : α → τ → Prop} {p : Program Op Res α} (hp : Outline follows R t p)
    (hR : ∀ a t', R a t' → R' a t') : Outline follows R' t p := by
  induction p generalizing t with
  | ret a => exact hR a t hp
  | perform o k ih =>
    intro r
    obtain ⟨t', hstep, hk⟩ := hp r
    exact ⟨t', hstep, ih r hk⟩

/-- A typestate that every operation stays in outlines every program. -/
theorem outline_of_loop {p : Program Op Res α} (hloop : ∀ o r, follows t o r t)
    (hR : ∀ a, R a t) : Outline follows R t p := by
  induction p with
  | ret a => exact hR a
  | perform o k ih => exact fun r => ⟨t, hloop o r, ih r⟩

/-- An outline of an embedded program, in the operations it is embedded into. -/
theorem Outline.lift {Op' τ' : Type} {Res' : Op' → Type} {E : Embedding Op Res Op' Res'}
    {follows' : τ' → (o : Op') → Res' o → τ' → Prop} {R' : α → τ' → Prop} {p : Program Op Res α}
    (f : τ → τ') (hp : Outline follows R t p) (hR : ∀ a t, R a t → R' a (f t))
    (h : ∀ t o r t', follows t o (E.res o r) t' → follows' (f t) (E.op o) r (f t')) :
    Outline follows' R' (f t) (p.lift E) := by
  induction p generalizing t with
  | ret a => exact hR a t hp
  | perform o k ih =>
    intro r
    obtain ⟨t', hstep, hk⟩ := hp (E.res o r)
    exact ⟨f t', h _ _ _ _ hstep, ih _ hk⟩

section Sound

variable {M : Machine Op Res χ σ} {C : Contract Op χ σ} (sees : τ → σ → Prop)

/-- A program keeps a contract that the transitions of its outline keep. -/
theorem Outline.wp {p : Program Op Res α} {w : σ} (hp : Outline follows R t p)
    (hstable : ∀ t w w', sees t w → C.rely w w' → C.inv w' → sees t w')
    (hstep : ∀ t o r t' c w u, follows t o r t' → C.ok o c w → C.inv w → sees t w →
      M.exec o c w = some (r, u) → C.inv u ∧ C.guar w u ∧ sees t' u)
    (hw : sees t w) : wp M C (fun a v => ∃ t', R a t' ∧ sees t' v) p w := by
  induction p generalizing t w with
  | ret a => exact fun v hv hi => ⟨t, hp, hstable t w v hw hv hi⟩
  | perform o k ih =>
    intro v hv hi c hc r u hex
    obtain ⟨t', hfol, hk⟩ := hp r
    obtain ⟨hu, hg, hs⟩ := hstep t o r t' c v u hfol hc hi (hstable t w v hw hv hi) hex
    exact ⟨hu, hg, ih r hk hs⟩

end Sound

/-- Programs side by side keep their contracts if the transitions of their outlines do. -/
theorem Parties.valid_of_outlines {ι : Type} {S : System Op Res χ σ} {P : Parties S α}
    (sees : ℕ → τ → σ → Prop) {tasks : List ι} {prog : ι → Program Op Res α} {w : σ}
    {R : ι → α → τ → Prop} (hinv : P.inv w) (hprog : ∀ x, Outline follows (R x) t (prog x))
    (hstable : ∀ {i t w w'}, sees i t w → P.rely i w w' → sees i t w')
    (hstep : ∀ {i t o r t' c w u}, follows t o r t' → P.ok o c w → P.inv w → sees i t w →
      (S.machine i).exec o c w = some (r, u) →
      P.inv u ∧ (∀ j, j ≠ i → P.rely j w u) ∧ sees i t' u)
    (hstart : ∀ i, sees i t w)
    (hpost : ∀ {i x a t v}, tasks[i]? = some x → R x a t → sees i t v → P.post i a v) :
    P.Valid ⟨tasks.map prog, w⟩ := by
  refine ⟨hinv, fun i p hp => ?_⟩
  rw [List.getElem?_map] at hp
  obtain ⟨x, hx, rfl⟩ := Option.map_eq_some_iff.mp hp
  have hwp := (hprog x).wp (M := S.machine i) (C := P.contract i) (sees i)
    (fun _ _ _ hs hr _ => hstable hs hr) (fun _ _ _ _ _ _ _ => hstep) (hstart i)
  refine wp_mono (fun a v hv => ?_) hwp
  obtain ⟨t', hR, hs⟩ := hv
  exact hpost hx hR hs

end Protocol
