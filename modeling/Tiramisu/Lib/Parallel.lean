import Tiramisu.Lib.Program

/-!
# Programs side by side

A configuration holds the programs of several parties and the state they
share.  One party moves at a time, by one operation, and a party whose program
has ended retires.  `Parties` collects what the parties promise each other;
the promises are checked program by program and hold along every run.
-/

namespace Protocol

open Transition

variable {Op : Type} {Res : Op → Type} {χ σ α : Type}

structure Config (Op : Type) (Res : Op → Type) (α σ : Type) where
  procs : List (Program Op Res α)
  state : σ

inductive Move (χ : Type)
  | act (c : χ)
  | retire

/-- Each party's machine (its steps may leave a trace of who made them), and
what becomes of the state when a party retires. -/
structure System (Op : Type) (Res : Op → Type) (χ σ : Type) where
  machine : ℕ → Machine Op Res χ σ
  leave : ℕ → σ → σ

namespace System

variable (S : System Op Res χ σ)

def step (cfg : Config Op Res α σ) (l : ℕ × Move χ) : Option (Config Op Res α σ) :=
  match cfg.procs[l.1]?, l.2 with
  | some (.perform o k), .act c =>
    ((S.machine l.1).exec o c cfg.state).map fun (r, w) => ⟨cfg.procs.set l.1 (k r), w⟩
  | some (.ret _), .retire => some ⟨cfg.procs, S.leave l.1 cfg.state⟩
  | _, _ => none

def Step (cfg : Config Op Res α σ) (l : ℕ × Move χ) (cfg' : Config Op Res α σ) : Prop :=
  S.step cfg l = some cfg'

variable {S} {cfg cfg' : Config Op Res α σ} {i : ℕ}

lemma step_act {c : χ} (h : S.Step cfg (i, .act c) cfg') :
    ∃ o k r w, cfg.procs[i]? = some (.perform o k) ∧
      (S.machine i).exec o c cfg.state = some (r, w) ∧ cfg' = ⟨cfg.procs.set i (k r), w⟩ := by
  unfold Step step at h
  split at h
  · rename_i o k c' hproc hmove
    obtain rfl : c = c' := Move.act.inj hmove
    obtain ⟨⟨r, w⟩, hex, rfl⟩ := Option.map_eq_some_iff.mp h
    exact ⟨o, k, r, w, hproc, hex, rfl⟩
  · rename_i hmove
    cases hmove
  · cases h

lemma step_retire (h : S.Step cfg (i, .retire) cfg') :
    (∃ a, cfg.procs[i]? = some (.ret a)) ∧ cfg' = ⟨cfg.procs, S.leave i cfg.state⟩ := by
  unfold Step step at h
  split at h
  · rename_i hmove
    cases hmove
  · rename_i a hproc _
    exact ⟨⟨a, hproc⟩, (Option.some.inj h).symm⟩
  · cases h

end System

/-- A condition on the operation a move performs. -/
def Allowed (ok : Op → χ → σ → Prop) (cfg : Config Op Res α σ) (l : ℕ × Move χ) : Prop :=
  match cfg.procs[l.1]?, l.2 with
  | some (.perform o _), .act c => ok o c cfg.state
  | _, _ => True

instance (ok : Op → χ → σ → Prop) [∀ o c w, Decidable (ok o c w)] (cfg : Config Op Res α σ)
    (l : ℕ × Move χ) : Decidable (Allowed ok cfg l) := by
  unfold Allowed
  split <;> infer_instance

lemma Allowed.act {ok : Op → χ → σ → Prop} {cfg : Config Op Res α σ} {i : ℕ} {c : χ} {o : Op}
    {k : Res o → Program Op Res α} (h : Allowed ok cfg (i, .act c))
    (hproc : cfg.procs[i]? = some (.perform o k)) : ok o c cfg.state := by
  simpa [Allowed, hproc] using h

/-- What holds for everybody, which moves are considered, what each party may
count on the others to respect, and what it ends with. -/
structure Parties (S : System Op Res χ σ) (α : Type) where
  inv : σ → Prop
  ok : Op → χ → σ → Prop
  rely : ℕ → σ → σ → Prop
  post : ℕ → α → σ → Prop
  rely_refl : ∀ i w, rely i w w
  rely_trans : ∀ i {w w' w''}, rely i w w' → rely i w' w'' → rely i w w''
  leave_inv : ∀ i w, inv w → inv (S.leave i w)
  leave_rely : ∀ i j w, i ≠ j → inv w → rely j w (S.leave i w)
  leave_post : ∀ i a w, (∀ w', rely i w w' → inv w' → post i a w') →
    ∀ w', rely i (S.leave i w) w' → inv w' → post i a w'

namespace Parties

variable {S : System Op Res χ σ} (P : Parties S α)

/-- A party respects what every other party counts on. -/
def contract (i : ℕ) : Contract Op χ σ where
  inv := P.inv
  ok := P.ok
  rely := P.rely i
  guar w w' := ∀ j, j ≠ i → P.rely j w w'
  rely_refl := P.rely_refl i
  rely_trans := P.rely_trans i

/-- Every party keeps its contract from here on. -/
structure Valid (cfg : Config Op Res α σ) : Prop where
  inv : P.inv cfg.state
  procs : ∀ i p, cfg.procs[i]? = some p →
    wp (S.machine i) (P.contract i) (P.post i) p cfg.state

variable {P} {cfg cfg' : Config Op Res α σ}

theorem Valid.step {l : ℕ × Move χ} (h : P.Valid cfg) (hok : Allowed P.ok cfg l)
    (hstep : S.Step cfg l cfg') : P.Valid cfg' := by
  obtain ⟨i, m⟩ := l
  cases m with
  | retire =>
    obtain ⟨⟨a, hret⟩, rfl⟩ := System.step_retire hstep
    refine ⟨P.leave_inv i _ h.inv, fun j p hp => ?_⟩
    by_cases hij : i = j
    · subst hij
      cases hret.symm.trans hp
      exact P.leave_post i a _ (h.procs i _ hret)
    · exact wp_stable (h.procs j p hp) (P.leave_rely i j _ hij h.inv)
  | act c =>
    obtain ⟨o, k, r, w, hproc, hex, rfl⟩ := System.step_act hstep
    obtain ⟨hinv, hguar, hk⟩ := h.procs i _ hproc _ (P.rely_refl i _) h.inv c (hok.act hproc)
      r w hex
    refine ⟨hinv, fun j p hp => ?_⟩
    by_cases hij : i = j
    · subst hij
      have hlt : i < cfg.procs.length := (List.getElem?_eq_some_iff.mp hproc).1
      obtain rfl : k r = p := by simpa [List.getElem?_set_self hlt] using hp
      exact hk
    · rw [List.getElem?_set_ne hij] at hp
      exact wp_stable (h.procs j p hp) (hguar j (Ne.symm hij))

/-- A party that has ended ends with what it promised. -/
theorem Valid.post {i : ℕ} {a : α} (h : P.Valid cfg) (hret : cfg.procs[i]? = some (.ret a)) :
    P.post i a cfg.state :=
  h.procs i _ hret _ (P.rely_refl i _) h.inv

/-- What the parties keep holds after every run of allowed moves. -/
theorem Valid.run {ls : List (ℕ × Move χ)} (h : P.Valid cfg)
    (hrun : Run (Guarded (Allowed P.ok) S.Step) cfg ls cfg') : P.Valid cfg' :=
  hrun.invariant (fun _ _ _ hs hst => hs.step hst.1 hst.2) h

end Parties

/-! ### Running a schedule -/

section Schedule

variable (S : System Op Res χ σ) (ok : Op → χ → σ → Prop) [∀ o c w, Decidable (ok o c w)]

/-- Follow a schedule; `none` when a move is not possible or not allowed. -/
def runSchedule (cfg : Config Op Res α σ) : List (ℕ × Move χ) → Option (Config Op Res α σ)
  | [] => some cfg
  | l :: ls =>
    if Allowed ok cfg l then (S.step cfg l).bind fun cfg' => runSchedule cfg' ls else none

variable {S ok}

theorem run_of_runSchedule {cfg cfg' : Config Op Res α σ} {ls : List (ℕ × Move χ)}
    (h : runSchedule S ok cfg ls = some cfg') :
    Run (Guarded (Allowed ok) S.Step) cfg ls cfg' := by
  induction ls generalizing cfg with
  | nil =>
    cases h
    exact .nil _
  | cons l ls ih =>
    unfold runSchedule at h
    split_ifs at h with hok
    obtain ⟨cfg1, hstep, hrest⟩ := Option.bind_eq_some_iff.mp h
    exact .cons ⟨hok, hstep⟩ (ih hrest)

/-- What a schedule ends in, in a system where every move is allowed. -/
theorem exists_run_of_runSchedule {cfg : Config Op Res α σ} {ls : List (ℕ × Move χ)}
    {P : Config Op Res α σ → Prop} (h : ∃ cfg' ∈ runSchedule S (fun _ _ _ => True) cfg ls, P cfg') :
    ∃ cfg', Run S.Step cfg ls cfg' ∧ P cfg' := by
  obtain ⟨cfg', hrun, hP⟩ := h
  exact ⟨cfg', (run_of_runSchedule hrun).mono fun _ _ _ h => h.2, hP⟩

end Schedule

end Protocol
