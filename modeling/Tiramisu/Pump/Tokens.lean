import Tiramisu.Pump.Outlines

/-!
# The tokens of the master semaphore

A pump's exit decides by its creator's `hasSlot` whether it has a token to
return.  That is right as long as no handle has two pumps at a time, and the
only step that can give it a second one is a creation by a `startNativePump`
whose look at `hasSlot` is out of date.
-/

namespace Tiramisu.Pump

open Protocol Program Transition Finset Option

variable {n : ℕ} {i : ℕ} {w w' w'' u v : World n}

/-- Created, and its goroutine not yet at its end. -/
def World.Alive (w : World n) (ps : ℕ) : Prop := ps ∈ w.fresh ∨ ps ∈ w.running ∨ ps ∈ w.leaving

instance (w : World n) (ps : ℕ) : Decidable (w.Alive ps) := inferInstanceAs (Decidable (_ ∨ _))

/-- No pump that `h` created is alive. -/
def World.Quiet (w : World n) (h : Fin n) : Prop := ∀ ps, w.Alive ps → (w.pump ps).creator ≠ h

structure Accounted (w : World n) : Prop where
  count : w.tokens = w.temporary.card + w.starting.card + w.running.card
  slot : ∀ ps, w.Alive ps → (w.handle (w.pump ps).creator).hasSlot = true
  single : ∀ ps qs, w.Alive ps → w.Alive qs → (w.pump ps).creator = (w.pump qs).creator → ps = qs
  born : ∀ ps, w.Alive ps → ps ∈ w.born
  owner_born : ∀ ps j, (w.pump ps).owner = some j → ps ∈ w.born
  fresh_running : ∀ ps ∈ w.fresh, ps ∉ w.running
  fresh_leaving : ∀ ps ∈ w.fresh, ps ∉ w.leaving
  running_leaving : ∀ ps ∈ w.running, ps ∉ w.leaving

/-- A handle without a slot has no pump. -/
theorem Accounted.quiet (hw : Accounted w) {h : Fin n} (hs : (w.handle h).hasSlot = false) :
    w.Quiet h := by
  rintro ps hps rfl
  rw [hw.slot ps hps] at hs
  cases hs

/-- What party `i` counts on: its tokens and its pumps are its own, and while
it holds `pumpCreationMu` for a handle without a pump, nobody touches that
handle's flag. -/
structure Respects (i : ℕ) (w w' : World n) : Prop where
  starting : i ∈ w'.starting ↔ i ∈ w.starting
  temporary : i ∈ w'.temporary ↔ i ∈ w.temporary
  owned : ∀ ps, (w.pump ps).owner = some i → (w'.pump ps).owner = some i ∧
    (w'.pump ps).creator = (w.pump ps).creator ∧ (ps ∈ w'.fresh ↔ ps ∈ w.fresh) ∧
    (ps ∈ w'.running ↔ ps ∈ w.running) ∧ (ps ∈ w'.leaving ↔ ps ∈ w.leaving)
  creation : ∀ h, w.creation = some (i, h) → w'.creation = some (i, h)
  quiet : ∀ h, w.creation = some (i, h) → w.Quiet h →
    w'.Quiet h ∧ (w'.handle h).hasSlot = (w.handle h).hasSlot

theorem Respects.refl (i : ℕ) (w : World n) : Respects i w w :=
  ⟨Iff.rfl, Iff.rfl, fun _ h => ⟨h, rfl, Iff.rfl, Iff.rfl, Iff.rfl⟩, fun _ h => h,
    fun _ _ h => ⟨h, rfl⟩⟩

theorem Respects.trans (h : Respects i w w') (h' : Respects i w' w'') : Respects i w w'' := by
  refine ⟨h'.starting.trans h.starting, h'.temporary.trans h.temporary, fun ps hps => ?_,
    fun x hx => h'.creation x (h.creation x hx), fun x hx hq => ?_⟩
  · obtain ⟨ho, hc, hf, hr, hl⟩ := h.owned ps hps
    obtain ⟨ho', hc', hf', hr', hl'⟩ := h'.owned ps ho
    exact ⟨ho', hc'.trans hc, hf'.trans hf, hr'.trans hr, hl'.trans hl⟩
  · obtain ⟨hq', hs⟩ := h.quiet x hx hq
    obtain ⟨hq'', hs'⟩ := h'.quiet x (h.creation x hx) hq'
    exact ⟨hq'', hs'.trans hs⟩

/-- `startNativePump` creates a pump only for a handle that has no slot. -/
def freshClaim : Op n → Choice → World n → Prop
  | .claimSlot .start h, _, w => (w.handle h).hasSlot = false
  | _, _, _ => True

instance (o : Op n) (c : Choice) (w : World n) : Decidable (freshClaim o c w) := by
  unfold freshClaim
  split <;> infer_instance

def tokenParties (n : ℕ) : Parties (pumpSystem n) Unit where
  inv := Accounted
  ok := freshClaim
  rely := Respects
  post i _ w := i ∉ w.starting ∧ i ∉ w.temporary
  rely_refl := Respects.refl
  rely_trans _ := Respects.trans
  leave_inv _ _ h := h
  leave_rely _ j w _ _ := Respects.refl j w
  leave_post _ _ _ h := h

/-! ### What the knowledge of a party is worth -/

def Stage.pumps (w : World n) : Stage → Finset ℕ
  | fresh | ready => w.fresh
  | running | unlisted => w.running
  | leaving => w.leaving

structure Sees (i : ℕ) (L : Sight n) (w : World n) : Prop where
  absurd : L.absurd = false
  token : i ∈ w.starting ↔ L.token = true
  temporary : i ∈ w.temporary ↔ L.temporary = true
  lock : ∀ c h, L.lock = some (c, h) → w.creation = some (i, h)
  seen : ∀ c h, L.lock = some (c, h) → L.seen = true →
    w.Quiet h ∧ (w.handle h).hasSlot = L.flagged
  pump : ∀ ps h path s, L.pump = some (ps, h, path, s) →
    (w.pump ps).owner = some i ∧ (w.pump ps).creator = h ∧ ps ∈ s.pumps w

variable {L L' : Sight n} {h : Fin n} {ps : ℕ}

theorem Stage.mem_pumps_iff {s : Stage} (hf : ps ∈ w'.fresh ↔ ps ∈ w.fresh)
    (hr : ps ∈ w'.running ↔ ps ∈ w.running) (hl : ps ∈ w'.leaving ↔ ps ∈ w.leaving) :
    ps ∈ s.pumps w' ↔ ps ∈ s.pumps w := by
  cases s with
  | fresh | ready => exact hf
  | running | unlisted => exact hr
  | leaving => exact hl

theorem Stage.alive {s : Stage} (h : ps ∈ s.pumps w) : w.Alive ps := by
  cases s with
  | fresh | ready => exact .inl h
  | running | unlisted => exact .inr (.inl h)
  | leaving => exact .inr (.inr h)

theorem Sees.stable (hw : Sees i L w) (hr : Respects i w w') : Sees i L w' := by
  refine ⟨hw.absurd, hr.starting.trans hw.token, hr.temporary.trans hw.temporary,
    fun c x hx => hr.creation x (hw.lock c x hx), fun c x hx hs => ?_, fun ps x path s hps => ?_⟩
  · obtain ⟨hq, hb⟩ := hw.seen c x hx hs
    obtain ⟨hq', hb'⟩ := hr.quiet x (hw.lock c x hx) hq
    exact ⟨hq', hb'.trans hb⟩
  · obtain ⟨ho, hc, hmem⟩ := hw.pump ps x path s hps
    obtain ⟨ho', hc', hf, hrun, hl⟩ := hr.owned ps ho
    exact ⟨ho', hc'.trans hc, (Stage.mem_pumps_iff hf hrun hl).mpr hmem⟩

/-- Where a step of party `i` ends up. -/
structure TokenStep (i : ℕ) (L' : Sight n) (w u : World n) : Prop where
  inv : Accounted u
  respects : ∀ j, j ≠ i → Respects j w u
  sees : Sees i L' u

/-! ### Operations that leave tokens, flags and pumps alone -/

structure SameTokens (w u : World n) : Prop where
  tokens : u.tokens = w.tokens
  starting : u.starting = w.starting
  temporary : u.temporary = w.temporary
  creation : u.creation = w.creation
  born : u.born = w.born
  fresh : u.fresh = w.fresh
  running : u.running = w.running
  leaving : u.leaving = w.leaving
  hasSlot : ∀ h, (u.handle h).hasSlot = (w.handle h).hasSlot
  creator : ∀ ps, (u.pump ps).creator = (w.pump ps).creator
  owner : ∀ ps, (u.pump ps).owner = (w.pump ps).owner

namespace SameTokens

theorem refl (w : World n) : SameTokens w w :=
  ⟨rfl, rfl, rfl, rfl, rfl, rfl, rfl, rfl, fun _ => rfl, fun _ => rfl, fun _ => rfl⟩

theorem trans (h : SameTokens w v) (h' : SameTokens v u) : SameTokens w u where
  tokens := h'.tokens.trans h.tokens
  starting := h'.starting.trans h.starting
  temporary := h'.temporary.trans h.temporary
  creation := h'.creation.trans h.creation
  born := h'.born.trans h.born
  fresh := h'.fresh.trans h.fresh
  running := h'.running.trans h.running
  leaving := h'.leaving.trans h.leaving
  hasSlot x := (h'.hasSlot x).trans (h.hasSlot x)
  creator ps := (h'.creator ps).trans (h.creator ps)
  owner ps := (h'.owner ps).trans (h.owner ps)

theorem alive (h : SameTokens w u) (ps : ℕ) : u.Alive ps ↔ w.Alive ps := by
  unfold World.Alive
  rw [h.fresh, h.running, h.leaving]

theorem quiet (h : SameTokens w u) {x : Fin n} (hq : w.Quiet x) : u.Quiet x := by
  intro ps hps
  rw [h.creator]
  exact hq ps ((h.alive ps).mp hps)

theorem respects (h : SameTokens w u) (j : ℕ) : Respects j w u := by
  refine ⟨by rw [h.starting], by rw [h.temporary], fun ps hps => ?_,
    fun x hx => by rw [h.creation, hx], fun x _ hq => ⟨h.quiet hq, h.hasSlot x⟩⟩
  rw [h.owner, h.creator, h.fresh, h.running, h.leaving]
  exact ⟨hps, rfl, Iff.rfl, Iff.rfl, Iff.rfl⟩

theorem accounted (h : SameTokens w u) (hw : Accounted w) : Accounted u where
  count := by rw [h.tokens, h.temporary, h.starting, h.running, hw.count]
  slot ps hps := by rw [h.hasSlot, h.creator]; exact hw.slot ps ((h.alive ps).mp hps)
  single ps qs hps hqs heq := by
    rw [h.creator, h.creator] at heq
    exact hw.single ps qs ((h.alive ps).mp hps) ((h.alive qs).mp hqs) heq
  born ps hps := by rw [h.born]; exact hw.born ps ((h.alive ps).mp hps)
  owner_born ps j hps := by rw [h.owner] at hps; rw [h.born]; exact hw.owner_born ps j hps
  fresh_running := by rw [h.fresh, h.running]; exact hw.fresh_running
  fresh_leaving := by rw [h.fresh, h.leaving]; exact hw.fresh_leaving
  running_leaving := by rw [h.running, h.leaving]; exact hw.running_leaving

/-- Such a step is checked by reading the new knowledge in the new state. -/
theorem step (h : SameTokens w u) (hw : Accounted w) (hL : Sees i L w)
    (hL' : Sees i L u → Sees i L' u) : TokenStep i L' w u :=
  ⟨h.accounted hw, fun j _ => h.respects j, hL' (hL.stable (h.respects i))⟩

end SameTokens

theorem sameTokens_setHandle {x : Handle} (hx : x.hasSlot = (w.handle h).hasSlot) :
    SameTokens w (w.setHandle h x) := by
  refine { SameTokens.refl w with hasSlot := fun y => ?_ }
  by_cases hy : y = h
  · subst hy
    simpa [World.setHandle] using hx
  · simp [World.setHandle, hy]

theorem sameTokens_setPump (ps : ℕ) {x : PumpState n} (hc : x.creator = (w.pump ps).creator)
    (ho : x.owner = (w.pump ps).owner) : SameTokens w (w.setPump ps x) := by
  refine { SameTokens.refl w with creator := fun q => ?_, owner := fun q => ?_ }
  all_goals
    by_cases hq : q = ps
    · subst hq
      simpa [World.setPump]
    · simp [World.setPump, hq]

/-- The operations that are no business of the semaphore. -/
def Op.TokenFree : Op n → Prop
  | loadSlot _ | resolveSlot _ | canTakeSlot | playbackConfirmed | lockHandle _ | unlockHandle _
  | loadActive _ | storeActive _ _ | deleteActive _ | addRef _ _ | dropRef _ _ | loadRef _
  | loadState _ | storeState _ _ | pumpBody _ | closeHandle _ | endRelease _ | cancel _ => True
  | _ => False

theorem Op.Mild.tokenFree {o : Op n} (ho : o.Mild) : o.TokenFree := by
  cases o <;> first | exact trivial | exact ho.elim

theorem sameTokens_exec {o : Op n} {c : Choice} {r : o.Res}
    (hex : exec i o c w = some (r, u)) (ho : o.TokenFree) : SameTokens w u := by
  cases o with
  | loadSlot _ | resolveSlot _ | canTakeSlot | playbackConfirmed | loadActive _ | loadRef _
  | loadState _ | pumpBody _ =>
    cases hex
    exact .refl w
  | lockHandle _ =>
    simp only [exec, ite_none_right_eq_some] at hex
    cases hex.2
    exact sameTokens_setHandle rfl
  | unlockHandle _ | storeState _ _ | closeHandle _ | endRelease _ =>
    cases hex
    exact sameTokens_setHandle rfl
  | storeActive _ _ | deleteActive _ =>
    cases hex
    exact { SameTokens.refl w with }
  | cancel _ =>
    cases hex
    exact sameTokens_setPump _ rfl rfl
  | addRef x qs | dropRef x qs =>
    cases hex
    refine (sameTokens_setPump qs ?_ ?_).trans (sameTokens_setHandle (h := x) ?_) <;> rfl
  | _ => exact ho.elim

/-! ### The other operations -/

section Steps

variable {j : ℕ} {c : Choice}
variable {path : String} {caller : Caller}

lemma hasSlot_setHandle_self {x : Handle} :
    ((w.setHandle h x).handle h).hasSlot = x.hasSlot := by
  simp [World.setHandle]

lemma hasSlot_setHandle_ne {x : Handle} {y : Fin n} (hy : y ≠ h) :
    ((w.setHandle h x).handle y).hasSlot = (w.handle y).hasSlot := by
  simp [World.setHandle, hy]

/-- The others count on little while this party holds `pumpCreationMu`. -/
lemma respects_of_locked (hl : w.creation = some (i, h)) (hj : j ≠ i)
    (hs : j ∈ u.starting ↔ j ∈ w.starting) (ht : j ∈ u.temporary ↔ j ∈ w.temporary)
    (ho : ∀ ps, (w.pump ps).owner = some j → (u.pump ps).owner = some j ∧
      (u.pump ps).creator = (w.pump ps).creator ∧ (ps ∈ u.fresh ↔ ps ∈ w.fresh) ∧
      (ps ∈ u.running ↔ ps ∈ w.running) ∧ (ps ∈ u.leaving ↔ ps ∈ w.leaving)) :
    Respects j w u := by
  have hne : ∀ x, w.creation ≠ some (j, x) := by
    intro x hx
    rw [hl, some.injEq, Prod.mk.injEq] at hx
    exact hj hx.1.symm
  exact ⟨hs, ht, ho, fun x hx => absurd hx (hne x), fun x hx => absurd hx (hne x)⟩

section

variable (hw : Accounted w)

include hw

section

variable (hL : Sees i L w)

include hL

lemma step_lockCreation (hfree : w.creation = none) :
    TokenStep i
      { L with lock := some (caller, h), seen := false, flagged := false, attach := none } w
      { w with creation := some (i, h) } := by
  refine ⟨{ hw with }, fun j _ => ?_, ?_⟩
  · refine { Respects.refl j w with creation := fun x hx => ?_, quiet := fun x hx => ?_ }
    all_goals
      rw [hfree] at hx
      cases hx
  · refine { hL with lock := fun c x hx => ?_, seen := fun _ _ _ hs => absurd hs (by simp) }
    rw [some.injEq, Prod.mk.injEq] at hx
    rw [hx.2]

lemma step_unlockCreation (hlock : L.lock = some (caller, h)) {f : Bool} {a : Option Attach} :
    TokenStep i { L with lock := none, seen := false, flagged := f, attach := a } w
      { w with creation := none } := by
  refine ⟨{ hw with }, fun j hj => ?_, { hL with lock := by simp, seen := by simp }⟩
  exact respects_of_locked (hL.lock _ _ hlock) hj Iff.rfl Iff.rfl
    fun ps hps => ⟨hps, rfl, Iff.rfl, Iff.rfl, Iff.rfl⟩

/-- An attach or a claim sets the flag. -/
lemma step_setSlot {seen : Bool} (hlock : L.lock = some (caller, h))
    (hseen : seen = true → w.Quiet h) :
    TokenStep i { L with seen := seen, flagged := true } w
      (w.setHandle h { w.handle h with hasSlot := true }) := by
  refine ⟨{ hw with slot := fun ps hps => ?_ }, fun j hj => ?_,
    { hL with seen := fun c x hx hs => ?_ }⟩
  · by_cases hc : (w.pump ps).creator = h
    · exact hc ▸ hasSlot_setHandle_self
    · exact (hasSlot_setHandle_ne hc).trans (hw.slot ps hps)
  · exact respects_of_locked (hL.lock _ _ hlock) hj Iff.rfl Iff.rfl
      fun ps hps => ⟨hps, rfl, Iff.rfl, Iff.rfl, Iff.rfl⟩
  · cases hlock.symm.trans hx
    exact ⟨hseen hs, hasSlot_setHandle_self⟩

/-- A party takes tokens or gives them back. -/
lemma step_pay {k : ℕ} {s e : Finset ℕ} {t b : Bool} (hcount : k = e.card + s.card + w.running.card)
    (hs : ∀ j, j ≠ i → (j ∈ s ↔ j ∈ w.starting)) (he : ∀ j, j ≠ i → (j ∈ e ↔ j ∈ w.temporary))
    (ht : i ∈ s ↔ t = true) (hb : i ∈ e ↔ b = true) :
    TokenStep i { L with token := t, temporary := b } w
      { w with tokens := k, starting := s, temporary := e } :=
  ⟨{ hw with count := hcount },
    fun j hj => { Respects.refl j w with starting := hs j hj, temporary := he j hj },
    { hL with token := ht, temporary := hb }⟩

/-- A token is taken for a pump, -/
lemma step_take (ht : L.token = false) :
    TokenStep i { L with token := true } w
      { w with tokens := w.tokens + 1, starting := insert i w.starting } := by
  have hnot : i ∉ w.starting := by
    intro hmem
    rw [hL.token.mp hmem] at ht
    cases ht
  refine step_pay hw hL ?_ (fun j hj => by simp [hj]) (fun _ _ => Iff.rfl) (by simp) hL.temporary
  have hcount := hw.count
  rw [card_insert_of_notMem hnot]
  omega

/-- and given back unused. -/
lemma step_giveBack (ht : L.token = true) :
    TokenStep i { L with token := false } w
      { w with tokens := w.tokens - 1, starting := w.starting.erase i } := by
  have hmem : i ∈ w.starting := hL.token.mpr ht
  refine step_pay hw hL ?_ (fun j hj => by simp [hj]) (fun _ _ => Iff.rfl) (by simp) hL.temporary
  have hcount := hw.count
  have hpos := card_pos.mpr ⟨i, hmem⟩
  rw [card_erase_of_mem hmem]
  omega

lemma step_borrow (ht : L.temporary = false) :
    TokenStep i { L with temporary := true } w
      { w with tokens := w.tokens + 1, temporary := insert i w.temporary } := by
  have hnot : i ∉ w.temporary := by
    intro hmem
    rw [hL.temporary.mp hmem] at ht
    cases ht
  refine step_pay hw hL ?_ (fun _ _ => Iff.rfl) (fun j hj => by simp [hj]) hL.token (by simp)
  have hcount := hw.count
  rw [card_insert_of_notMem hnot]
  omega

lemma step_returnBorrowed (ht : L.temporary = true) :
    TokenStep i { L with temporary := false } w
      { w with tokens := w.tokens - 1, temporary := w.temporary.erase i } := by
  have hmem : i ∈ w.temporary := hL.temporary.mpr ht
  refine step_pay hw hL ?_ (fun _ _ => Iff.rfl) (fun j hj => by simp [hj]) hL.token (by simp)
  have hcount := hw.count
  have hpos := card_pos.mpr ⟨i, hmem⟩
  rw [card_erase_of_mem hmem]
  omega

lemma step_newPump (hlock : L.lock = some (caller, h)) (hs : L.seen = true) (hf : L.flagged = true)
    (hnew : ps ∉ w.born) {a : Option Attach} :
    TokenStep i { L with seen := false, attach := a, pump := some (ps, h, path, .fresh) } w
      (w.addPump i h path ps) := by
  obtain ⟨hquiet, hslot⟩ := hL.seen _ _ hlock hs
  have hdead : ¬ w.Alive ps := fun ha => hnew (hw.born ps ha)
  set u : World n := w.addPump i h path ps with hu
  have hold : ∀ qs, qs ≠ ps → u.pump qs = w.pump qs := fun qs hqs => by simp [hu, hqs]
  have hself : u.pump ps = ⟨path, 1, false, h, some i⟩ := by simp [hu]
  have halive : ∀ qs, u.Alive qs → qs = ps ∨ w.Alive qs := by
    rintro qs (hqs | hqs)
    · rcases mem_insert.mp hqs with rfl | hqs
      · exact .inl rfl
      · exact .inr (.inl hqs)
    · exact .inr (.inr hqs)
  have hpump : ∀ qs, w.Alive qs → u.pump qs = w.pump qs :=
    fun qs hqs => hold qs fun heq => hdead (heq ▸ hqs)
  have hcreator : (u.pump ps).creator = h := congrArg PumpState.creator hself
  have hslots : ∀ y, (u.handle y).hasSlot = (w.handle y).hasSlot := fun y => by simp [hu]
  refine ⟨⟨hw.count, fun qs hqs => ?_, fun qs rs hqs hrs heq => ?_, fun qs hqs => ?_,
    fun qs j hqs => ?_, fun qs hqs => ?_, fun qs hqs => ?_, hw.running_leaving⟩, fun j hj => ?_, ?_⟩
  · rw [hslots]
    rcases halive qs hqs with heq | hold'
    · rw [heq, hcreator, hslot, hf]
    · rw [hpump qs hold']
      exact hw.slot qs hold'
  · rcases halive qs hqs with hq | hq <;> rcases halive rs hrs with hr | hr
    · exact hq.trans hr.symm
    · rw [hq, hpump rs hr, hcreator] at heq
      exact absurd heq.symm (hquiet rs hr)
    · rw [hr, hpump qs hq, hcreator] at heq
      exact absurd heq (hquiet qs hq)
    · rw [hpump qs hq, hpump rs hr] at heq
      exact hw.single qs rs hq hr heq
  · rcases halive qs hqs with rfl | hqs
    · exact mem_insert_self _ _
    · exact mem_insert_of_mem (hw.born qs hqs)
  · by_cases heq : qs = ps
    · exact heq ▸ mem_insert_self _ _
    · refine mem_insert_of_mem (hw.owner_born qs j ?_)
      rw [← hold qs heq]
      exact hqs
  · rcases mem_insert.mp hqs with rfl | hqs
    · exact fun hrun => hdead (.inr (.inl hrun))
    · exact hw.fresh_running qs hqs
  · rcases mem_insert.mp hqs with rfl | hqs
    · exact fun hlv => hdead (.inr (.inr hlv))
    · exact hw.fresh_leaving qs hqs
  · refine respects_of_locked (hL.lock _ _ hlock) hj Iff.rfl Iff.rfl fun qs hqs => ?_
    have hne : qs ≠ ps := fun heq => hnew (heq ▸ hw.owner_born qs j hqs)
    rw [hold qs hne]
    exact ⟨hqs, rfl, by simp [hu, World.addPump, hne], Iff.rfl, Iff.rfl⟩
  · refine { hL with seen := by simp, pump := fun qs y p s hp => ?_ }
    cases hp
    rw [hself]
    exact ⟨rfl, rfl, mem_insert_self _ _⟩

end

end

/-- Of the pumps that are alive only `ps` changes. -/
structure Alters (ps : ℕ) (w u : World n) : Prop where
  alive_self : w.Alive ps
  temporary : u.temporary = w.temporary
  creation : u.creation = w.creation
  born : u.born = w.born
  pump : ∀ qs, qs ≠ ps → u.pump qs = w.pump qs
  creator : (u.pump ps).creator = (w.pump ps).creator
  fresh : ∀ qs, qs ≠ ps → (qs ∈ u.fresh ↔ qs ∈ w.fresh)
  running : ∀ qs, qs ≠ ps → (qs ∈ u.running ↔ qs ∈ w.running)
  leaving : ∀ qs, qs ≠ ps → (qs ∈ u.leaving ↔ qs ∈ w.leaving)
  hasSlot : ∀ x, w.Quiet x → (u.handle x).hasSlot = (w.handle x).hasSlot

namespace Alters

variable {qs : ℕ} {x : Fin n}

theorem refl (h : w.Alive ps) : Alters ps w w :=
  ⟨h, rfl, rfl, rfl, fun _ _ => rfl, rfl, fun _ _ => Iff.rfl, fun _ _ => Iff.rfl,
    fun _ _ => Iff.rfl, fun _ _ => rfl⟩

theorem alive (ha : Alters ps w u) (hqs : u.Alive qs) : w.Alive qs := by
  by_cases hq : qs = ps
  · exact hq ▸ ha.alive_self
  · unfold World.Alive at hqs ⊢
    rwa [ha.fresh qs hq, ha.running qs hq, ha.leaving qs hq] at hqs

theorem creators (ha : Alters ps w u) (qs : ℕ) : (u.pump qs).creator = (w.pump qs).creator := by
  by_cases hq : qs = ps
  · exact hq ▸ ha.creator
  · rw [ha.pump qs hq]

theorem quiet (ha : Alters ps w u) (hx : w.Quiet x) :
    u.Quiet x ∧ (u.handle x).hasSlot = (w.handle x).hasSlot := by
  refine ⟨fun qs hqs => ?_, ha.hasSlot x hx⟩
  rw [ha.creators]
  exact hx qs (ha.alive hqs)

/-- A party's step with a pump of its own. -/
theorem step {t : Bool} {q : Option (ℕ × Fin n × String × Stage)} (ha : Alters ps w u)
    (hw : Accounted w) (hL : Sees i L w) (hown : ∀ j, j ≠ i → (w.pump ps).owner ≠ some j)
    (hcount : u.tokens = u.temporary.card + u.starting.card + u.running.card)
    (hslot : ∀ qs, u.Alive qs → (u.handle (w.pump qs).creator).hasSlot = true)
    (hfresh : ps ∈ u.fresh → ps ∉ u.running ∧ ps ∉ u.leaving)
    (hrun : ps ∈ u.running → ps ∉ u.leaving)
    (hs : ∀ j, j ≠ i → (j ∈ u.starting ↔ j ∈ w.starting)) (ht : i ∈ u.starting ↔ t = true)
    (hq : ∀ qs x path s, q = some (qs, x, path, s) →
      (u.pump qs).owner = some i ∧ (u.pump qs).creator = x ∧ qs ∈ s.pumps u) :
    TokenStep i { L with token := t, pump := q } w u := by
  refine ⟨⟨hcount, fun qs hqs => ?_, fun qs rs hqs hrs heq => ?_, fun qs hqs => ?_, fun qs j hj => ?_,
    fun qs hqs => ?_, fun qs hqs => ?_, fun qs hqs => ?_⟩, fun j hj => ?_, ?_⟩
  · rw [ha.creators]
    exact hslot qs hqs
  · rw [ha.creators, ha.creators] at heq
    exact hw.single qs rs (ha.alive hqs) (ha.alive hrs) heq
  · rw [ha.born]
    exact hw.born qs (ha.alive hqs)
  · rw [ha.born]
    by_cases heq : qs = ps
    · exact heq ▸ hw.born ps ha.alive_self
    · exact hw.owner_born qs j (ha.pump qs heq ▸ hj)
  · by_cases heq : qs = ps
    · exact heq ▸ (hfresh (heq ▸ hqs)).1
    · rw [ha.running qs heq]
      exact hw.fresh_running qs ((ha.fresh qs heq).mp hqs)
  · by_cases heq : qs = ps
    · exact heq ▸ (hfresh (heq ▸ hqs)).2
    · rw [ha.leaving qs heq]
      exact hw.fresh_leaving qs ((ha.fresh qs heq).mp hqs)
  · by_cases heq : qs = ps
    · exact heq ▸ hrun (heq ▸ hqs)
    · rw [ha.leaving qs heq]
      exact hw.running_leaving qs ((ha.running qs heq).mp hqs)
  · refine ⟨hs j hj, by rw [ha.temporary], fun qs hqs => ?_, fun x hx => ha.creation.trans hx,
      fun x _ => ha.quiet⟩
    have hne : qs ≠ ps := fun heq => hown j hj (heq ▸ hqs)
    rw [ha.pump qs hne]
    exact ⟨hqs, rfl, ha.fresh qs hne, ha.running qs hne, ha.leaving qs hne⟩
  · refine ⟨hL.absurd, ht, ha.temporary ▸ hL.temporary,
      fun c x hx => ha.creation.trans (hL.lock c x hx), fun c x hx hs => ?_, hq⟩
    obtain ⟨hqx, hb⟩ := hL.seen c x hx hs
    exact ⟨(ha.quiet hqx).1, (ha.quiet hqx).2.trans hb⟩

end Alters

lemma owner_ne {h : Fin n} {s : Stage} (hL : Sees i L w)
    (hp : L.pump = some (ps, h, path, s)) (hj : j ≠ i) : (w.pump ps).owner ≠ some j := by
  rw [(hL.pump _ _ _ _ hp).1]
  exact fun heq => hj (some.inj heq).symm

/-- The state in which the goroutine of `ps` has the token of party `i`. -/
def World.launched (w : World n) (i ps : ℕ) : World n :=
  { w.setPump ps { w.pump ps with owner := none } with
    fresh := w.fresh.erase ps
    running := insert ps w.running
    starting := w.starting.erase i }

def World.returned (w : World n) (ps : ℕ) : World n :=
  { w with
    tokens := w.tokens - 1
    running := w.running.erase ps
    leaving := insert ps w.leaving }

def World.cleared (w : World n) (h : Fin n) (ps : ℕ) : World n :=
  { w.setHandle h { w.handle h with hasSlot := false } with leaving := w.leaving.erase ps }

@[simp] lemma World.handle_cleared (w : World n) (h y : Fin n) (ps : ℕ) :
    (w.cleared h ps).handle y
      = { w.handle y with hasSlot := if y = h then false else (w.handle y).hasSlot } := by
  by_cases hy : y = h
  · simp [World.cleared, hy]
  · simp [World.cleared, hy]

lemma alters_launched (hf : ps ∈ w.fresh) : Alters ps w (w.launched i ps) :=
  { Alters.refl (.inl hf) with
    pump := fun qs hq => by simp [World.launched, hq]
    creator := by simp [World.launched]
    fresh := fun qs hq => by simp [World.launched, hq]
    running := fun qs hq => by simp [World.launched, hq] }

lemma alters_setOwner {o : Option ℕ} (hr : ps ∈ w.running) :
    Alters ps w (w.setPump ps { w.pump ps with owner := o }) :=
  { Alters.refl (.inr (.inl hr)) with pump := fun qs hq => by simp [hq], creator := by simp }

lemma alters_returned (hr : ps ∈ w.running) : Alters ps w (w.returned ps) :=
  { Alters.refl (.inr (.inl hr)) with
    running := fun qs hq => by simp [World.returned, hq]
    leaving := fun qs hq => by simp [World.returned, hq] }

lemma alters_cleared (hl : ps ∈ w.leaving) (hc : (w.pump ps).creator = h) :
    Alters ps w (w.cleared h ps) := by
  refine { Alters.refl (.inr (.inr hl)) with
    leaving := fun qs hq => by simp [World.cleared, hq], hasSlot := fun x hx => ?_ }
  have hne : x ≠ h := fun heq => hx ps (.inr (.inr hl)) (hc.trans heq.symm)
  simp [hne]

lemma step_launch (hw : Accounted w) (hL : Sees i L w) (ht : L.token = true)
    (hp : L.pump = some (ps, h, path, .ready)) :
    TokenStep i { L with token := false, pump := none } w (w.launched i ps) := by
  have hmem : i ∈ w.starting := hL.token.mpr ht
  have hfresh : ps ∈ w.fresh := (hL.pump _ _ _ _ hp).2.2
  have ha := alters_launched (i := i) hfresh
  refine ha.step hw hL (fun j => owner_ne hL hp) ?_ (fun qs hqs => hw.slot qs (ha.alive hqs))
    (by simp [World.launched]) (fun _ => hw.fresh_leaving ps hfresh)
    (fun j hj => by simp [World.launched, hj]) (by simp [World.launched]) (by simp)
  have hcount := hw.count
  have hpos := card_pos.mpr ⟨i, hmem⟩
  show w.tokens = w.temporary.card + (w.starting.erase i).card + (insert ps w.running).card
  rw [card_erase_of_mem hmem, card_insert_of_notMem (hw.fresh_running ps hfresh)]
  omega

lemma step_nextPump (hw : Accounted w) (hL : Sees i L w) (hrun : ps ∈ w.running)
    (hnone : (w.pump ps).owner = none) :
    TokenStep i
      { L with pump := some (ps, (w.pump ps).creator, (w.pump ps).path, .running) } w
      (w.setPump ps { w.pump ps with owner := some i }) := by
  refine (alters_setOwner hrun).step hw hL (by simp [hnone]) hw.count hw.slot
    (fun hf => ⟨hw.fresh_running ps hf, hw.fresh_leaving ps hf⟩) (hw.running_leaving ps)
    (fun _ _ => Iff.rfl) hL.token fun qs y p s hp => ?_
  cases hp
  exact ⟨by simp, by simp, hrun⟩

/-- A pump that owns a token returns it, -/
lemma step_returnToken (hw : Accounted w) (hL : Sees i L w)
    (hp : L.pump = some (ps, h, path, .unlisted)) :
    TokenStep i { L with pump := some (ps, h, path, .leaving) } w (w.returned ps) := by
  obtain ⟨hown, hcreator, hmem⟩ := hL.pump _ _ _ _ hp
  have hrun : ps ∈ w.running := hmem
  have ha := alters_returned hrun
  refine ha.step hw hL (fun j => owner_ne hL hp) ?_ (fun qs hqs => hw.slot qs (ha.alive hqs))
    (fun hf => absurd hrun (hw.fresh_running ps hf)) (by simp [World.returned]) (fun _ _ => Iff.rfl)
    hL.token fun qs y p s hq => ?_
  · have hcount := hw.count
    have hpos := card_pos.mpr ⟨ps, hrun⟩
    show w.tokens - 1 = w.temporary.card + w.starting.card + (w.running.erase ps).card
    rw [card_erase_of_mem hrun]
    omega
  · cases hq
    exact ⟨hown, hcreator, mem_insert_self _ _⟩

/-- and clears the flag of a handle that has no other pump. -/
lemma step_clearSlot (hw : Accounted w) (hL : Sees i L w)
    (hp : L.pump = some (ps, h, path, .leaving)) :
    TokenStep i { L with pump := none } w (w.cleared h ps) := by
  obtain ⟨hown, hcreator, hmem⟩ := hL.pump _ _ _ _ hp
  have hlv : ps ∈ w.leaving := hmem
  have ha := alters_cleared hlv hcreator
  refine ha.step hw hL (fun j => owner_ne hL hp) hw.count (fun qs hqs => ?_)
    (fun hf => absurd hlv (hw.fresh_leaving ps hf)) (fun hr => absurd hlv (hw.running_leaving ps hr))
    (fun _ _ => Iff.rfl) hL.token (by simp)
  have hne : qs ≠ ps := by
    rintro rfl
    rcases hqs with hf | hr | hl
    · exact hw.fresh_leaving qs hf hlv
    · exact hw.running_leaving qs hr hlv
    · exact ne_of_mem_erase hl rfl
  -- the handle has no other pump that is alive
  have hother : (w.pump qs).creator ≠ h := fun heq =>
    hne (hw.single qs ps (ha.alive hqs) ha.alive_self (heq.trans hcreator.symm))
  simpa [hother] using hw.slot qs (ha.alive hqs)

end Steps

/-! ### Every run -/

variable {pathOf : Fin n → String} {c : Choice}

lemma eq_of_exec {α : Type} {a b : α} (h : some (a, w) = some (b, u)) : b = a ∧ u = w := by
  cases h
  exact ⟨rfl, rfl⟩

theorem token_step {o : Op n} {r : o.Res} (hf : Follows pathOf L o r L') (hok : freshClaim o c w)
    (hw : Accounted w) (hL : Sees i L w) (hex : exec i o c w = some (r, u)) :
    TokenStep i L' w u := by
  cases hf with
  | absurd habs => cases hL.absurd.symm.trans habs
  | mild ho => exact (sameTokens_exec hex ho.tokenFree).step hw hL id
  | lock _ _ =>
    simp only [exec, ite_none_right_eq_some] at hex
    obtain ⟨-, rfl⟩ := eq_of_exec hex.2
    exact step_lockCreation hw hL hex.1
  | pass hlock _ _ | settle hlock _ _ _ _ =>
    obtain ⟨-, rfl⟩ := eq_of_exec hex
    exact step_unlockCreation hw hL hlock
  | look hlock _ hfl _ =>
    obtain ⟨hr, rfl⟩ := eq_of_exec hex
    refine (SameTokens.refl u).step hw hL fun _ => ?_
    refine { hL with seen := fun k x hx hs => ?_ }
    cases hlock.symm.trans hx
    have hslot := hr.symm.trans (by simpa using hs)
    exact ⟨hw.quiet hslot, hslot.trans hfl.symm⟩
  | lookAgain hlock hs =>
    obtain ⟨hr, rfl⟩ := eq_of_exec hex
    refine (SameTokens.refl u).step hw hL fun _ => ?_
    refine { hL with absurd := ?_ }
    have hslot := hr.trans (hL.seen _ _ hlock hs).2
    simp [hL.absurd, hslot]
  | target _ _ _ _ | count _ _ | list _ _ _ | store _ _ _ | close _ _ | find _ | slotless _
  | compare _ | uncount _ | closed _ =>
    exact (sameTokens_exec hex trivial).step hw hL fun h => { h with }
  | flag hlock _ _ =>
    obtain ⟨-, rfl⟩ := eq_of_exec hex
    exact step_setSlot hw hL hlock fun hs => (hL.seen _ _ hlock hs).1
  | @claim caller _ hlock hs hfl _ =>
    obtain ⟨-, rfl⟩ := eq_of_exec hex
    refine step_setSlot hw hL hlock fun _ => ?_
    cases caller with
    | start => exact hw.quiet hok
    | read => exact (hL.seen _ _ hlock (hs.resolve_right (by simp))).1
  | create hlock hs hfl _ _ =>
    simp only [exec, ite_none_left_eq_some] at hex
    obtain ⟨rfl, rfl⟩ := eq_of_exec hex.2
    exact step_newPump hw hL hlock hs hfl hex.1
  | launch ht hp =>
    obtain ⟨-, rfl⟩ := eq_of_exec hex
    exact step_launch hw hL ht hp
  | begin _ =>
    simp only [exec, ite_none_right_eq_some] at hex
    obtain ⟨rfl, rfl⟩ := eq_of_exec hex.2
    exact step_nextPump hw hL hex.1.1 hex.1.2
  | own _ _ hp | unlisted hp _ | unlist hp =>
    refine (sameTokens_exec hex trivial).step hw hL fun h => { h with pump := fun qs y p s hq => ?_ }
    cases hq
    obtain ⟨hown, hcreator, hmem⟩ := h.pump _ _ _ _ hp
    exact ⟨hown, hcreator, hmem⟩
  | orphan hp =>
    obtain ⟨hr, rfl⟩ := eq_of_exec hex
    refine (SameTokens.refl u).step hw hL fun _ => ?_
    refine { hL with absurd := ?_ }
    -- the creator of a pump that has not left yet still has its flag
    obtain ⟨-, rfl, hmem⟩ := hL.pump _ _ _ _ hp
    simp [hL.absurd, hr, hw.slot _ (Stage.alive hmem)]
  | repay hp =>
    obtain ⟨-, rfl⟩ := eq_of_exec hex
    exact step_returnToken hw hL hp
  | clear hp =>
    obtain ⟨-, rfl⟩ := eq_of_exec hex
    exact step_clearSlot hw hL hp
  | acquire ht =>
    simp only [exec] at hex
    split_ifs at hex with hfree
    · obtain ⟨rfl, rfl⟩ := eq_of_exec hex
      exact step_take hw hL ht
    · obtain ⟨rfl, rfl⟩ := eq_of_exec hex
      exact (SameTokens.refl u).step hw hL fun h =>
        { h with token := by rw [h.token, ht] }
  | giveBack ht =>
    simp only [exec, ite_none_right_eq_some] at hex
    obtain ⟨-, rfl⟩ := eq_of_exec hex.2
    exact step_giveBack hw hL ht
  | borrow ht =>
    simp only [exec] at hex
    split_ifs at hex with hwait hfree
    · obtain ⟨rfl, rfl⟩ := eq_of_exec hex
      exact step_borrow hw hL ht
    · obtain ⟨rfl, rfl⟩ := eq_of_exec hex
      exact (SameTokens.refl u).step hw hL fun h =>
        { h with temporary := by rw [h.temporary, ht] }
  | returnBorrowed ht =>
    simp only [exec, ite_none_right_eq_some] at hex
    obtain ⟨-, rfl⟩ := eq_of_exec hex.2
    exact step_returnBorrowed hw hL ht

lemma accounted_opened [NeZero n] {capacity : ℕ} : Accounted (World.opened capacity : World n) := by
  constructor <;> simp [World.opened, World.Alive]

lemma sees_opened [NeZero n] (capacity : ℕ) :
    Sees i Sight.start (World.opened capacity : World n) := by
  constructor <;> simp [World.opened, Sight.start]

/-- As long as `startNativePump` creates no pump for a handle that has a slot
by then, every token is one read's, is on its way to a pump or belongs to a
pump that has not returned it; no finished goroutine other than a pump's
creator has left one behind. -/
theorem tokens_belong_to_running_pumps [NeZero n] (pathOf : Fin n → String) (capacity : ℕ)
    (gs : List (Goroutine n)) {ls : List (ℕ × Move Choice)}
    {cfg : Config (Op n) Op.Res Unit (World n)}
    (hrun : Run (Guarded (Allowed freshClaim) (pumpSystem n).Step)
      (together pathOf capacity gs) ls cfg) :
    cfg.state.tokens
        = cfg.state.temporary.card + cfg.state.starting.card + cfg.state.running.card ∧
      ∀ i : ℕ, cfg.procs[i]? = some (.ret ()) →
        i ∉ cfg.state.starting ∧ i ∉ cfg.state.temporary := by
  have hvalid : (tokenParties n).Valid (together pathOf capacity gs) := by
    refine Parties.valid_of_outlines Sees accounted_opened (kept_program pathOf) Sees.stable
      (fun hf hok hw hL hex => ?_) (fun _ => sees_opened capacity) ?_
    · have hstep := token_step hf hok hw hL hex
      exact ⟨hstep.inv, hstep.respects, hstep.sees⟩
    · intro i g _ L v _ hover hL
      obtain rfl : L = Sight.start := hover.resolve_right (by simp [hL.absurd])
      exact ⟨fun h => absurd (hL.token.mp h) (by simp [Sight.start]),
        fun h => absurd (hL.temporary.mp h) (by simp [Sight.start])⟩
  have hend := hvalid.run hrun
  exact ⟨hend.inv.count, fun i hi => hend.post hi⟩

/-! ### A handle that gets two pumps -/

/-- The next `k` operations of one goroutine; pump states are numbered `id`. -/
def turns (i k id : ℕ) : List (ℕ × Move Choice) := List.replicate k (i, .act ⟨true, id⟩)

/-- One handle; its late `startNativePump`, a read, `media.stop` and two pumps. -/
def twoPumps : Config (Op 1) Op.Res Unit (World 1) :=
  together (fun _ => "movie.mkv") 25 [.start 0, .read 0, .stop "movie.mkv", .pump, .pump]

/-- The first pump ends before the read creates another. -/
def singlePumpEnd : Option (Config (Op 1) Op.Res Unit (World 1)) :=
  runSchedule (pumpSystem 1) freshClaim twoPumps
    (turns 0 14 7 ++ turns 3 9 7 ++ turns 1 14 8 ++ turns 4 2 8)

theorem one_pump_holds_one_token :
    ∃ cfg, singlePumpEnd = some cfg ∧ cfg.state.born = {7, 8} ∧ cfg.state.running = {8} ∧
      cfg.state.tokens = 1 ∧
      cfg.state.tokens
        = cfg.state.temporary.card + cfg.state.starting.card + cfg.state.running.card := by
  obtain ⟨cfg, hcfg, hborn, hrunning, htokens⟩ : ∃ cfg ∈ singlePumpEnd,
      cfg.state.born = {7, 8} ∧ cfg.state.running = {8} ∧ cfg.state.tokens = 1 := by decide +kernel
  refine ⟨cfg, hcfg, hborn, hrunning, htokens, ?_⟩
  exact (tokens_belong_to_running_pumps _ _ _ (run_of_runSchedule hcfg)).1

/-- `startNativePump` looks at the flag before the read upgrades; it comes back
when `media.stop` has forgotten the read's pump, and creates a second one.
Both pumps end, but only the first finds the flag set. -/
def forgottenPumpSchedule : List (ℕ × Move Choice) :=
  turns 0 2 0 ++ turns 1 14 1 ++ turns 2 3 0 ++ turns 0 12 2 ++ turns 3 8 1 ++ turns 4 8 2

def forgottenPumpEnd : Option (Config (Op 1) Op.Res Unit (World 1)) :=
  runSchedule (pumpSystem 1) (fun _ _ _ => True) twoPumps forgottenPumpSchedule

theorem second_pump_leaves_its_token :
    ∃ cfg, Run (pumpSystem 1).Step twoPumps forgottenPumpSchedule cfg ∧
      (cfg.procs.all fun p => p.result?.isSome) = true ∧ cfg.state.tokens = 1 ∧
      cfg.state.temporary.card + cfg.state.starting.card + cfg.state.running.card = 0 := by
  refine exists_run_of_runSchedule (?_ : ∃ cfg ∈ forgottenPumpEnd, _)
  decide +kernel

end Tiramisu.Pump
