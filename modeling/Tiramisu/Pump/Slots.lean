import Tiramisu.Lib.Finishing
import Tiramisu.Pump.References

/-!
# A slot stands for a live pump

`hasSlot` is what lets a read pass the master semaphore.  Attaching sets the
flag of the handle that attaches, but a pump's exit clears only the flag of the
handle that created it; the flags mean what they say as long as a pump leaves
only when no other open handle relies on it.
-/

namespace Tiramisu.Pump

open Protocol Program Transition Finset Option

variable {n : ℕ} {i j : ℕ} {w w' w'' u : World n} {L L' : Sight n} {h y : Fin n} {ps qs : ℕ}
  {pathOf : Fin n → String}

/-- The pump a handle with a slot relies on. -/
def World.Settled (pathOf : Fin n → String) (w : World n) (h : Fin n) : Prop :=
  (w.handle h).hasSlot = true → ∃ ps, (w.handle h).pumpState = some ps ∧ w.Alive ps ∧
    (w.pump ps).path = pathOf h ∧ (ps ∈ w.leaving → (w.pump ps).creator = h)

/-- Its goroutine has not given its token back. -/
def World.Live (w : World n) (ps : ℕ) : Prop := ps ∈ w.fresh ∨ ps ∈ w.running

structure Served (pathOf : Fin n → String) (w : World n) : Prop where
  accounted : Accounted w
  path : ∀ p ps, w.active p = some ps → (w.pump ps).path = p
  listed : ∀ ps, w.Listed ps → w.Live ps
  settled : ∀ h, (∀ i, w.creation ≠ some (i, h)) → (w.handle h).closer = none →
    w.Settled pathOf h

structure ServeRespects (pathOf : Fin n → String) (i : ℕ) (w w' : World n) : Prop where
  tokens : Respects i w w'
  born : ∀ ps ∈ w.born, ps ∈ w'.born ∧ (w'.pump ps).path = (w.pump ps).path
  live : ∀ h, w.creation = some (i, h) → ∀ ps, w.Live ps → w'.Live ps
  settled : ∀ h, w.creation = some (i, h) →
    ((w.handle h).closer = none → w.Settled pathOf h) →
    (w'.handle h).closer = none → w'.Settled pathOf h
  state : ∀ h, w.creation = some (i, h) → (w'.handle h).pumpState = (w.handle h).pumpState
  unlisted : ∀ ps, (w.pump ps).owner = some i → ¬ w.Listed ps → ¬ w'.Listed ps

theorem ServeRespects.refl (i : ℕ) (w : World n) : ServeRespects pathOf i w w where
  tokens := Respects.refl i w
  born _ h := ⟨h, rfl⟩
  live _ _ _ h := h
  settled _ _ h ho := h ho
  state _ _ := rfl
  unlisted _ _ h := h

theorem ServeRespects.trans (h : ServeRespects pathOf i w w') (h' : ServeRespects pathOf i w' w'') :
    ServeRespects pathOf i w w'' where
  tokens := h.tokens.trans h'.tokens
  born ps hps := by
    obtain ⟨hb, hp⟩ := h.born ps hps
    obtain ⟨hb', hp'⟩ := h'.born ps hb
    exact ⟨hb', hp'.trans hp⟩
  live x hx ps hps := h'.live x (h.tokens.creation x hx) ps (h.live x hx ps hps)
  settled x hx hs := h'.settled x (h.tokens.creation x hx) (h.settled x hx hs)
  state x hx := (h'.state x (h.tokens.creation x hx)).trans (h.state x hx)
  unlisted ps ho hl := h'.unlisted ps (h.tokens.owned ps ho).1 (h.unlisted ps ho hl)

/-- `startNativePump` creates a pump only for a handle without a slot; a pump
leaves only while nobody attaches and no other open handle relies on it; a read
does not look at the flag while a pump of the handle is coming or leaving. -/
def leavesNobody : Op n → Choice → World n → Prop
  | .claimSlot .start h, _, w => (w.handle h).hasSlot = false
  | .returnToken ps, _, w => w.creation = none ∧ ∀ h, h ≠ (w.pump ps).creator →
      (w.handle h).closer = none → (w.handle h).hasSlot = true → (w.handle h).pumpState ≠ some ps
  | .resolveSlot h, _, w =>
    (∀ x ∈ w.creation, x.2 ≠ h) ∧ ∀ ps ∈ w.leaving, (w.pump ps).creator ≠ h
  | _, _, _ => True

instance (o : Op n) (c : Choice) (w : World n) : Decidable (leavesNobody o c w) := by
  apply Op.casesOn (motive := fun o => Decidable (leavesNobody o c w)) o
  case claimSlot =>
    intro caller h
    apply Caller.casesOn (motive := fun k => Decidable (leavesNobody (.claimSlot k h) c w)) caller <;>
      dsimp only [leavesNobody] <;> infer_instance
  all_goals
    intros
    dsimp only [leavesNobody]
    infer_instance

lemma leavesNobody.freshClaim {o : Op n} {c : Choice} (hok : leavesNobody o c w) :
    freshClaim o c w := by
  unfold Pump.freshClaim
  split
  · exact hok
  · trivial

def slotParties (pathOf : Fin n → String) : Parties (pumpSystem n) Unit where
  inv := Served pathOf
  ok := leavesNobody
  rely := ServeRespects pathOf
  post _ _ _ := True
  rely_refl := ServeRespects.refl
  rely_trans _ := ServeRespects.trans
  leave_inv _ _ h := h
  leave_rely _ j w _ _ := ServeRespects.refl j w
  leave_post _ _ _ h := h

/-! ### What a party knows about the pumps it deals with -/

structure Serves (pathOf : Fin n → String) (L : Sight n) (w : World n) : Prop where
  settled : ∀ c h, L.lock = some (c, h) → L.attach = none → L.flagged = false →
    (w.handle h).closer = none → w.Settled pathOf h
  attach : ∀ c h, ∀ a ∈ L.attach, L.lock = some (c, h) → w.Live a.ps ∧ a.ps ∈ w.born ∧
    (w.pump a.ps).path = pathOf h ∧ (a.stored = true → (w.handle h).pumpState = some a.ps)
  pump : ∀ ps h path s, L.pump = some (ps, h, path, s) → ps ∈ w.born ∧ (w.pump ps).path = path ∧
    (s = .unlisted ∨ s = .leaving → ¬ w.Listed ps)

theorem Serves.stable (hs : Serves pathOf L w) (hL : Sees i L w)
    (hr : ServeRespects pathOf i w w') : Serves pathOf L w' where
  settled c h hl ha hf := hr.settled h (hL.lock c h hl) (hs.settled c h hl ha hf)
  attach c h a ha hl := by
    obtain ⟨hlive, hborn, hpath, hst⟩ := hs.attach c h a ha hl
    obtain ⟨hborn', hpath'⟩ := hr.born _ hborn
    exact ⟨hr.live h (hL.lock c h hl) _ hlive, hborn', hpath'.trans hpath,
      fun ho => (hr.state h (hL.lock c h hl)).trans (hst ho)⟩
  pump ps h path s hp := by
    obtain ⟨hborn, hpath, hunl⟩ := hs.pump ps h path s hp
    obtain ⟨hborn', hpath'⟩ := hr.born _ hborn
    exact ⟨hborn', hpath'.trans hpath, fun ho => hr.unlisted ps (hL.pump _ _ _ _ hp).1 (hunl ho)⟩

/-- Where a step of party `i` ends up. -/
structure ServeStep (pathOf : Fin n → String) (i : ℕ) (L' : Sight n) (w u : World n) : Prop where
  inv : Served pathOf u
  respects : ∀ j, j ≠ i → ServeRespects pathOf j w u
  serves : Serves pathOf L' u

/-! ### Steps during which no pump leaves -/

/-- The pumps there are stay, and no handle is reopened. -/
structure Carries (w u : World n) : Prop where
  born : ∀ ps ∈ w.born, ps ∈ u.born ∧ (u.pump ps).path = (w.pump ps).path ∧
    (u.pump ps).creator = (w.pump ps).creator
  live : ∀ ps, w.Live ps → u.Live ps
  leaving : u.leaving = w.leaving
  active : ∀ p ps, u.active p = some ps → w.active p = some ps
  closer : ∀ h, (u.handle h).closer = none → (w.handle h).closer = none

/-- The handle is not flagged and points where it did. -/
structure Intact (w u : World n) (h : Fin n) : Prop where
  hasSlot : (u.handle h).hasSlot = true → (w.handle h).hasSlot = true
  state : (u.handle h).pumpState = (w.handle h).pumpState

namespace Carries

theorem refl (w : World n) : Carries w w :=
  ⟨fun _ hb => ⟨hb, rfl, rfl⟩, fun _ hl => hl, rfl, fun _ _ ha => ha, fun _ ho => ho⟩

section

variable (hc : Carries w u)

include hc

theorem listed (hl : u.Listed ps) : w.Listed ps := by
  obtain ⟨p, hp⟩ := hl
  exact ⟨p, hc.active p ps hp⟩

theorem alive (ha : w.Alive ps) : u.Alive ps := by
  rcases ha with hf | hr | hl
  · exact (hc.live ps (.inl hf)).imp_right .inl
  · exact (hc.live ps (.inr hr)).imp_right .inl
  · exact .inr (.inr (hc.leaving ▸ hl))

theorem settled (hi : Intact w u h) (hw : Accounted w) (hs : w.Settled pathOf h) :
    u.Settled pathOf h := by
  intro hslot
  obtain ⟨ps, hst, hal, hpath, hlv⟩ := hs (hi.hasSlot hslot)
  obtain ⟨-, hp, hcr⟩ := hc.born ps (hw.born ps hal)
  exact ⟨ps, hi.state.trans hst, hc.alive hal, hp.trans hpath,
    fun hmem => hcr.trans (hlv (hc.leaving ▸ hmem))⟩

theorem served (hw : Served pathOf w) (ha : Accounted u)
    (hi : ∀ h, (∀ i, u.creation ≠ some (i, h)) → Intact w u h ∧
      ((∀ i, w.creation ≠ some (i, h)) ∨ ((w.handle h).closer = none → w.Settled pathOf h))) :
    Served pathOf u where
  accounted := ha
  path p ps hp := by
    have hps := hc.active p ps hp
    have hborn := hw.accounted.born ps ((hw.listed ps ⟨p, hps⟩).imp_right .inl)
    exact (hc.born ps hborn).2.1.trans (hw.path p ps hps)
  listed ps hl := hc.live ps (hw.listed ps (hc.listed hl))
  settled h hfree ho := by
    obtain ⟨hint, hfree | hs⟩ := hi h hfree
    · exact hc.settled hint hw.accounted (hw.settled h hfree (hc.closer h ho))
    · exact hc.settled hint hw.accounted (hs (hc.closer h ho))

theorem respects (hw : Accounted w) (hr : Respects j w u)
    (hi : ∀ h, w.creation = some (j, h) → Intact w u h) : ServeRespects pathOf j w u where
  tokens := hr
  born ps hps := ⟨(hc.born ps hps).1, (hc.born ps hps).2.1⟩
  live _ _ := hc.live
  settled h hx hs ho := hc.settled (hi h hx) hw (hs (hc.closer h ho))
  state h hx := (hi h hx).state
  unlisted _ _ hl hl' := hl (hc.listed hl')

theorem pump (hs : Serves pathOf L w) :
    ∀ ps h path s, L.pump = some (ps, h, path, s) → ps ∈ u.born ∧ (u.pump ps).path = path ∧
      (s = .unlisted ∨ s = .leaving → ¬ u.Listed ps) := by
  intro ps h path s hp
  obtain ⟨hborn, hpath, hunl⟩ := hs.pump ps h path s hp
  obtain ⟨hb, hp', -⟩ := hc.born _ hborn
  exact ⟨hb, hp'.trans hpath, fun ho hl => hunl ho (hc.listed hl)⟩

theorem serves (hi : ∀ h, Intact w u h) (hw : Accounted w) (hs : Serves pathOf L w) :
    Serves pathOf L u where
  settled k x hx ha hf ho := hc.settled (hi x) hw (hs.settled k x hx ha hf (hc.closer x ho))
  attach k x a ha hx := by
    obtain ⟨hlive, hborn, hpath, hst⟩ := hs.attach k x a ha hx
    obtain ⟨hb, hp, -⟩ := hc.born _ hborn
    exact ⟨hc.live _ hlive, hb, hp.trans hpath, fun ho => (hi x).state.trans (hst ho)⟩
  pump := hc.pump hs

/-- A step that touches no handle and leaves `pumpCreationMu` alone. -/
theorem step (hi : ∀ h, Intact w u h) (hw : Served pathOf w) (hst : TokenStep i L' w u)
    (hcr : u.creation = w.creation) (hs : Serves pathOf L' w) : ServeStep pathOf i L' w u :=
  ⟨hc.served hw hst.inv fun h hfree => ⟨hi h, .inl (hcr ▸ hfree)⟩,
    fun j hj => hc.respects hw.accounted (hst.respects j hj) fun h _ => hi h,
    hc.serves hi hw.accounted hs⟩

/-- A step on the handle the party attaches. -/
theorem locked {caller : Caller} (hi : ∀ y, y ≠ h → Intact w u y) (hw : Served pathOf w)
    (hL : Sees i L w) (hlock : L.lock = some (caller, h)) (hst : TokenStep i L' w u)
    (hcr : u.creation = w.creation) (hs : Serves pathOf L' u) : ServeStep pathOf i L' w u := by
  have hheld := hL.lock _ _ hlock
  refine ⟨hc.served hw hst.inv fun y hfree => ?_, fun j hj =>
    hc.respects hw.accounted (hst.respects j hj) fun y hy => ?_, hs⟩
  · rw [hcr] at hfree
    refine ⟨hi y ?_, .inl hfree⟩
    rintro rfl
    exact hfree i hheld
  · rw [hheld, some.injEq, Prod.mk.injEq] at hy
    exact absurd hy.1.symm hj

end

end Carries

theorem carries_of_undisturbed (hu : Undisturbed w u) (hs : SameTokens w u) : Carries w u where
  born ps hps := ⟨hu.born ▸ hps, hu.path ps, hu.creator ps⟩
  live ps hps := by
    unfold World.Live at hps ⊢
    rwa [hs.fresh, hs.running]
  leaving := hs.leaving
  active := hu.active
  closer h ho := (hu.closer h).symm.trans ho

theorem intact_of_undisturbed (hu : Undisturbed w u) (hs : SameTokens w u) (h : Fin n) :
    Intact w u h :=
  ⟨fun ho => (hs.hasSlot h).symm.trans ho, hu.state h⟩

/-! ### The steps -/

section Steps

variable {c : Choice} {caller : Caller}

/-- One handle is rewritten. -/
lemma carries_setHandle {x : Handle} (hx : x.closer = none → (w.handle h).closer = none) :
    Carries w (w.setHandle h x) := by
  refine ⟨fun _ hb => ⟨hb, rfl, rfl⟩, fun _ hl => hl, rfl, fun _ _ ha => ha, fun y hy => ?_⟩
  by_cases hyh : y = h
  · subst hyh
    exact hx (by simpa [World.setHandle] using hy)
  · simpa [World.setHandle, hyh] using hy

lemma intact_setHandle_ne {x : Handle} (hy : y ≠ h) : Intact w (w.setHandle h x) y := by
  constructor <;> simp [World.setHandle, hy]

lemma intact_setHandle {x : Handle} (hs : x.hasSlot = (w.handle h).hasSlot)
    (hp : x.pumpState = (w.handle h).pumpState) : Intact w (w.setHandle h x) y := by
  by_cases hy : y = h
  · subst hy
    constructor <;> simp [World.setHandle, hs, hp]
  · exact intact_setHandle_ne hy

/-- The count of a pump and the share of a handle play no part here. -/
lemma carries_recount {x : Handle} {z : PumpState n} (hz : z.path = (w.pump ps).path)
    (hc : z.creator = (w.pump ps).creator) (hx : x.closer = (w.handle h).closer) :
    Carries w ((w.setPump ps z).setHandle h x) := by
  refine ⟨fun q hq => ⟨hq, ?_⟩, fun _ hl => hl, rfl, fun _ _ ha => ha, fun y hy => ?_⟩
  · by_cases hqp : q = ps
    · subst hqp
      simp [World.setHandle, World.setPump, hz, hc]
    · simp [World.setHandle, World.setPump, hqp]
  · by_cases hyh : y = h
    · subst hyh
      simpa [World.setHandle, World.setPump, hx] using hy
    · simpa [World.setHandle, World.setPump, hyh] using hy

lemma intact_recount {x : Handle} {z : PumpState n} (hs : x.hasSlot = (w.handle h).hasSlot)
    (hp : x.pumpState = (w.handle h).pumpState) :
    Intact w ((w.setPump ps z).setHandle h x) y := by
  by_cases hy : y = h
  · subst hy
    constructor <;> simp [World.setHandle, World.setPump, hs, hp]
  · constructor <;> simp [World.setHandle, World.setPump, hy]

/-- The lock plays no part. -/
lemma carries_lock {l : Option (ℕ × Fin n)} : Carries w { w with creation := l } :=
  { Carries.refl w with }

section

variable (hw : Served pathOf w)

include hw

lemma serve_lock (hs : Serves pathOf L w) (hfree : w.creation = none)
    (hst : TokenStep i
      { L with lock := some (caller, h), seen := false, flagged := false, attach := none } w
      { w with creation := some (i, h) }) :
    ServeStep pathOf i
      { L with lock := some (caller, h), seen := false, flagged := false, attach := none } w
      { w with creation := some (i, h) } := by
  have hi : ∀ y, Intact w { w with creation := some (i, h) } y := fun y => ⟨id, rfl⟩
  refine ⟨carries_lock.served hw hst.inv fun y _ => ⟨hi y, .inl (by simp [hfree])⟩,
    fun j hj => carries_lock.respects hw.accounted (hst.respects j hj) fun y _ => hi y,
    fun k y hy _ _ ho => ?_, by simp, fun _ _ _ _ hq => carries_lock.pump hs _ _ _ _ hq⟩
  exact carries_lock.settled (hi y) hw.accounted (hw.settled y (by simp [hfree]) ho)

section

variable (hL : Sees i L w)

include hL

lemma serve_unlock {f : Bool} {a : Option Attach} (hs : Serves pathOf L w)
    (hlock : L.lock = some (caller, h))
    (hst : TokenStep i { L with lock := none, seen := false, flagged := f, attach := a } w
      { w with creation := none }) (hset : (w.handle h).closer = none → w.Settled pathOf h) :
    ServeStep pathOf i { L with lock := none, seen := false, flagged := f, attach := a } w
      { w with creation := none } := by
  have hi : ∀ y, Intact w { w with creation := none } y := fun y => ⟨id, rfl⟩
  refine ⟨carries_lock.served hw hst.inv fun y _ => ⟨hi y, ?_⟩, fun j hj =>
    carries_lock.respects hw.accounted (hst.respects j hj) fun y _ => hi y,
    ⟨by simp, by simp, fun _ _ _ _ hq => carries_lock.pump hs _ _ _ _ hq⟩⟩
  by_cases hy : y = h
  · exact .inr (hy ▸ hset)
  · refine .inl fun k hk => ?_
    rw [hL.lock _ _ hlock, some.injEq, Prod.mk.injEq] at hk
    exact hy hk.2.symm

lemma serve_setSlot {s : Bool} (hs : Serves pathOf L w) (hlock : L.lock = some (caller, h))
    (hst : TokenStep i { L with seen := s, flagged := true } w
      (w.setHandle h { w.handle h with hasSlot := true })) :
    ServeStep pathOf i { L with seen := s, flagged := true } w
      (w.setHandle h { w.handle h with hasSlot := true }) := by
  have hc : Carries w (w.setHandle h { w.handle h with hasSlot := true }) := carries_setHandle id
  refine hc.locked (fun y hy => intact_setHandle_ne hy) hw hL hlock hst rfl
    ⟨by simp, fun k x a ha hx => ?_, fun _ _ _ _ hq => hc.pump hs _ _ _ _ hq⟩
  obtain ⟨hlive, hborn, hpath, hstate⟩ := hs.attach k x a ha hx
  refine ⟨hlive, hborn, hpath, fun ho => ?_⟩
  by_cases hxh : x = h
  · subst hxh
    simpa [World.setHandle] using hstate ho
  · simpa [World.setHandle, hxh] using hstate ho

lemma serve_storeState {o k : Bool} {p : Option (ℕ × Fin n × String × Stage)}
    (hs : Serves pathOf L w) (hlock : L.lock = some (caller, h))
    (ha : L.attach = some ⟨ps, o, k, false⟩) (hp : p = L.pump ∨ p = some (ps, h, pathOf h, .ready))
    (hst : TokenStep i { L with attach := some ⟨ps, o, k, true⟩, pump := p } w
      (w.setHandle h { w.handle h with pumpState := some ps })) :
    ServeStep pathOf i { L with attach := some ⟨ps, o, k, true⟩, pump := p } w
      (w.setHandle h { w.handle h with pumpState := some ps }) := by
  have hc : Carries w (w.setHandle h { w.handle h with pumpState := some ps }) :=
    carries_setHandle id
  obtain ⟨hlive, hborn, hpath, -⟩ := hs.attach _ _ _ ha hlock
  refine hc.locked (fun y hy => intact_setHandle_ne hy) hw hL hlock hst rfl
    ⟨by simp, fun k x a hat hx => ?_, fun qs x path s hq => ?_⟩
  · obtain ⟨-, rfl⟩ := lock_inj hlock hx
    cases hat
    exact ⟨hlive, hborn, hpath, fun _ => by simp [World.setHandle]⟩
  · rcases hp with rfl | rfl
    · exact hc.pump hs _ _ _ _ hq
    · cases hq
      exact ⟨hborn, hpath, by simp⟩

lemma serve_create (hlock : L.lock = some (caller, h)) (hnew : ps ∉ w.born)
    (hst : TokenStep i
      { L with
        seen := false
        attach := some ⟨ps, true, true, false⟩
        pump := some (ps, h, pathOf h, .fresh) } w (w.addPump i h (pathOf h) ps)) :
    ServeStep pathOf i
      { L with
        seen := false
        attach := some ⟨ps, true, true, false⟩
        pump := some (ps, h, pathOf h, .fresh) } w (w.addPump i h (pathOf h) ps) := by
  set u : World n := w.addPump i h (pathOf h) ps with hu
  have hpath : (u.pump ps).path = pathOf h := by simp [hu]
  have hc : Carries w u := by
    refine ⟨fun qs hqs => ⟨mem_insert_of_mem hqs, ?_⟩,
      fun qs hl => hl.imp_left mem_insert_of_mem, rfl, fun _ _ ha => ha, by simp [hu]⟩
    have hq : qs ≠ ps := fun heq => hnew (heq ▸ hqs)
    simp [hu, hq]
  have hborn : ps ∈ u.born := mem_insert_self _ _
  refine hc.locked (fun y _ => ⟨by simp [hu], by simp [hu]⟩) hw hL hlock hst rfl
    ⟨by simp, fun k x a hat hx => ?_, fun qs x path s hq => ?_⟩
  · obtain ⟨-, rfl⟩ := lock_inj hlock hx
    cases hat
    exact ⟨.inl (mem_insert_self _ _), hborn, hpath, by simp⟩
  · cases hq
    exact ⟨hborn, hpath, by simp⟩

/-- A pump is registered before it starts. -/
lemma serve_list (hs : Serves pathOf L w) (hp : L.pump = some (ps, h, pathOf h, .fresh))
    (hst : TokenStep i L w (w.setActive (pathOf h) (some ps))) :
    ServeStep pathOf i L w (w.setActive (pathOf h) (some ps)) := by
  obtain ⟨hown, -, hmem⟩ := hL.pump _ _ _ _ hp
  obtain ⟨hborn, hpath, -⟩ := hs.pump _ _ _ _ hp
  refine ⟨⟨hst.inv, fun p qs hq => ?_, fun qs hl => ?_, hw.settled⟩, fun j hj =>
    ⟨hst.respects j hj, fun _ hb => ⟨hb, rfl⟩, fun _ _ _ hl => hl, fun _ _ hset => hset,
      fun _ _ => rfl, fun qs hq hnl hl => ?_⟩, ⟨hs.settled, hs.attach, fun qs x path s hq => ?_⟩⟩
  · rcases active_of_setActive hq with ⟨rfl, rfl⟩ | hq
    · exact hpath
    · exact hw.path p qs hq
  · rcases listed_of_setActive hl with rfl | hl
    · exact .inl hmem
    · exact hw.listed qs hl
  · rcases listed_of_setActive hl with rfl | hl
    · exact hj (some.inj (hq.symm.trans hown))
    · exact hnl hl
  · rw [hp, some.injEq, Prod.mk.injEq, Prod.mk.injEq, Prod.mk.injEq] at hq
    obtain ⟨rfl, rfl, rfl, rfl⟩ := hq
    exact ⟨hborn, hpath, by simp⟩

/-- A pump on which no other open handle relies returns its token, -/
lemma serve_returnToken {path : String} (hs : Serves pathOf L w)
    (hp : L.pump = some (ps, h, path, .unlisted)) (hok : leavesNobody (.returnToken ps) c w)
    (hst : TokenStep i { L with pump := some (ps, h, path, .leaving) } w (w.returned ps)) :
    ServeStep pathOf i { L with pump := some (ps, h, path, .leaving) } w (w.returned ps) := by
  obtain ⟨hborn, hpath, hunl⟩ := hs.pump _ _ _ _ hp
  obtain ⟨hfree, hnobody⟩ := hok
  have hnolock : ∀ k x, L.lock ≠ some (k, x) := by
    intro k x hx
    rw [hL.lock k x hx] at hfree
    cases hfree
  have hlive : ∀ qs, qs ≠ ps → w.Live qs → (w.returned ps).Live qs :=
    fun qs hq hl => hl.imp_right fun hr => mem_erase.mpr ⟨hq, hr⟩
  have halive : ∀ qs, w.Alive qs → (w.returned ps).Alive qs := by
    intro qs hal
    by_cases hq : qs = ps
    · exact .inr (.inr (hq ▸ mem_insert_self _ _))
    · rcases hal with hf | hr | hlv
      · exact .inl hf
      · exact .inr (.inl (mem_erase.mpr ⟨hq, hr⟩))
      · exact .inr (.inr (mem_insert_of_mem hlv))
  refine ⟨⟨hst.inv, hw.path, fun qs hl => ?_, fun y hc ho hslot => ?_⟩, fun j hj =>
    ⟨hst.respects j hj, fun _ hb => ⟨hb, rfl⟩, fun x hx => ?_, fun x hx => ?_, fun _ _ => rfl,
      fun _ _ hnl => hnl⟩, ⟨fun k x hx => absurd hx (hnolock k x),
      fun k x _ _ hx => absurd hx (hnolock k x), fun qs x p s hq => ?_⟩⟩
  · have hq : qs ≠ ps := fun heq => hunl (.inl rfl) (heq ▸ hl)
    exact hlive qs hq (hw.listed qs hl)
  · obtain ⟨qs, hstate, hal, hqpath, hlv⟩ := hw.settled y hc ho hslot
    refine ⟨qs, hstate, halive qs hal, hqpath, fun hmem => ?_⟩
    rcases mem_insert.mp hmem with rfl | hmem
    · by_contra hne
      exact hnobody y (fun heq => hne heq.symm) ho hslot hstate
    · exact hlv hmem
  · rw [hfree] at hx
    cases hx
  · rw [hfree] at hx
    cases hx
  · cases hq
    exact ⟨hborn, hpath, fun _ => hunl (.inl rfl)⟩

/-- and clears the flag of the only handle that may still point to it. -/
lemma serve_clearSlot {path : String} (hs : Serves pathOf L w)
    (hp : L.pump = some (ps, h, path, .leaving))
    (hst : TokenStep i { L with pump := none } w (w.cleared h ps)) :
    ServeStep pathOf i { L with pump := none } w (w.cleared h ps) := by
  obtain ⟨-, hcreator, hmem⟩ := hL.pump _ _ _ _ hp
  have hset : ∀ y, w.Settled pathOf y → (w.cleared h ps).Settled pathOf y := by
    intro y hy hslot
    have hyh : y ≠ h := by
      rintro rfl
      simp at hslot
    obtain ⟨qs, hst, hal, hqpath, hlv⟩ := hy (by simpa [hyh] using hslot)
    have hq : qs ≠ ps := by
      rintro rfl
      exact hyh ((hlv hmem).symm.trans hcreator)
    refine ⟨qs, by simpa using hst, ?_, hqpath, fun hm => hlv (mem_of_mem_erase hm)⟩
    exact hal.imp_right fun hr => hr.imp_right fun hm => mem_erase.mpr ⟨hq, hm⟩
  refine ⟨⟨hst.inv, hw.path, hw.listed, fun y hc ho => ?_⟩, fun j hj =>
    ⟨hst.respects j hj, fun _ hb => ⟨hb, rfl⟩, fun _ _ _ hl => hl, fun x _ hx ho => ?_,
      by simp, fun _ _ hnl => hnl⟩, ⟨fun k x hx ha hf ho => ?_, fun k x a ha hx => ?_, by simp⟩⟩
  · rw [World.handle_cleared] at ho
    exact hset y (hw.settled y hc ho)
  · rw [World.handle_cleared] at ho
    exact hset x (hx ho)
  · rw [World.handle_cleared] at ho
    exact hset x (hs.settled k x hx ha hf ho)
  · obtain ⟨hlive, hborn, hpath, hst⟩ := hs.attach k x a ha hx
    exact ⟨hlive, hborn, hpath, by simpa using hst⟩

end

end

end Steps

/-! ### Every run -/

section Runs

variable {c : Choice}

/-- Only the tokens, the pump or the release in hand change in what a party knows. -/
lemma Serves.with {b d : Bool} {q : Option (ℕ × Fin n × String × Stage)}
    {k : Option (Fin n × Closing)} (hs : Serves pathOf L w)
    (hq : ∀ ps x path s, q = some (ps, x, path, s) → ps ∈ w.born ∧ (w.pump ps).path = path ∧
      (s = .unlisted ∨ s = .leaving → ¬ w.Listed ps)) :
    Serves pathOf { L with token := b, temporary := d, pump := q, close := k } w :=
  ⟨hs.settled, hs.attach, hq⟩

/-- Nothing has changed. -/
lemma serve_same (hw : Served pathOf w) (hst : TokenStep i L' w w) (hs : Serves pathOf L' w) :
    ServeStep pathOf i L' w w :=
  (carries_of_undisturbed (.refl w) (.refl w)).step (intact_of_undisturbed (.refl w) (.refl w)) hw
    hst rfl hs

/-- An attached handle points to a pump that is not on its way out. -/
lemma Serves.settled_of_stored {caller : Caller} {a : Attach} (hs : Serves pathOf L w)
    (hw : Served pathOf w) (hlock : L.lock = some (caller, h)) (ha : L.attach = some a)
    (hstored : a.stored = true) : w.Settled pathOf h := by
  obtain ⟨hlive, -, hpath, hstate⟩ := hs.attach _ _ _ ha hlock
  refine fun _ => ⟨_, hstate hstored, hlive.imp_right .inl, hpath, fun hlv => ?_⟩
  rcases hlive with hfr | hrun
  · exact absurd hlv (hw.accounted.fresh_leaving _ hfr)
  · exact absurd hlv (hw.accounted.running_leaving _ hrun)

/-- The pump registered for the path of the locked handle is a live one. -/
lemma Serves.target {caller : Caller} {r : Option ℕ} (hs : Serves pathOf L w)
    (hw : Served pathOf w) (hlock : L.lock = some (caller, h)) (ha : L.attach = none)
    (hr : r = w.active (pathOf h)) :
    Serves pathOf { L with attach := r.map fun ps => ⟨ps, false, false, false⟩ } w := by
  refine ⟨fun k y hy _ hfl ho => hs.settled k y hy ha hfl ho, fun k y a hat hy => ?_, hs.pump⟩
  obtain ⟨-, rfl⟩ := lock_inj hlock hy
  cases r with
  | none => cases hat
  | some ps =>
    cases hat
    have hlive := hw.listed ps ⟨_, hr.symm⟩
    exact ⟨hlive, hw.accounted.born ps (hlive.imp_right .inl), hw.path _ _ hr.symm, by simp⟩

lemma carries_setOwner {owner : Option ℕ} :
    Carries w (w.setPump ps { w.pump ps with owner := owner }) := by
  have hset : Undisturbed w (w.setPump ps { w.pump ps with owner := owner }) :=
    undisturbed_setPump ps rfl rfl rfl
  exact { Carries.refl w with born := fun qs hqs => ⟨hqs, hset.path qs, hset.creator qs⟩ }

lemma carries_launched : Carries w (w.launched i ps) := by
  have hset : Carries w (w.setPump ps { w.pump ps with owner := none }) := carries_setOwner
  refine { hset with live := fun qs hl => ?_ }
  by_cases hq : qs = ps
  · exact .inr (hq ▸ mem_insert_self _ _)
  · exact hl.imp (fun hm => mem_erase.mpr ⟨hq, hm⟩) mem_insert_of_mem

theorem serve_step {o : Op n} {r : o.Res} (hf : Follows pathOf L o r L') (hok : leavesNobody o c w)
    (hw : Served pathOf w) (hL : Sees i L w) (hs : Serves pathOf L w)
    (hst : TokenStep i L' w u) (hex : exec i o c w = some (r, u)) :
    ServeStep pathOf i L' w u := by
  cases hf with
  | absurd habs => cases hL.absurd.symm.trans habs
  | mild ho =>
    have hu := undisturbed_exec hex ho
    have hsame := sameTokens_exec hex ho.tokenFree
    exact (carries_of_undisturbed hu hsame).step (intact_of_undisturbed hu hsame) hw hst
      hsame.creation hs
  | lock _ _ =>
    simp only [exec, ite_none_right_eq_some] at hex
    obtain ⟨-, rfl⟩ := eq_of_exec hex.2
    exact serve_lock hw hs hex.1 hst
  | pass hlock hfl ha =>
    obtain ⟨-, rfl⟩ := eq_of_exec hex
    exact serve_unlock hw hL hs hlock hst (hs.settled _ _ hlock ha hfl)
  | settle hlock _ ha _ hstored =>
    obtain ⟨-, rfl⟩ := eq_of_exec hex
    exact serve_unlock hw hL hs hlock hst fun _ => hs.settled_of_stored hw hlock ha hstored
  | look _ _ _ _ | lookAgain _ _ | orphan _ =>
    obtain ⟨-, rfl⟩ := eq_of_exec hex
    exact serve_same hw hst ⟨hs.settled, hs.attach, hs.pump⟩
  | target hlock _ _ ha =>
    obtain ⟨hr, rfl⟩ := eq_of_exec hex
    exact serve_same hw hst (hs.target hw hlock ha hr)
  | count hlock ha =>
    obtain ⟨-, rfl⟩ := eq_of_exec hex
    refine Carries.step ?_ ?_ hw hst rfl ⟨fun _ _ _ hn => ?_, fun k y a hat hy => ?_, hs.pump⟩
    · exact carries_recount rfl rfl rfl
    · exact fun _ => intact_recount rfl rfl
    · cases hn
    · cases hat
      obtain ⟨hlive, hborn, hpath, hstate⟩ := hs.attach k y _ ha hy
      exact ⟨hlive, hborn, hpath, hstate⟩
  | store hlock ha _ =>
    obtain ⟨-, rfl⟩ := eq_of_exec hex
    exact serve_storeState hw hL hs hlock ha (.inl rfl) hst
  | flag hlock _ _ | claim hlock _ _ _ =>
    obtain ⟨-, rfl⟩ := eq_of_exec hex
    exact serve_setSlot hw hL hs hlock hst
  | create hlock _ _ _ _ =>
    simp only [exec, ite_none_left_eq_some] at hex
    obtain ⟨rfl, rfl⟩ := eq_of_exec hex.2
    exact serve_create hw hL hlock hex.1 hst
  | list _ _ hp =>
    obtain ⟨-, rfl⟩ := eq_of_exec hex
    exact serve_list hw hL hs hp hst
  | own hlock ha _ =>
    obtain ⟨-, rfl⟩ := eq_of_exec hex
    exact serve_storeState hw hL hs hlock ha (.inr rfl) hst
  | launch _ hp =>
    obtain ⟨-, rfl⟩ := eq_of_exec hex
    exact carries_launched.step (fun _ => ⟨id, rfl⟩) hw hst rfl (hs.with (by simp))
  | begin _ =>
    simp only [exec, ite_none_right_eq_some] at hex
    obtain ⟨rfl, rfl⟩ := eq_of_exec hex.2
    refine carries_setOwner.step (fun _ => ⟨id, rfl⟩) hw hst rfl (hs.with fun qs x path s hq => ?_)
    cases hq
    exact ⟨hw.accounted.born _ (.inr (.inl hex.1.1)), rfl, by simp⟩
  | @unlisted x path ps r hp hne =>
    obtain ⟨hr, rfl⟩ := eq_of_exec hex
    obtain ⟨hborn, hpath, -⟩ := hs.pump _ _ _ _ hp
    refine serve_same hw hst (hs.with fun qs y p s hq => ?_)
    cases hq
    exact ⟨hborn, hpath, fun _ => not_listed hw.path hpath (hr ▸ hne)⟩
  | @unlist x path ps hp =>
    have hu := undisturbed_exec hex trivial
    have hsame := sameTokens_exec hex trivial
    have hc := carries_of_undisturbed hu hsame
    obtain ⟨-, rfl⟩ := eq_of_exec hex
    obtain ⟨hborn, hpath, -⟩ := hs.pump _ _ _ _ hp
    have hi := intact_of_undisturbed hu hsame
    have hserved := hc.served hw hst.inv fun y hfree => ⟨hi y, .inl hfree⟩
    refine ⟨hserved, fun j hj => hc.respects hw.accounted (hst.respects j hj) fun y _ => hi y,
      (hc.serves hi hw.accounted hs).with fun qs y p s hq => ?_⟩
    cases hq
    exact ⟨hborn, hpath, fun _ => not_listed hserved.path hpath (by simp)⟩
  | repay hp =>
    obtain ⟨-, rfl⟩ := eq_of_exec hex
    exact serve_returnToken hw hL hs hp hok hst
  | clear hp =>
    obtain ⟨-, rfl⟩ := eq_of_exec hex
    exact serve_clearSlot hw hL hs hp hst
  | acquire _ | borrow _ =>
    simp only [exec] at hex
    split_ifs at hex
    · obtain ⟨rfl, rfl⟩ := eq_of_exec hex
      exact Carries.step { Carries.refl w with } (fun _ => ⟨id, rfl⟩) hw hst rfl (hs.with hs.pump)
    · obtain ⟨rfl, rfl⟩ := eq_of_exec hex
      exact serve_same hw hst (hs.with hs.pump)
  | giveBack _ | returnBorrowed _ =>
    simp only [exec, ite_none_right_eq_some] at hex
    obtain ⟨-, rfl⟩ := eq_of_exec hex.2
    exact Carries.step { Carries.refl w with } (fun _ => ⟨id, rfl⟩) hw hst rfl (hs.with hs.pump)
  | close _ _ =>
    obtain ⟨-, rfl⟩ := eq_of_exec hex
    refine Carries.step ?_ ?_ hw hst rfl (hs.with hs.pump)
    · exact carries_setHandle (by simp)
    · exact fun _ => intact_setHandle rfl rfl
  | find _ | slotless _ | compare _ =>
    obtain ⟨-, rfl⟩ := eq_of_exec hex
    exact serve_same hw hst (hs.with hs.pump)
  | uncount _ =>
    obtain ⟨-, rfl⟩ := eq_of_exec hex
    refine Carries.step ?_ ?_ hw hst rfl (hs.with hs.pump)
    · exact carries_recount rfl rfl rfl
    · exact fun _ => intact_recount rfl rfl
  | closed _ =>
    obtain ⟨-, rfl⟩ := eq_of_exec hex
    refine Carries.step ?_ ?_ hw hst rfl (hs.with hs.pump)
    · exact carries_setHandle id
    · exact fun _ => intact_setHandle rfl rfl

lemma served_opened [NeZero n] {capacity : ℕ} :
    Served pathOf (World.opened capacity : World n) := by
  refine ⟨accounted_opened, ?_, ?_, ?_⟩ <;>
    simp [World.opened, World.Listed, World.Settled, Handle.opened]

lemma serves_opened [NeZero n] {capacity : ℕ} :
    Serves pathOf Sight.start (World.opened capacity : World n) := by
  constructor <;> simp [Sight.start]

theorem served_of_run [NeZero n] {capacity : ℕ} {gs : List (Goroutine n)}
    {ls : List (ℕ × Move Choice)} {cfg : Config (Op n) Op.Res Unit (World n)}
    (hrun : Run (Guarded (Allowed leavesNobody) (pumpSystem n).Step)
      (together pathOf capacity gs) ls cfg) : Served pathOf cfg.state := by
  have hvalid : (slotParties pathOf).Valid (together pathOf capacity gs) := by
    refine Parties.valid_of_outlines (fun i L w => Sees i L w ∧ Serves pathOf L w) served_opened
      (kept_program pathOf) (fun hs hr => ⟨hs.1.stable hr.tokens, hs.2.stable hs.1 hr⟩)
      (fun hf hok hw hs hex => ?_) (fun _ => ⟨sees_opened capacity, serves_opened⟩)
      fun _ _ _ => trivial
    have htok := token_step hf hok.freshClaim hw.accounted hs.1 hex
    have hstep := serve_step hf hok hw hs.1 hs.2 htok hex
    exact ⟨hstep.inv, hstep.respects, htok.sees, hstep.serves⟩
  exact (hvalid.run hrun).inv

/-! ### A handle without a slot can get one -/

/-- The handle has a slot again, and a pump on its path that holds a token. -/
def World.Regained (pathOf : Fin n → String) (h : Fin n) (w : World n) : Prop :=
  (w.handle h).hasSlot = true ∧ ∃ ps, (w.handle h).pumpState = some ps ∧ w.Live ps ∧
    (w.pump ps).path = pathOf h

section Regain

variable {α : Type} {Q : α → World n → Prop}

lemma can_perform {o : Op n} {k : o.Res → Prog n α} {r : o.Res} (c : Choice)
    (hex : exec i o c w = some (r, u)) (hk : CanFinish (machine i) Q (k r) u) :
    CanFinish (machine i) Q (.perform o k) w :=
  ⟨c, r, u, hex, hk⟩

lemma can_look {k : Bool → Prog n α} {b : Bool} (hs : (w.handle h).hasSlot = b)
    (hk : CanFinish (machine i) Q (k b) w) : CanFinish (machine i) Q (.perform (.loadSlot h) k) w := by
  subst hs
  exact can_perform ⟨true, 0⟩ rfl hk

lemma can_find {k : Option ℕ → Prog n α} {p : String} {r : Option ℕ} (ha : w.active p = r)
    (hk : CanFinish (machine i) Q (k r) w) :
    CanFinish (machine i) Q (.perform (.loadActive p) k) w := by
  subst ha
  exact can_perform ⟨true, 0⟩ rfl hk

end Regain

lemma can_temporarySlot (hg : w.Regained pathOf h) :
    CanFinish (machine i) (fun _ v => v.Regained pathOf h) (temporarySlot h) w := by
  refine can_perform (r := true) ⟨true, 0⟩ (u := w) ?_ hg
  rw [← hg.1]
  rfl

/-- There is a pump on the path: attach to it. -/
lemma can_attach (hslot : (w.handle h).hasSlot = false) (hfree : w.creation = none)
    (hmu : (w.handle h).mu = none) (hact : w.active (pathOf h) = some ps) (hlive : w.Live ps)
    (hpath : (w.pump ps).path = pathOf h) :
    CanFinish (machine i) (fun _ v => v.Regained pathOf h) (attachOrUpgrade h (pathOf h)) w := by
  refine can_perform ⟨true, 0⟩ (if_pos hfree) ?_
  refine can_look hslot ?_
  refine can_find hact ?_
  refine CanFinish.bind ?_
  refine can_perform ⟨true, 0⟩ (if_pos hmu) ?_
  refine can_look (b := false) (by simp [World.setHandle, hslot]) ?_
  refine can_perform ⟨true, 0⟩ rfl ?_
  refine can_perform ⟨true, 0⟩ rfl ?_
  refine can_perform ⟨true, 0⟩ rfl ?_
  refine can_perform ⟨true, 0⟩ rfl ?_
  show CanFinish (machine i) _ (upgradeUnlessAttached h (pathOf h)) _
  refine can_look (b := true) (by simp [World.setHandle, World.setPump]) ?_
  refine can_perform ⟨true, 0⟩ rfl ?_
  refine ⟨by simp [World.setHandle, World.setPump], ps, by simp [World.setHandle, World.setPump],
    hlive, ?_⟩
  simp [World.setHandle, World.setPump, hpath]

/-- There is none: confirmed playback creates one. -/
lemma can_upgrade (hslot : (w.handle h).hasSlot = false) (hfree : w.creation = none)
    (hroom : w.tokens < w.capacity) (hact : w.active (pathOf h) = none) (hnew : ps ∉ w.born) :
    CanFinish (machine i) (fun _ v => v.Regained pathOf h) (attachOrUpgrade h (pathOf h)) w := by
  refine can_perform ⟨true, 0⟩ (if_pos hfree) ?_
  refine can_look hslot ?_
  refine can_find hact ?_
  show CanFinish (machine i) _ (upgradeUnlessAttached h (pathOf h)) _
  refine can_look hslot ?_
  show CanFinish (machine i) _ (upgrade h (pathOf h)) _
  refine can_perform ⟨true, 0⟩ rfl ?_
  refine can_perform ⟨true, 0⟩ (if_pos hroom) ?_
  refine CanFinish.bind ?_
  refine can_perform ⟨true, 0⟩ rfl ?_
  refine can_perform ⟨true, ps⟩ (if_neg hnew) ?_
  refine can_perform ⟨true, 0⟩ rfl ?_
  refine can_perform ⟨true, 0⟩ rfl ?_
  refine can_perform ⟨true, 0⟩ rfl ?_
  refine can_perform ⟨true, 0⟩ rfl ?_
  refine ⟨?_, ps, ?_, .inr (mem_insert_self _ _), ?_⟩
  all_goals simp [World.setHandle, World.setPump, World.setActive, World.addPump]

theorem Served.can_regain (hw : Served pathOf w) (hslot : (w.handle h).hasSlot = false)
    (hfree : w.creation = none) (hmu : (w.handle h).mu = none) (hroom : w.tokens < w.capacity) :
    CanFinish (machine i) (fun _ v => v.Regained pathOf h) (readInner h (pathOf h)) w := by
  simp only [readInner, op, op_bind]
  refine can_look hslot ?_
  refine CanFinish.bind ?_
  refine CanFinish.mono ?_ fun _ _ hg => can_temporarySlot hg
  cases hact : w.active (pathOf h) with
  | some ps =>
    exact can_attach hslot hfree hmu hact (hw.listed ps ⟨_, hact⟩) (hw.path _ _ hact)
  | none =>
    obtain ⟨ps, hnew⟩ := Infinite.exists_notMem_finset w.born
    exact can_upgrade hslot hfree hroom hact hnew

/-- As long as a pump leaves only when no other open handle relies on it, an
open handle with a slot points to a pump of its path that has not ended, and
that pump holds a token whenever a read looks at the flag; when the pump has
ended the flag is clear, and a read of the handle can get a pump again. -/
theorem slots_stand_for_live_pumps [NeZero n] (pathOf : Fin n → String) (capacity : ℕ)
    (gs : List (Goroutine n)) {ls : List (ℕ × Move Choice)}
    {cfg : Config (Op n) Op.Res Unit (World n)}
    (hrun : Run (Guarded (Allowed leavesNobody) (pumpSystem n).Step)
      (together pathOf capacity gs) ls cfg) {h : Fin n}
    (hopen : (cfg.state.handle h).closer = none)
    (hstill : ∀ i, cfg.state.creation ≠ some (i, h)) :
    ((cfg.state.handle h).hasSlot = true → ∃ ps, (cfg.state.handle h).pumpState = some ps ∧
      cfg.state.Alive ps ∧ (cfg.state.pump ps).path = pathOf h) ∧
    (∀ c, leavesNobody (.resolveSlot h) c cfg.state → (cfg.state.handle h).hasSlot = true →
      ∃ ps, (cfg.state.handle h).pumpState = some ps ∧ cfg.state.Live ps ∧
        (cfg.state.pump ps).path = pathOf h) ∧
    cfg.state.tokens
      = cfg.state.temporary.card + cfg.state.starting.card + cfg.state.running.card ∧
    (∀ i, (∀ ps, (cfg.state.handle h).pumpState = some ps → ¬ cfg.state.Alive ps) →
      cfg.state.creation = none → (cfg.state.handle h).mu = none →
      cfg.state.tokens < cfg.state.capacity →
      (cfg.state.handle h).hasSlot = false ∧
        ∃ w', Steps (machine i) (fun _ _ _ => True) (readInner h (pathOf h)) cfg.state (.ret ()) w' ∧
          w'.Regained pathOf h) := by
  have hw : Served pathOf cfg.state := served_of_run hrun
  have hset := hw.settled h hstill hopen
  refine ⟨fun hslot => ?_, fun c hok hslot => ?_, hw.accounted.count, fun i hended hfree hmu hroom => ?_⟩
  · obtain ⟨ps, hstate, hal, hpath, -⟩ := hset hslot
    exact ⟨ps, hstate, hal, hpath⟩
  · obtain ⟨ps, hstate, hal, hpath, hlv⟩ := hset hslot
    refine ⟨ps, hstate, ?_, hpath⟩
    rcases hal with hf | hr | hl
    · exact .inl hf
    · exact .inr hr
    · exact absurd (hlv hl) (hok.2 ps hl)
  · have hslot : (cfg.state.handle h).hasSlot = false := by
      by_contra hne
      obtain ⟨ps, hstate, hal, -⟩ := hset (by simpa using hne)
      exact hended ps hstate hal
    obtain ⟨a, w', hsteps, hg⟩ := (hw.can_regain (i := i) hslot hfree hmu hroom).steps
    exact ⟨hslot, w', hsteps, hg⟩

/-- The first handle's pump ends; its next read creates another, to which the
second handle attaches. -/
def attachedEnd : Option (Config (Op 2) Op.Res Unit (World 2)) :=
  runSchedule (pumpSystem 2) leavesNobody
    (together (fun _ => "movie.mkv") 25 [.start 0, .pump, .read 0, .read 1])
    (turns 0 14 7 ++ turns 1 9 7 ++ turns 2 14 8 ++ turns 3 13 0)

theorem attached_handle_has_live_pump :
    ∃ cfg, attachedEnd = some cfg ∧ 7 ∈ cfg.state.born ∧ ¬ cfg.state.Alive 7 ∧
      (cfg.state.handle 1).hasSlot = true ∧
      ∃ ps, (cfg.state.handle 1).pumpState = some ps ∧ cfg.state.Alive ps ∧
        (cfg.state.pump ps).path = "movie.mkv" := by
  obtain ⟨cfg, hcfg, hborn, hended, hslot, hopen, hfree⟩ : ∃ cfg ∈ attachedEnd,
      7 ∈ cfg.state.born ∧ ¬ cfg.state.Alive 7 ∧ (cfg.state.handle 1).hasSlot = true ∧
        (cfg.state.handle 1).closer = none ∧ cfg.state.creation = none := by decide +kernel
  refine ⟨cfg, hcfg, hborn, hended, hslot, ?_⟩
  exact (slots_stand_for_live_pumps _ _ _ (run_of_runSchedule hcfg) hopen (by simp [hfree])).1 hslot

/-! ### A pump ends under an attached handle -/

/-- The second handle attaches to the pump of the first. -/
def attachedHandles : Config (Op 2) Op.Res Unit (World 2) :=
  together (fun _ => "movie.mkv") 25 [.start 0, .read 1, .pump]

/-- The pump reaches its end of file; its exit clears the first handle's flag. -/
def orphanedSchedule : List (ℕ × Move Choice) := turns 0 14 7 ++ turns 1 13 0 ++ turns 2 9 7

def orphanedEnd : Option (Config (Op 2) Op.Res Unit (World 2)) :=
  runSchedule (pumpSystem 2) (fun _ _ _ => True) attachedHandles orphanedSchedule

theorem ended_pump_leaves_slot_set :
    ∃ cfg, Run (pumpSystem 2).Step attachedHandles orphanedSchedule cfg ∧
      (cfg.procs.all fun p => p.result?.isSome) = true ∧
      (cfg.state.handle 1).closer = none ∧ (cfg.state.handle 1).hasSlot = true ∧
      cfg.state.tokens = 0 ∧ (cfg.state.handle 1).pumpState = some 7 ∧ ¬ cfg.state.Alive 7 := by
  refine exists_run_of_runSchedule (?_ : ∃ cfg ∈ orphanedEnd, _)
  decide +kernel

end Runs

end Tiramisu.Pump
