import Tiramisu.Pump.Tokens

/-!
# The reference count of a registered pump

Each handle's share of a `refCount` is followed separately.  At rest a handle
has a share of one in the registered pump it points to and none in any other;
a party that attaches or releases a handle knows how far it has got, and
nobody else touches the handle meanwhile.
-/

namespace Tiramisu.Pump

open Protocol Finset

variable {n : ℕ} {i j : ℕ} {w w' w'' u v : World n} {L L' : Sight n} {h y : Fin n} {ps qs : ℕ}

def World.Listed (w : World n) (ps : ℕ) : Prop := ∃ path, w.active path = some ps

/-- The handle has nothing to do with the pump. -/
def World.Off (w : World n) (h : Fin n) (ps : ℕ) : Prop :=
  (w.handle h).refs ps = 0 ∧ (w.handle h).pumpState ≠ some ps

/-- The handle counts in the registered pump it points to, and in no other. -/
def World.Tallied (w : World n) (h : Fin n) : Prop :=
  ∀ ps, w.Listed ps →
    (w.handle h).refs ps = (if (w.handle h).pumpState = some ps then 1 else 0) ∧
      ((w.handle h).pumpState = some ps → (w.handle h).hasSlot = true)

/-- A handle without a slot counts nowhere. -/
theorem World.Tallied.off (ht : w.Tallied h) (hs : (w.handle h).hasSlot = false) :
    ∀ ps, w.Listed ps → w.Off h ps := by
  intro ps hps
  obtain ⟨hrefs, hslot⟩ := ht ps hps
  have hstate : (w.handle h).pumpState ≠ some ps := by
    intro heq
    rw [hslot heq] at hs
    cases hs
  exact ⟨by rw [hrefs, if_neg hstate], hstate⟩

structure Referenced (pathOf : Fin n → String) (w : World n) : Prop where
  accounted : Accounted w
  total : ∀ ps, (w.pump ps).refCount = ∑ h, (w.handle h).refs ps
  unborn : ∀ ps, ps ∉ w.born → (∀ h, w.Off h ps) ∧ ¬ w.Listed ps
  path : ∀ p ps, w.active p = some ps → (w.pump ps).path = p
  refs_path : ∀ h ps, (w.handle h).refs ps ≠ 0 → (w.pump ps).path = pathOf h
  once : ∀ h ps, w.Listed ps → (w.handle h).refs ps ≤ 1
  listed : ∀ ps, w.Listed ps → ps ∈ w.fresh ∨ ps ∈ w.running
  stored : ∀ ps, ps ∈ w.running ∨ ps ∈ w.leaving →
    (w.handle (w.pump ps).creator).pumpState = some ps
  tallied : ∀ h, (∀ i, w.creation ≠ some (i, h)) → (w.handle h).closer = none → w.Tallied h
  gone : ∀ h, (w.handle h).released = true →
    (w.handle h).closer ≠ none ∧ ∀ ps, w.Listed ps → (w.handle h).refs ps = 0

/-- Party `i` attaches the handle or releases it. -/
def Holds (i : ℕ) (h : Fin n) (w : World n) : Prop :=
  (w.creation = some (i, h) ∧ (w.handle h).closer = none) ∨ (w.handle h).closer = some i

structure RefRespects (i : ℕ) (w w' : World n) : Prop where
  tokens : Respects i w w'
  born : ∀ ps ∈ w.born, ps ∈ w'.born ∧ (w'.pump ps).creator = (w.pump ps).creator ∧
    (w'.pump ps).path = (w.pump ps).path
  unclosed : ∀ h, w.creation = some (i, h) → (w.handle h).closer = none →
    (w'.handle h).closer = none
  closer : ∀ h, (w.handle h).closer = some i → (w'.handle h).closer = some i
  frame : ∀ h, Holds i h w → (w'.handle h).refs = (w.handle h).refs ∧
    (w'.handle h).pumpState = (w.handle h).pumpState
  listing : ∀ h, Holds i h w → ∀ ps, w'.Listed ps → w.Listed ps ∨ w.Off h ps
  slot : ∀ h, Holds i h w → ∀ ps, w'.Listed ps → (w.handle h).pumpState = some ps →
    (w.handle h).hasSlot = true → (w'.handle h).hasSlot = true
  off : ∀ h₀, w.creation = some (i, h₀) → ∀ h ps, w.Off h ps → w'.Off h ps
  ready : ∀ ps, (w.pump ps).owner = some i → w.Alive ps →
    (w.handle (w.pump ps).creator).pumpState = some ps →
    (w'.handle (w.pump ps).creator).pumpState = some ps
  unlisted : ∀ ps, (w.pump ps).owner = some i → ¬ w.Listed ps → ¬ w'.Listed ps

theorem RefRespects.holds (hr : RefRespects i w w') (hh : Holds i h w) : Holds i h w' := by
  rcases hh with ⟨hc, ho⟩ | hc
  · exact .inl ⟨hr.tokens.creation h hc, hr.unclosed h hc ho⟩
  · exact .inr (hr.closer h hc)

theorem RefRespects.refl (i : ℕ) (w : World n) : RefRespects i w w where
  tokens := Respects.refl i w
  born _ h := ⟨h, rfl, rfl⟩
  unclosed _ _ h := h
  closer _ h := h
  frame _ _ := ⟨rfl, rfl⟩
  listing _ _ _ h := .inl h
  slot _ _ _ _ _ h := h
  off _ _ _ _ h := h
  ready _ _ _ h := h
  unlisted _ _ h := h

theorem Respects.alive (hr : Respects i w w') (ho : (w.pump ps).owner = some i)
    (ha : w.Alive ps) : w'.Alive ps := by
  obtain ⟨-, -, hf, hrun, hl⟩ := hr.owned ps ho
  unfold World.Alive at ha ⊢
  rwa [hf, hrun, hl]

theorem RefRespects.trans (h : RefRespects i w w') (h' : RefRespects i w' w'') :
    RefRespects i w w'' where
  tokens := h.tokens.trans h'.tokens
  born ps hps := by
    obtain ⟨hb, hc, hp⟩ := h.born ps hps
    obtain ⟨hb', hc', hp'⟩ := h'.born ps hb
    exact ⟨hb', hc'.trans hc, hp'.trans hp⟩
  unclosed x hx ho := h'.unclosed x (h.tokens.creation x hx) (h.unclosed x hx ho)
  closer x hx := h'.closer x (h.closer x hx)
  frame x hx := by
    obtain ⟨hr, hs⟩ := h.frame x hx
    obtain ⟨hr', hs'⟩ := h'.frame x (h.holds hx)
    exact ⟨hr'.trans hr, hs'.trans hs⟩
  listing x hx ps hps := by
    obtain ⟨hr, hs⟩ := h.frame x hx
    rcases h'.listing x (h.holds hx) ps hps with hl | ho
    · exact h.listing x hx ps hl
    · exact .inr ⟨hr ▸ ho.1, hs ▸ ho.2⟩
  slot x hx ps hps hst hsl := by
    obtain ⟨-, hs⟩ := h.frame x hx
    have hl : w'.Listed ps := by
      rcases h'.listing x (h.holds hx) ps hps with hl | ho
      · exact hl
      · exact absurd (hs.trans hst) ho.2
    exact h'.slot x (h.holds hx) ps hps (hs.trans hst) (h.slot x hx ps hl hst hsl)
  off x hx y ps ho := h'.off x (h.tokens.creation x hx) y ps (h.off x hx y ps ho)
  ready ps ho ha hs := by
    obtain ⟨ho', hc, -⟩ := h.tokens.owned ps ho
    have hs' := h.ready ps ho ha hs
    rw [← hc] at hs' ⊢
    exact h'.ready ps ho' (h.tokens.alive ho ha) hs'
  unlisted ps ho hl := h'.unlisted ps (h.tokens.owned ps ho).1 (h.unlisted ps ho hl)

/-- A handle is attached only while it is not being released, and by
`startNativePump` only while it has no slot; a handle is released once, and
not while it is being attached. -/
def attachesOnce : Op n → Choice → World n → Prop
  | .lockCreation c h, _, w =>
    (w.handle h).closer = none ∧ (c = .start → (w.handle h).hasSlot = false)
  | .closeHandle h, _, w => (w.handle h).closer = none ∧ ∀ x ∈ w.creation, x.2 ≠ h
  | _, _, _ => True

instance (o : Op n) (c : Choice) (w : World n) : Decidable (attachesOnce o c w) := by
  apply Op.casesOn (motive := fun o => Decidable (attachesOnce o c w)) o <;> intros <;>
    dsimp only [attachesOnce] <;> infer_instance

def refParties (pathOf : Fin n → String) : Parties (pumpSystem n) Unit where
  inv := Referenced pathOf
  ok := attachesOnce
  rely := RefRespects
  post _ _ _ := True
  rely_refl := RefRespects.refl
  rely_trans _ := RefRespects.trans
  leave_inv _ _ h := h
  leave_rely _ j w _ _ := RefRespects.refl j w
  leave_post _ _ _ h := h

/-! ### What a party knows about the handle it works on -/

structure Attaching (pathOf : Fin n → String) (w : World n) (h : Fin n) (a : Attach) : Prop where
  born : a.ps ∈ w.born
  path : (w.pump a.ps).path = pathOf h
  refs : (w.handle h).refs a.ps = if a.counted then 1 else 0
  state : (w.handle h).pumpState = some a.ps ↔ a.stored = true
  off : ∀ qs, w.Listed qs → qs ≠ a.ps → w.Off h qs
  creator : a.own = true → (w.pump a.ps).creator = h

def Closing.Means (pathOf : Fin n → String) (w : World n) (h : Fin n) : Closing → Prop
  | closing => w.Tallied h
  | found ps => w.Tallied h ∧ ps ∈ w.born ∧ (w.pump ps).path = pathOf h ∧
      ∀ qs, w.Listed qs → qs ≠ ps → (w.handle h).refs qs = 0
  | owns ps => (w.handle h).pumpState = some ps ∧ ps ∈ w.born ∧ (w.pump ps).path = pathOf h ∧
      (w.Listed ps → (w.handle h).refs ps = 1) ∧
      ∀ qs, w.Listed qs → qs ≠ ps → (w.handle h).refs qs = 0
  | gone => ∀ qs, w.Listed qs → (w.handle h).refs qs = 0

/-- The handle had no slot when it was locked, and has no pump of its own. -/
def Sight.Vacant (L : Sight n) (c : Caller) : Prop :=
  (L.seen = true ∨ c = .start) ∧ ∀ a ∈ L.attach, a.own = false

structure Ties (pathOf : Fin n → String) (i : ℕ) (L : Sight n) (w : World n) : Prop where
  unclosed : ∀ c h, L.lock = some (c, h) → (w.handle h).closer = none
  quiet : ∀ c h, L.lock = some (c, h) → L.Vacant c → w.Quiet h ∧ (w.handle h).hasSlot = L.flagged
  aim : ∀ c h, ∀ a ∈ L.attach, L.lock = some (c, h) → a.own = false → L.seen = true ∨ c = .start
  tallied : ∀ c h, L.lock = some (c, h) → L.attach = none → w.Tallied h
  off : ∀ c h, L.lock = some (c, h) → (L.seen = true ∨ c = .start) → L.attach = none →
    ∀ ps, w.Listed ps → w.Off h ps
  attach : ∀ c h, ∀ a ∈ L.attach, L.lock = some (c, h) → Attaching pathOf w h a
  lone : ∀ c h, ∀ a ∈ L.attach, L.lock = some (c, h) → a.own = true → a.stored = false →
    ∀ y, y ≠ h → w.Off y a.ps
  pump : ∀ ps h path s, L.pump = some (ps, h, path, s) → ps ∈ w.born ∧
    (w.pump ps).path = path ∧ (s = .ready → (w.handle h).pumpState = some ps) ∧
    (s = .unlisted ∨ s = .leaving → ¬ w.Listed ps)
  close : ∀ h k, L.close = some (h, k) → (w.handle h).closer = some i ∧ k.Means pathOf w h

variable {pathOf : Fin n → String}

lemma active_of_setActive {p q : String} (ha : (w.setActive p (some ps)).active q = some qs) :
    qs = ps ∧ q = p ∨ w.active q = some qs := by
  rw [World.active_setActive] at ha
  split_ifs at ha with hq
  · exact .inl ⟨(Option.some.inj ha).symm, hq⟩
  · exact .inr ha

lemma listed_of_setActive {p : String} (hl : (w.setActive p (some ps)).Listed qs) :
    qs = ps ∨ w.Listed qs := by
  obtain ⟨q, hq⟩ := hl
  exact (active_of_setActive hq).imp And.left fun ha => ⟨q, ha⟩

/-- A pump is registered for its own path or not at all. -/
lemma not_listed {path : String} (hw : ∀ p ps, w.active p = some ps → (w.pump ps).path = p)
    (hp : (w.pump ps).path = path) (hne : w.active path ≠ some ps) : ¬ w.Listed ps := by
  rintro ⟨p, hps⟩
  rw [← hp, hw p ps hps] at hne
  exact hne hps

section Stable

lemma lock_inj {k k' : Caller} (hl : L.lock = some (k, h)) (hl' : L.lock = some (k', y)) :
    k' = k ∧ y = h := by
  cases hl.symm.trans hl'
  exact ⟨rfl, rfl⟩

lemma off_congr (hr : (w'.handle h).refs = (w.handle h).refs)
    (hs : (w'.handle h).pumpState = (w.handle h).pumpState) : w'.Off h ps ↔ w.Off h ps := by
  unfold World.Off
  rw [hr, hs]

/-- Nothing happens to a handle's counts: its pointer stays, and no pump that
gets registered is one of its own. -/
structure Spares (h : Fin n) (w u : World n) : Prop where
  state : (u.handle h).pumpState = (w.handle h).pumpState
  born : ∀ ps ∈ w.born, ps ∈ u.born ∧ (u.pump ps).creator = (w.pump ps).creator ∧
    (u.pump ps).path = (w.pump ps).path
  refs : ∀ ps, ps ∈ w.born ∨ w.Listed ps → (u.handle h).refs ps = (w.handle h).refs ps
  listing : ∀ ps, u.Listed ps → w.Listed ps ∨ u.Off h ps
  slot : ∀ ps, u.Listed ps → (w.handle h).pumpState = some ps →
    (w.handle h).hasSlot = true → (u.handle h).hasSlot = true

namespace Spares

section

variable (hs : Spares h w u)

include hs

lemma tallied (ht : w.Tallied h) : u.Tallied h := by
  intro ps hps
  rcases hs.listing ps hps with hl | ho
  · obtain ⟨heq, hslot⟩ := ht ps hl
    rw [hs.refs ps (.inr hl), hs.state]
    exact ⟨heq, fun hst => hs.slot ps hps hst (hslot hst)⟩
  · exact ⟨ho.1.trans (if_neg ho.2).symm, fun hst => absurd hst ho.2⟩

lemma off (hps : u.Listed ps) (ho : w.Listed ps → w.Off h ps) : u.Off h ps := by
  rcases hs.listing ps hps with hl | hoff
  · exact ⟨(hs.refs ps (.inr hl)).trans (ho hl).1, hs.state ▸ (ho hl).2⟩
  · exact hoff

lemma refs_eq_zero (hps : u.Listed ps) (ho : w.Listed ps → (w.handle h).refs ps = 0) :
    (u.handle h).refs ps = 0 := by
  rcases hs.listing ps hps with hl | hoff
  · exact (hs.refs ps (.inr hl)).trans (ho hl)
  · exact hoff.1

lemma attaching {a : Attach} (ha : Attaching pathOf w h a) : Attaching pathOf u h a := by
  obtain ⟨hb, hc, hp⟩ := hs.born a.ps ha.born
  exact ⟨hb, hp.trans ha.path, (hs.refs _ (.inl ha.born)).trans ha.refs, hs.state ▸ ha.state,
    fun qs hqs hne => hs.off hqs fun hl => ha.off qs hl hne, fun ho => hc.trans (ha.creator ho)⟩

lemma means {k : Closing} (hk : k.Means pathOf w h) : k.Means pathOf u h := by
  cases k with
  | closing => exact hs.tallied hk
  | found ps =>
    obtain ⟨ht, hb, hp, ho⟩ := hk
    obtain ⟨hb', -, hp'⟩ := hs.born ps hb
    exact ⟨hs.tallied ht, hb', hp'.trans hp, fun qs hqs hne => hs.refs_eq_zero hqs fun hl => ho qs hl hne⟩
  | owns ps =>
    obtain ⟨hst, hb, hp, hone, ho⟩ := hk
    obtain ⟨hb', -, hp'⟩ := hs.born ps hb
    refine ⟨hs.state.trans hst, hb', hp'.trans hp, fun hl => ?_,
      fun qs hqs hne => hs.refs_eq_zero hqs fun hl => ho qs hl hne⟩
    rcases hs.listing ps hl with hl | hoff
    · exact (hs.refs ps (.inr hl)).trans (hone hl)
    · exact absurd (hs.state.trans hst) hoff.2
  | gone => exact fun qs hqs => hs.refs_eq_zero hqs (hk qs)

end

end Spares

/-- What a party knows lasts while its handles are spared. -/
theorem Ties.kept {b : Bool} (ht : Ties pathOf i L w)
    (hlock : ∀ c h, L.lock = some (c, h) → Spares h w u ∧ (u.handle h).closer = none ∧
      ∀ y ps, w.Off y ps → u.Off y ps)
    (hquiet : ∀ c h, L.lock = some (c, h) → L.Vacant c →
      u.Quiet h ∧ (u.handle h).hasSlot = b)
    (hpump : ∀ ps h path s, L.pump = some (ps, h, path, s) → ps ∈ w.born →
      (ps ∈ u.born ∧ (u.pump ps).path = (w.pump ps).path) ∧
      ((w.handle h).pumpState = some ps → (u.handle h).pumpState = some ps) ∧
      (¬ w.Listed ps → ¬ u.Listed ps))
    (hclose : ∀ h k, L.close = some (h, k) → (w.handle h).closer = some i →
      Spares h w u ∧ (u.handle h).closer = some i) : Ties pathOf i { L with flagged := b } u where
  unclosed c h hl := (hlock c h hl).2.1
  quiet := hquiet
  aim := ht.aim
  tallied c h hl ha := (hlock c h hl).1.tallied (ht.tallied c h hl ha)
  off c h hl hs ha ps hps := (hlock c h hl).1.off hps (ht.off c h hl hs ha ps)
  attach c h a ha hl := (hlock c h hl).1.attaching (ht.attach c h a ha hl)
  lone c h a ha hl ho hs y hy := (hlock c h hl).2.2 y a.ps (ht.lone c h a ha hl ho hs y hy)
  pump ps h path s hp := by
    obtain ⟨hborn, hpath, hready, hunl⟩ := ht.pump ps h path s hp
    obtain ⟨⟨hb, hp'⟩, hst, hl⟩ := hpump ps h path s hp hborn
    exact ⟨hb, hp'.trans hpath, fun hs => hst (hready hs), fun hs => hl (hunl hs)⟩
  close h k hk := by
    obtain ⟨hc, hm⟩ := ht.close h k hk
    obtain ⟨hs, hc'⟩ := hclose h k hk hc
    exact ⟨hc', hs.means hm⟩

lemma RefRespects.spares (hr : RefRespects i w w') (hh : Holds i h w) : Spares h w w' := by
  obtain ⟨hrefs, hstate⟩ := hr.frame h hh
  exact ⟨hstate, hr.born, fun ps _ => by rw [hrefs],
    fun ps hps => (hr.listing h hh ps hps).imp_right (off_congr hrefs hstate).mpr, hr.slot h hh⟩

theorem Ties.holds (ht : Ties pathOf i L w) (hL : Sees i L w) {c : Caller}
    (hl : L.lock = some (c, h)) : Holds i h w :=
  .inl ⟨hL.lock c h hl, ht.unclosed c h hl⟩

theorem Ties.stable (ht : Ties pathOf i L w) (hL : Sees i L w) (hr : RefRespects i w w') :
    Ties pathOf i L w' := by
  refine ht.kept (fun c h hl => ⟨hr.spares (ht.holds hL hl),
    hr.unclosed h (hL.lock c h hl) (ht.unclosed c h hl), hr.off h (hL.lock c h hl)⟩)
    (fun c h hl hv => ?_) (fun ps h path s hp hb => ?_)
    fun h k hk hc => ⟨hr.spares (.inr hc), hr.closer h hc⟩
  · obtain ⟨hq, hb⟩ := ht.quiet c h hl hv
    obtain ⟨hq', hb'⟩ := hr.tokens.quiet h (hL.lock c h hl) hq
    exact ⟨hq', hb'.trans hb⟩
  · obtain ⟨hown, rfl, hmem⟩ := hL.pump ps h path s hp
    obtain ⟨hb', -, hp'⟩ := hr.born ps hb
    exact ⟨⟨hb', hp'⟩, hr.ready ps hown (Stage.alive hmem), hr.unlisted ps hown⟩

end Stable

/-! ### Operations that leave counts and pointers alone -/

structure Undisturbed (w u : World n) : Prop where
  refs : ∀ h, (u.handle h).refs = (w.handle h).refs
  state : ∀ h, (u.handle h).pumpState = (w.handle h).pumpState
  closer : ∀ h, (u.handle h).closer = (w.handle h).closer
  released : ∀ h, (u.handle h).released = (w.handle h).released
  refCount : ∀ ps, (u.pump ps).refCount = (w.pump ps).refCount
  creator : ∀ ps, (u.pump ps).creator = (w.pump ps).creator
  path : ∀ ps, (u.pump ps).path = (w.pump ps).path
  born : u.born = w.born
  active : ∀ p ps, u.active p = some ps → w.active p = some ps
  hasSlot : ∀ h ps, u.Listed ps → (w.handle h).pumpState = some ps →
    (w.handle h).hasSlot = true → (u.handle h).hasSlot = true

namespace Undisturbed

theorem refl (w : World n) : Undisturbed w w :=
  ⟨fun _ => rfl, fun _ => rfl, fun _ => rfl, fun _ => rfl, fun _ => rfl, fun _ => rfl, fun _ => rfl, rfl,
    fun _ _ h => h, fun _ _ _ _ h => h⟩

section

variable (hu : Undisturbed w u)

include hu

theorem listed (hl : u.Listed ps) : w.Listed ps := by
  obtain ⟨p, hp⟩ := hl
  exact ⟨p, hu.active p ps hp⟩

theorem off : u.Off h ps ↔ w.Off h ps :=
  off_congr (hu.refs h) (hu.state h)

theorem spares (h : Fin n) : Spares h w u where
  state := hu.state h
  born ps hps := ⟨hu.born ▸ hps, hu.creator ps, hu.path ps⟩
  refs ps _ := by rw [hu.refs]
  listing _ hps := .inl (hu.listed hps)
  slot := hu.hasSlot h

theorem respects (hr : Respects j w u) : RefRespects j w u where
  tokens := hr
  born ps hps := ⟨hu.born ▸ hps, hu.creator ps, hu.path ps⟩
  unclosed x _ hx := (hu.closer x).trans hx
  closer x hx := (hu.closer x).trans hx
  frame x _ := ⟨hu.refs x, hu.state x⟩
  listing _ _ _ hps := .inl (hu.listed hps)
  slot x _ ps hps hst hx := hu.hasSlot x ps hps hst hx
  off _ _ _ _ ho := hu.off.mpr ho
  ready _ _ _ hs := (hu.state _).trans hs
  unlisted _ _ hl hl' := hl (hu.listed hl')

theorem ties {b : Bool} (ht : Ties pathOf i L w)
    (hq : ∀ c h, L.lock = some (c, h) → L.Vacant c → u.Quiet h ∧ (u.handle h).hasSlot = b) :
    Ties pathOf i { L with flagged := b } u :=
  ht.kept (fun c h hl => ⟨hu.spares h, (hu.closer h).trans (ht.unclosed c h hl),
      fun _ _ => hu.off.mpr⟩) hq
    (fun ps h _ _ _ hb => ⟨⟨hu.born ▸ hb, hu.path ps⟩, (hu.state h).trans, mt hu.listed⟩)
    fun h _ _ hc => ⟨hu.spares h, (hu.closer h).trans hc⟩

theorem referenced (hw : Referenced pathOf w) (ha : Accounted u)
    (hlisted : ∀ ps, u.Listed ps → ps ∈ w.fresh ∨ ps ∈ w.running → ps ∈ u.fresh ∨ ps ∈ u.running)
    (hstored : ∀ ps, ps ∈ u.running ∨ ps ∈ u.leaving → (ps ∈ w.running ∨ ps ∈ w.leaving) ∨
      (w.handle (w.pump ps).creator).pumpState = some ps)
    (htallied : ∀ h, (∀ i, u.creation ≠ some (i, h)) → (∀ i, w.creation ≠ some (i, h)) ∨
      w.Tallied h) : Referenced pathOf u where
  accounted := ha
  total ps := by
    rw [hu.refCount, hw.total]
    exact sum_congr rfl fun h _ => by rw [hu.refs]
  unborn ps hps := by
    obtain ⟨ho, hl⟩ := hw.unborn ps (hu.born ▸ hps)
    exact ⟨fun h => hu.off.mpr (ho h), fun hl' => hl (hu.listed hl')⟩
  path p ps hp := (hu.path ps).trans (hw.path p ps (hu.active p ps hp))
  refs_path h ps hr := (hu.path ps).trans (hw.refs_path h ps (hu.refs h ▸ hr))
  once h ps hps := hu.refs h ▸ hw.once h ps (hu.listed hps)
  listed ps hps := hlisted ps hps (hw.listed ps (hu.listed hps))
  stored ps hps := by
    rw [hu.creator, hu.state]
    rcases hstored ps hps with hold | hst
    · exact hw.stored ps hold
    · exact hst
  tallied h hc ho := by
    rw [hu.closer] at ho
    rcases htallied h hc with hold | ht
    · exact (hu.spares h).tallied (hw.tallied h hold ho)
    · exact (hu.spares h).tallied ht
  gone h hr := by
    rw [hu.closer, hu.refs]
    obtain ⟨hc, ho⟩ := hw.gone h (hu.released h ▸ hr)
    exact ⟨hc, fun ps hps => ho ps (hu.listed hps)⟩

end

end Undisturbed

/-- Where a step of party `i` ends up. -/
structure RefStep (pathOf : Fin n → String) (i : ℕ) (L' : Sight n) (w u : World n) : Prop where
  inv : Referenced pathOf u
  respects : ∀ j, j ≠ i → RefRespects j w u
  ties : Ties pathOf i L' u

theorem undisturbed_setHandle {x : Handle} (hr : x.refs = (w.handle h).refs)
    (hs : x.pumpState = (w.handle h).pumpState) (hc : x.closer = (w.handle h).closer)
    (hd : x.released = (w.handle h).released)
    (hb : (w.handle h).hasSlot = true → x.hasSlot = true) : Undisturbed w (w.setHandle h x) := by
  have hall : ∀ y, (w.setHandle h x).handle y = if y = h then x else w.handle y := by
    intro y
    simp [World.setHandle, Function.update_apply]
  refine { Undisturbed.refl w with refs := fun y => ?_, state := fun y => ?_, closer := fun y => ?_,
                                   released := fun y => ?_, hasSlot := fun y _ _ _ => ?_ }
  all_goals
    rw [hall]
    split_ifs with hy
  · rw [hr, hy]
  · rfl
  · rw [hs, hy]
  · rfl
  · rw [hc, hy]
  · rfl
  · rw [hd, hy]
  · rfl
  · rw [hy]
    exact hb
  · exact id

theorem undisturbed_setPump (ps : ℕ) {x : PumpState n} (hr : x.refCount = (w.pump ps).refCount)
    (hc : x.creator = (w.pump ps).creator) (hp : x.path = (w.pump ps).path) :
    Undisturbed w (w.setPump ps x) := by
  have hall : ∀ q, (w.setPump ps x).pump q = if q = ps then x else w.pump q := by
    intro q
    simp [World.setPump, Function.update_apply]
  refine { Undisturbed.refl w with refCount := fun q => ?_, creator := fun q => ?_,
                                   path := fun q => ?_ }
  all_goals
    rw [hall]
    split_ifs with hq
  · rw [hr, hq]
  · rfl
  · rw [hc, hq]
  · rfl
  · rw [hp, hq]
  · rfl

theorem undisturbed_exec {o : Op n} {c : Choice} {r : o.Res} (hex : exec i o c w = some (r, u))
    (ho : o.Mild) : Undisturbed w u := by
  cases o with
  | loadSlot _ | resolveSlot _ | canTakeSlot | playbackConfirmed | loadActive _ | loadRef _
  | pumpBody _ =>
    obtain ⟨-, rfl⟩ := eq_of_exec hex
    exact .refl u
  | lockHandle _ =>
    simp only [exec, Option.ite_none_right_eq_some] at hex
    obtain ⟨-, rfl⟩ := eq_of_exec hex.2
    exact undisturbed_setHandle rfl rfl rfl rfl id
  | unlockHandle _ =>
    obtain ⟨-, rfl⟩ := eq_of_exec hex
    exact undisturbed_setHandle rfl rfl rfl rfl id
  | deleteActive path =>
    obtain ⟨-, rfl⟩ := eq_of_exec hex
    refine { Undisturbed.refl w with active := fun p ps hp => ?_, hasSlot := fun _ _ _ _ h => h }
    by_cases hpath : p = path
    · simp [World.setActive, hpath] at hp
    · simpa [World.setActive, hpath] using hp
  | cancel _ =>
    obtain ⟨-, rfl⟩ := eq_of_exec hex
    exact undisturbed_setPump _ rfl rfl rfl
  | _ => exact ho.elim

/-- Nothing that concerns the counts has happened. -/
theorem Undisturbed.calm (hu : Undisturbed w u) (hs : SameTokens w u) (hw : Referenced pathOf w)
    (ht : Ties pathOf i L w) : RefStep pathOf i L w u := by
  refine ⟨hu.referenced hw (hs.accounted hw.accounted) ?_ ?_ ?_, fun j _ => hu.respects (hs.respects j),
    hu.ties ht fun c x hl hv => ?_⟩
  · intro ps _ hps
    rwa [hs.fresh, hs.running]
  · intro ps hps
    rw [hs.running, hs.leaving] at hps
    exact .inl hps
  · intro x hx
    rw [hs.creation] at hx
    exact .inl hx
  · obtain ⟨hq, hb⟩ := ht.quiet c x hl hv
    exact ⟨hs.quiet hq, (hs.hasSlot x).trans hb⟩

/-! ### Operations on the handle a party holds -/

structure LocalTo (h : Fin n) (w u : World n) : Prop where
  same : SameTokens w u
  handle : ∀ y, y ≠ h → u.handle y = w.handle y
  path : ∀ ps, (u.pump ps).path = (w.pump ps).path
  active : u.active = w.active

namespace LocalTo

section

variable (hl : LocalTo h w u)

include hl

theorem listed : u.Listed ps ↔ w.Listed ps := by
  unfold World.Listed
  rw [hl.active]

theorem off (hy : y ≠ h) : u.Off y ps ↔ w.Off y ps := by
  unfold World.Off
  rw [hl.handle y hy]

theorem spares (hy : y ≠ h) : Spares y w u where
  state := by rw [hl.handle y hy]
  born ps hps := ⟨hl.same.born ▸ hps, hl.same.creator ps, hl.path ps⟩
  refs ps _ := by rw [hl.handle y hy]
  listing _ hps := .inl (hl.listed.mp hps)
  slot _ _ _ hs := (hl.same.hasSlot y).trans hs

/-- The shares of the other handles stay. -/
theorem total (hw : Referenced pathOf w)
    (hcount : ∀ ps, (u.pump ps).refCount - (w.pump ps).refCount
      = (u.handle h).refs ps - (w.handle h).refs ps) (ps : ℕ) :
    (u.pump ps).refCount = ∑ y, (u.handle y).refs ps := by
  have hsplit : ∀ v : World n, (v.handle h).refs ps + ∑ y ∈ univ.erase h, (v.handle y).refs ps
      = ∑ y, (v.handle y).refs ps := fun v =>
    add_sum_erase univ (fun y => (v.handle y).refs ps) (mem_univ h)
  have hrest : ∑ y ∈ univ.erase h, (u.handle y).refs ps
      = ∑ y ∈ univ.erase h, (w.handle y).refs ps :=
    sum_congr rfl fun y hy => by rw [hl.handle y (ne_of_mem_erase hy)]
  have htotal := hw.total ps
  rw [← hsplit] at htotal ⊢
  have := hcount ps
  omega

theorem referenced (hw : Referenced pathOf w)
    (hcount : ∀ ps, (u.pump ps).refCount - (w.pump ps).refCount
      = (u.handle h).refs ps - (w.handle h).refs ps) (hunborn : ∀ ps, ps ∉ w.born → u.Off h ps)
    (hpath : ∀ ps, (u.handle h).refs ps ≠ 0 → (w.pump ps).path = pathOf h)
    (honce : ∀ ps, w.Listed ps → (u.handle h).refs ps ≤ 1)
    (hstored : ∀ ps, ps ∈ w.running ∨ ps ∈ w.leaving → (w.pump ps).creator = h →
      (u.handle h).pumpState = some ps)
    (htallied : (∀ i, w.creation ≠ some (i, h)) → (u.handle h).closer = none → u.Tallied h)
    (hgone : (u.handle h).released = true →
      (u.handle h).closer ≠ none ∧ ∀ ps, w.Listed ps → (u.handle h).refs ps = 0) :
    Referenced pathOf u where
  accounted := hl.same.accounted hw.accounted
  total := hl.total hw hcount
  unborn ps hps := by
    rw [hl.same.born] at hps
    obtain ⟨ho, hlist⟩ := hw.unborn ps hps
    refine ⟨fun y => ?_, fun hl' => hlist (hl.listed.mp hl')⟩
    by_cases hy : y = h
    · exact hy ▸ hunborn ps hps
    · exact (hl.off hy).mpr (ho y)
  path p ps hp := (hl.path ps).trans (hw.path p ps (by rwa [hl.active] at hp))
  refs_path y ps hr := by
    refine (hl.path ps).trans ?_
    by_cases hy : y = h
    · subst hy
      exact hpath ps hr
    · rw [hl.handle y hy] at hr
      exact hw.refs_path y ps hr
  once y ps hps := by
    by_cases hy : y = h
    · exact hy ▸ honce ps (hl.listed.mp hps)
    · rw [hl.handle y hy]
      exact hw.once y ps (hl.listed.mp hps)
  listed ps hps := by
    rw [hl.same.fresh, hl.same.running]
    exact hw.listed ps (hl.listed.mp hps)
  stored ps hps := by
    rw [hl.same.running, hl.same.leaving] at hps
    rw [hl.same.creator]
    by_cases hy : (w.pump ps).creator = h
    · rw [hy]
      exact hstored ps hps hy
    · rw [hl.handle _ hy]
      exact hw.stored ps hps
  tallied y hc ho := by
    rw [hl.same.creation] at hc
    by_cases hy : y = h
    · subst hy
      exact htallied hc ho
    · rw [hl.handle y hy] at ho
      exact (hl.spares hy).tallied (hw.tallied y hc ho)
  gone y hr := by
    by_cases hy : y = h
    · subst hy
      obtain ⟨hc, ho⟩ := hgone hr
      exact ⟨hc, fun ps hps => ho ps (hl.listed.mp hps)⟩
    · rw [hl.handle y hy] at hr ⊢
      obtain ⟨hc, ho⟩ := hw.gone y hr
      exact ⟨hc, fun ps hps => ho ps (hl.listed.mp hps)⟩

/-- Somebody else's handle is not concerned. -/
theorem respects (hnot : ¬ Holds j h w)
    (hoff : ∀ x, w.creation = some (j, x) → ∀ ps, w.Off h ps → u.Off h ps)
    (hready : ∀ ps, (w.pump ps).owner = some j → w.Alive ps → (w.pump ps).creator = h →
      (w.handle h).pumpState = some ps → (u.handle h).pumpState = some ps) : RefRespects j w u := by
  have hne : ∀ y, Holds j y w → y ≠ h := fun y hy heq => hnot (heq ▸ hy)
  refine ⟨hl.same.respects j, fun ps hps => ⟨by rwa [hl.same.born], hl.same.creator ps, hl.path ps⟩,
    fun y hc ho => ?_, fun y hc => ?_, fun y hy => ?_, fun y _ ps hps => .inl (hl.listed.mp hps),
    fun y hy ps _ _ hs => ?_, fun x hx y ps ho => ?_, fun ps ho ha hs => ?_, fun ps _ hnl hps => ?_⟩
  · rw [hl.handle y (hne y (.inl ⟨hc, ho⟩))]
    exact ho
  · rw [hl.handle y (hne y (.inr hc))]
    exact hc
  · rw [hl.handle y (hne y hy)]
    exact ⟨rfl, rfl⟩
  · rw [hl.same.hasSlot]
    exact hs
  · by_cases hy : y = h
    · subst hy
      exact hoff x hx ps ho
    · exact (hl.off hy).mpr ho
  · by_cases hy : (w.pump ps).creator = h
    · rw [hy] at hs ⊢
      exact hready ps ho ha hy hs
    · rw [hl.handle _ hy]
      exact hs
  · exact hnl (hl.listed.mp hps)

end

end LocalTo

/-- The others hold neither a handle this party attaches nor one it releases. -/
theorem Holds.unique (hi : Holds i h w) (hj : Holds j h w) : i = j := by
  rcases hi with ⟨hc, ho⟩ | ho <;> rcases hj with ⟨hc', ho'⟩ | ho'
  · rw [hc, Option.some.injEq, Prod.mk.injEq] at hc'
    exact hc'.1
  · cases ho.symm.trans ho'
  · cases ho.symm.trans ho'
  · exact Option.some.inj (ho.symm.trans ho')

end Tiramisu.Pump
