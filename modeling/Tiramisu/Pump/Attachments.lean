import Tiramisu.Pump.References

/-!
# Attaching, releasing and counting

The steps of an attach, of a creation, of a `Release` and of a pump's exit,
each against the shares of a `refCount`, and what follows for every run.
-/

namespace Tiramisu.Pump

open Protocol Transition Finset Option

variable {n : ℕ} {i j : ℕ} {w u : World n} {L L' : Sight n} {h y : Fin n} {ps qs : ℕ}
  {pathOf : Fin n → String}

/-! ### The steps of an attach -/

section Steps

variable {c : Choice} {caller : Caller}

/-- What is known after a step of an attach, given where the attach is now. -/
theorem LocalTo.ties (hl : LocalTo h w u) (ht : Ties pathOf i L w)
    (hlock : L.lock = some (caller, h)) (hopen : (u.handle h).closer = none) {a : Attach}
    {p : Option (ℕ × Fin n × String × Stage)} (ha : Attaching pathOf u h a)
    (haim : a.own = false → L.seen = true ∨ caller = .start)
    (hvac : L.seen = true ∨ caller = .start → a.own = false → L.Vacant caller)
    (hlone : a.own = true → a.stored = false → ∀ y, y ≠ h → w.Off y a.ps)
    (hpump : ∀ ps x path s, p = some (ps, x, path, s) → ps ∈ u.born ∧ (u.pump ps).path = path ∧
      (s = .ready → (u.handle x).pumpState = some ps) ∧
      (s = .unlisted ∨ s = .leaving → ¬ u.Listed ps)) :
    Ties pathOf i { L with attach := some a, pump := p } u where
  unclosed k x hx := by
    obtain ⟨-, rfl⟩ := lock_inj hlock hx
    exact hopen
  quiet k x hx hv := by
    obtain ⟨rfl, rfl⟩ := lock_inj hlock hx
    obtain ⟨hq, hb⟩ := ht.quiet _ _ hlock (hvac hv.1 (hv.2 a rfl))
    exact ⟨hl.same.quiet hq, (hl.same.hasSlot _).trans hb⟩
  aim k x b hb hx ho := by
    obtain ⟨rfl, rfl⟩ := lock_inj hlock hx
    cases hb
    exact haim ho
  tallied _ _ _ hnone := absurd hnone (by simp)
  off _ _ _ _ hnone := absurd hnone (by simp)
  attach k x b hb hx := by
    obtain ⟨rfl, rfl⟩ := lock_inj hlock hx
    cases hb
    exact ha
  lone k x b hb hx ho hs y hy := by
    obtain ⟨rfl, rfl⟩ := lock_inj hlock hx
    cases hb
    exact (hl.off hy).mpr (hlone ho hs y hy)
  pump := hpump
  close x k hk := by
    obtain ⟨hc, hm⟩ := ht.close x k hk
    have hx : x ≠ h := by
      rintro rfl
      rw [ht.unclosed _ _ hlock] at hc
      cases hc
    rw [hl.handle x hx]
    exact ⟨hc, (hl.spares hx).means hm⟩

/-- A store to one handle touches no count. -/
lemma localTo_setHandle {x : Handle} (hs : x.hasSlot = (w.handle h).hasSlot) :
    LocalTo h w (w.setHandle h x) :=
  ⟨sameTokens_setHandle hs, fun y hy => by simp [hy], fun _ => rfl, rfl⟩

/-- The handle's share of a pump changes by `d`, and the count with it. -/
structure Recounts (d : ℤ) (h : Fin n) (ps : ℕ) (w u : World n) : Prop extends LocalTo h w u where
  state : (u.handle h).pumpState = (w.handle h).pumpState
  closer : (u.handle h).closer = (w.handle h).closer
  released : (u.handle h).released = (w.handle h).released
  refs : ∀ qs, (u.handle h).refs qs = (w.handle h).refs qs + if qs = ps then d else 0
  refCount : ∀ qs, (u.pump qs).refCount = (w.pump qs).refCount + if qs = ps then d else 0

lemma recounts (d : ℤ) (hs : SameTokens w u)
    (hu : u = (w.setPump ps { w.pump ps with refCount := (w.pump ps).refCount + d }).setHandle h
      { w.handle h with
        refs := Function.update (w.handle h).refs ps ((w.handle h).refs ps + d) }) :
    Recounts d h ps w u := by
  subst hu
  refine ⟨⟨hs, fun y hy => by simp [hy], fun qs => ?_, rfl⟩, by simp, by simp, by simp, fun qs => ?_,
    fun qs => ?_⟩
  all_goals
    by_cases hq : qs = ps
    · simp [hq]
    · simp [hq]

lemma not_gone (hw : Referenced pathOf w) (ho : (w.handle h).closer = none) :
    (w.handle h).released ≠ true :=
  fun hr => (hw.gone h hr).1 ho

/-- A step of an attach: but for its counts and its pointer the handle stays. -/
lemma LocalTo.attachStep (hl : LocalTo h w u) (hw : Referenced pathOf w) (hL : Sees i L w)
    (ht : Ties pathOf i L w) (hlock : L.lock = some (caller, h))
    (hreleased : (u.handle h).released = (w.handle h).released)
    (hcount : ∀ qs, (u.pump qs).refCount - (w.pump qs).refCount
      = (u.handle h).refs qs - (w.handle h).refs qs)
    (hunborn : ∀ qs, qs ∉ w.born → u.Off h qs)
    (hpath : ∀ qs, (u.handle h).refs qs ≠ 0 → (w.pump qs).path = pathOf h)
    (honce : ∀ qs, w.Listed qs → (u.handle h).refs qs ≤ 1)
    (hstored : ∀ qs, w.Alive qs → (w.pump qs).creator = h →
      (w.handle h).pumpState = some qs → (u.handle h).pumpState = some qs)
    (hties : Ties pathOf i L' u) : RefStep pathOf i L' w u := by
  have hc : w.creation = some (i, h) := hL.lock _ _ hlock
  refine ⟨hl.referenced hw hcount hunborn hpath honce (fun qs hqs hcr => ?_)
    (fun hno _ => absurd hc (hno i)) (fun hr => ?_), fun j hj => ?_, hties⟩
  · exact hstored qs (.inr hqs) hcr (hcr ▸ hw.stored qs hqs)
  · exact absurd (hreleased ▸ hr) (not_gone hw (ht.unclosed _ _ hlock))
  · refine hl.respects (fun hh => hj ((ht.holds hL hlock).unique hh).symm) (fun x hx => ?_)
      fun qs _ hal hcr hst => hstored qs hal hcr hst
    rw [hc, some.injEq, Prod.mk.injEq] at hx
    exact absurd hx.1.symm hj

section

variable (hw : Referenced pathOf w)

include hw

lemma ref_count {s : Bool} (hL : Sees i L w) (ht : Ties pathOf i L w)
    (hlock : L.lock = some (caller, h)) (ha : L.attach = some ⟨ps, false, false, s⟩) {r : ℤ}
    (hex : exec i (.addRef h ps) c w = some (r, u)) :
    RefStep pathOf i { L with attach := some ⟨ps, false, true, s⟩ } w u := by
  have hat := ht.attach _ _ _ ha hlock
  have hzero : (w.handle h).refs ps = 0 := hat.refs
  have hr := recounts 1 (sameTokens_exec hex trivial) (eq_of_exec hex).2
  have hself : (u.handle h).refs ps = 1 := by
    rw [hr.refs, hzero, if_pos rfl, zero_add]
  have hother : ∀ qs, qs ≠ ps → (u.handle h).refs qs = (w.handle h).refs qs := by
    intro qs hq
    rw [hr.refs, if_neg hq, add_zero]
  have hoff : ∀ qs, qs ≠ ps → w.Off h qs → u.Off h qs := by
    intro qs hq ho
    unfold World.Off
    rw [hother qs hq, hr.state]
    exact ho
  refine hr.attachStep hw hL ht hlock hr.released (fun qs => ?_) (fun qs hqs => ?_)
    (fun qs hqs => ?_) (fun qs hqs => ?_) (fun qs _ _ hst => hr.state.trans hst) ?_
  · rw [hr.refs, hr.refCount]
    omega
  · exact hoff qs (fun heq => hqs (heq ▸ hat.born)) ((hw.unborn qs hqs).1 h)
  · by_cases hq : qs = ps
    · exact hq ▸ hat.path
    · rw [hother qs hq] at hqs
      exact hw.refs_path h qs hqs
  · by_cases hq : qs = ps
    · exact hq ▸ hself.le
    · rw [hother qs hq]
      exact hw.once h qs hqs
  · refine hr.ties ht hlock (hr.closer.trans (ht.unclosed _ _ hlock)) ?_
      (fun _ => ht.aim _ _ _ ha hlock rfl)
      (fun hs _ => ⟨hs, fun b hb => by rw [ha, mem_some_iff] at hb; rw [← hb]⟩) (by simp)
      fun qs z path st hp => ?_
    · refine ⟨hr.same.born ▸ hat.born, (hr.path ps).trans hat.path, hself, ?_,
        fun qs hqs hne => hoff qs hne (hat.off qs (hr.listed.mp hqs) hne), by simp⟩
      rw [hr.state]
      exact hat.state
    · obtain ⟨hborn, hpath, hready, hunl⟩ := ht.pump _ _ _ _ hp
      refine ⟨hr.same.born ▸ hborn, (hr.path qs).trans hpath, fun hs => ?_,
        fun hs hlist => hunl hs (hr.listed.mp hlist)⟩
      by_cases hz : z = h
      · subst hz
        exact hr.state.trans (hready hs)
      · rw [hr.handle z hz]
        exact hready hs

/-- The pointer is set for a handle whose only pump, if any, is the one it is
set to. -/
lemma ref_storeState {o k : Bool} {p : Option (ℕ × Fin n × String × Stage)} (hL : Sees i L w)
    (ht : Ties pathOf i L w) (hlock : L.lock = some (caller, h))
    (ha : L.attach = some ⟨ps, o, k, false⟩)
    (hmine : ∀ qs, w.Alive qs → (w.pump qs).creator = h →
      qs = ps ∧ ps ∈ w.fresh ∧ (w.pump ps).owner = some i)
    (hp : p = L.pump ∨ p = some (ps, h, pathOf h, .ready))
    (hex : exec i (.storeState h ps) c w = some ((), u)) :
    RefStep pathOf i { L with attach := some ⟨ps, o, k, true⟩, pump := p } w u := by
  obtain ⟨-, rfl⟩ := eq_of_exec hex
  set x : Handle := { w.handle h with pumpState := some ps } with hx
  set u : World n := w.setHandle h x with hu
  have hself : u.handle h = x := by simp [hu, World.setHandle]
  have hat := ht.attach _ _ _ ha hlock
  have hl : LocalTo h w u := localTo_setHandle rfl
  refine hl.attachStep hw hL ht hlock (by rw [hself]) (fun qs => ?_) (fun qs hqs => ?_)
    (fun qs hqs => ?_) (fun qs hqs => ?_) (fun qs hal hcr _ => ?_) ?_
  · rw [hself]
    simp [hu, hx, World.setHandle]
  · have hne : ps ≠ qs := fun heq => hqs (heq ▸ hat.born)
    unfold World.Off
    rw [hself]
    exact ⟨((hw.unborn qs hqs).1 h).1, by simpa [hx] using hne⟩
  · rw [hself] at hqs
    exact hw.refs_path h qs hqs
  · rw [hself]
    exact hw.once h qs hqs
  · rw [hself, (hmine qs hal hcr).1]
  · refine hl.ties ht hlock (by rw [hself]; exact ht.unclosed _ _ hlock) ?_
      (fun ho => ht.aim _ _ _ ha hlock ho)
      (fun hs ho => ⟨hs, fun b hb => by rw [ha, mem_some_iff] at hb; rw [← hb]; exact ho⟩)
      (by simp) fun qs z path st hq => ?_
    · refine ⟨hat.born, hat.path, ?_, ?_, fun qs hqs hne => ?_, hat.creator⟩
      · rw [hself]
        exact hat.refs
      · rw [hself]
        simp [hx]
      · obtain ⟨hr, -⟩ := hat.off qs (hl.listed.mp hqs) hne
        unfold World.Off
        rw [hself]
        exact ⟨hr, by simpa [hx] using fun heq => hne heq.symm⟩
    · rcases hp with rfl | rfl
      · obtain ⟨hborn, hpath, hready, hunl⟩ := ht.pump _ _ _ _ hq
        refine ⟨hborn, hpath, fun hs => ?_, fun hs hlist => hunl hs (hl.listed.mp hlist)⟩
        obtain ⟨-, hcr, hmem⟩ := hL.pump _ _ _ _ hq
        by_cases hz : z = h
        · subst hz
          rw [hself, (hmine qs (Stage.alive hmem) hcr).1]
        · rw [hl.handle z hz]
          exact hready hs
      · cases hq
        exact ⟨hat.born, hat.path, fun _ => by rw [hself], by simp⟩

/-- A new pump; nobody has heard of it. -/
lemma ref_create (hL : Sees i L w) (ht : Ties pathOf i L w)
    (hst : ∀ j, j ≠ i → Respects j w (w.addPump i h (pathOf h) ps))
    (hacc : Accounted (w.addPump i h (pathOf h) ps)) (hlock : L.lock = some (caller, h))
    (hs : L.seen = true) (ha : L.attach = none) (hnew : ps ∉ w.born) :
    RefStep pathOf i
      { L with
        seen := false
        attach := some ⟨ps, true, true, false⟩
        pump := some (ps, h, pathOf h, .fresh) } w (w.addPump i h (pathOf h) ps) := by
  obtain ⟨hoff, hnot⟩ := hw.unborn ps hnew
  set u : World n := w.addPump i h (pathOf h) ps with hu
  have hborn : ∀ qs ∈ w.born, qs ≠ ps := fun qs hq heq => hnew (heq ▸ hq)
  have hne : ∀ qs, w.Listed qs → qs ≠ ps := fun qs hq heq => hnot (heq ▸ hq)
  have hpump : ∀ qs, qs ≠ ps → u.pump qs = w.pump qs := fun qs hq => by simp [hu, hq]
  have hnewpump : u.pump ps = ⟨pathOf h, 1, false, h, some i⟩ := by simp [hu]
  have hrefs : ∀ y qs, qs ≠ ps → (u.handle y).refs qs = (w.handle y).refs qs :=
    fun y qs hq => by simp [hu, hq]
  have hrefs_new : ∀ y, (u.handle y).refs ps = if y = h then 1 else 0 :=
    fun y => by simp [hu, (hoff y).1]
  have hstate : ∀ y, (u.handle y).pumpState = (w.handle y).pumpState := fun y => by simp [hu]
  have hcloser : ∀ y, (u.handle y).closer = (w.handle y).closer := fun y => by simp [hu]
  have hslot : ∀ y, (u.handle y).hasSlot = (w.handle y).hasSlot := fun y => by simp [hu]
  have hoffs : ∀ y qs, qs ≠ ps → (u.Off y qs ↔ w.Off y qs) := by
    intro y qs hq
    unfold World.Off
    rw [hrefs y qs hq, hstate]
  have hspares : ∀ y, Spares y w u := fun y =>
    ⟨hstate y, fun qs hq => ⟨mem_insert_of_mem hq, by rw [hpump qs (hborn qs hq)], by
      rw [hpump qs (hborn qs hq)]⟩, fun qs hq => hrefs y qs (hq.elim (hborn qs) (hne qs)),
      fun _ hq => .inl hq, fun _ _ _ hs => (hslot y).trans hs⟩
  refine ⟨⟨hacc, fun qs => ?_, fun qs hqs => ?_, fun p qs hp => ?_, fun y qs hr => ?_,
    fun y qs hqs => ?_, fun qs hqs => ?_, fun qs hqs => ?_, fun y hc ho => ?_, fun y hr => ?_⟩,
    fun j hj => ?_, ?_⟩
  · by_cases hq : qs = ps
    · subst hq
      rw [hnewpump]
      simp [hrefs_new]
    · rw [hpump qs hq, hw.total]
      exact sum_congr rfl fun y _ => (hrefs y qs hq).symm
  · obtain ⟨hq, hqs⟩ := not_or.mp (mt mem_insert.mpr hqs)
    obtain ⟨ho, hl⟩ := hw.unborn qs hqs
    exact ⟨fun y => (hoffs y qs hq).mpr (ho y), hl⟩
  · rw [hpump qs (hne qs ⟨p, hp⟩)]
    exact hw.path p qs hp
  · by_cases hq : qs = ps
    · subst hq
      rw [hrefs_new] at hr
      rw [hnewpump]
      by_cases hy : y = h
      · rw [hy]
      · simp [hy] at hr
    · rw [hpump qs hq]
      exact hw.refs_path y qs (hrefs y qs hq ▸ hr)
  · rw [hrefs y qs (hne qs hqs)]
    exact hw.once y qs hqs
  · exact (hw.listed qs hqs).imp mem_insert_of_mem id
  · have hq : qs ≠ ps := fun heq => hnew (heq ▸ hw.accounted.born qs
      (hqs.elim (fun hr => .inr (.inl hr)) (fun hlv => .inr (.inr hlv))))
    rw [hpump qs hq, hstate]
    exact hw.stored qs hqs
  · rw [hcloser] at ho
    exact (hspares y).tallied (hw.tallied y hc ho)
  · obtain ⟨hc, ho⟩ := hw.gone y (by simpa [hu] using hr)
    rw [hcloser]
    exact ⟨hc, fun qs hqs => (hrefs y qs (hne qs hqs)).trans (ho qs hqs)⟩
  · have hx' : ∀ x, w.creation ≠ some (j, x) := by
      intro x hx
      rw [hL.lock _ _ hlock, some.injEq, Prod.mk.injEq] at hx
      exact hj hx.1.symm
    refine ⟨hst j hj, (hspares h).born, fun y hc => absurd hc (hx' y), fun y hc => (hcloser y).trans hc,
      fun y hy => ?_, fun _ _ _ hqs => .inl hqs, fun y _ _ _ _ hsl => (hslot y).trans hsl,
      fun x hc => absurd hc (hx' x), fun qs _ hal hs => ?_, fun _ _ hl => hl⟩
    · have hyh : y ≠ h := by
        rintro rfl
        exact hj ((ht.holds hL hlock).unique hy).symm
      simp [hu, hyh]
    · exact (hstate _).trans hs
  · refine ⟨fun k y hy => (hcloser y).trans (ht.unclosed k y hy), fun k y hy hv => ?_,
      fun k y b hb _ ho => ?_, fun _ _ _ hn => absurd hn (by simp), fun _ _ _ _ hn => absurd hn (by simp),
      fun k y b hb hy => ?_, fun k y b hb hy _ _ z hz => ?_, fun qs y p st hq => ?_, fun y k hk => ?_⟩
    · exact absurd (hv.2 _ rfl) (by simp)
    · cases hb
      cases ho
    · obtain ⟨-, rfl⟩ := lock_inj hlock hy
      cases hb
      refine ⟨mem_insert_self _ _, by rw [hnewpump], by simp [hrefs_new], ?_,
        fun qs hqs hq => ?_, fun _ => by rw [hnewpump]⟩
      · rw [hstate]
        simpa using (hoff _).2
      · exact (hoffs _ qs hq).mpr (ht.off _ _ hlock (.inl hs) ha qs hqs)
    · obtain ⟨-, rfl⟩ := lock_inj hlock hy
      cases hb
      exact ⟨by simp [hrefs_new, hz], hstate z ▸ (hoff z).2⟩
    · cases hq
      exact ⟨mem_insert_self _ _, by rw [hnewpump], by simp, by simp⟩
    · obtain ⟨hc, hm⟩ := ht.close y k hk
      exact ⟨(hcloser y).trans hc, (hspares y).means hm⟩

/-- The new pump is registered. -/
lemma ref_list (hL : Sees i L w) (ht : Ties pathOf i L w) (hlock : L.lock = some (caller, h))
    (ha : L.attach = some ⟨ps, true, true, false⟩) (hp : L.pump = some (ps, h, pathOf h, .fresh))
    (hex : exec i (.storeActive (pathOf h) ps) c w = some ((), u)) : RefStep pathOf i L w u := by
  have hsame := sameTokens_exec hex trivial
  obtain ⟨-, rfl⟩ := eq_of_exec hex
  set u : World n := w.setActive (pathOf h) (some ps) with hu
  have hat := ht.attach _ _ _ ha hlock
  have hlone := ht.lone _ _ _ ha hlock rfl rfl
  have hopen := ht.unclosed _ _ hlock
  obtain ⟨hown, -, hfresh⟩ := hL.pump _ _ _ _ hp
  have hspares : ∀ y, y ≠ h → Spares y w u := fun y hy =>
    ⟨rfl, fun _ hq => ⟨hq, rfl, rfl⟩, fun _ _ => rfl, fun qs hqs =>
      (listed_of_setActive hqs).symm.imp_right fun (heq : qs = ps) => heq ▸ hlone y hy,
      fun _ _ _ hs => hs⟩
  refine ⟨⟨hsame.accounted hw.accounted, hw.total, fun qs hqs => ?_, fun p qs hq => ?_, hw.refs_path,
    fun y qs hqs => ?_, fun qs hqs => ?_, hw.stored, fun y hc ho => ?_, fun y hr => ?_⟩,
    fun j hj => ?_, ?_⟩
  · obtain ⟨ho, hl⟩ := hw.unborn qs hqs
    refine ⟨ho, fun hl' => ?_⟩
    rcases listed_of_setActive hl' with rfl | hl'
    · exact hqs hat.born
    · exact hl hl'
  · rcases active_of_setActive hq with ⟨rfl, rfl⟩ | hq
    · exact hat.path
    · exact hw.path p qs hq
  · rcases listed_of_setActive hqs with rfl | hqs
    · by_cases hy : y = h
      · rw [hy]
        exact hat.refs.le
      · show (w.handle y).refs qs ≤ 1
        rw [(hlone y hy).1]
        exact Int.zero_le_ofNat 1
    · exact hw.once y qs hqs
  · rcases listed_of_setActive hqs with rfl | hqs
    · exact .inl hfresh
    · exact hw.listed qs hqs
  · have hy : y ≠ h := by
      rintro rfl
      exact hc i (hL.lock _ _ hlock)
    exact (hspares y hy).tallied (hw.tallied y hc ho)
  · have hy : y ≠ h := by
      rintro rfl
      exact not_gone hw hopen hr
    obtain ⟨hc, ho⟩ := hw.gone y hr
    exact ⟨hc, fun qs hqs => (hspares y hy).refs_eq_zero hqs (ho qs)⟩
  · have hx : ∀ x, w.creation ≠ some (j, x) := by
      intro x hx
      rw [hL.lock _ _ hlock, some.injEq, Prod.mk.injEq] at hx
      exact hj hx.1.symm
    refine ⟨hsame.respects j, fun _ hq => ⟨hq, rfl, rfl⟩, fun _ _ ho => ho, fun _ hc => hc,
      fun _ _ => ⟨rfl, rfl⟩, fun y hy qs hqs => ?_, fun _ _ _ _ _ hs => hs, fun x hc => absurd hc (hx x),
      fun _ _ _ hs => hs, fun qs hq hnl hl => ?_⟩
    · rcases listed_of_setActive hqs with rfl | hqs
      · refine .inr (hlone y ?_)
        rintro rfl
        exact hj ((ht.holds hL hlock).unique hy).symm
      · exact .inl hqs
    · rcases listed_of_setActive hl with rfl | hl
      · exact hj (some.inj (hq.symm.trans hown))
      · exact hnl hl
  · refine ⟨ht.unclosed, fun k y hy hv => ?_, ht.aim, fun _ _ _ hn => ?_, fun _ _ _ _ hn => ?_,
      fun k y b hb hy => ?_, ht.lone, fun qs y p st hq => ?_, fun y k hk => ?_⟩
    · exact absurd (hv.2 _ ha) (by simp)
    · cases ha.symm.trans hn
    · cases ha.symm.trans hn
    · obtain ⟨-, rfl⟩ := lock_inj hlock hy
      cases ha.symm.trans hb
      refine ⟨hat.born, hat.path, hat.refs, hat.state, fun qs hqs hne => ?_, hat.creator⟩
      exact hat.off qs ((listed_of_setActive hqs).resolve_left hne) hne
    · rw [hp, some.injEq, Prod.mk.injEq, Prod.mk.injEq, Prod.mk.injEq] at hq
      obtain ⟨rfl, rfl, rfl, rfl⟩ := hq
      exact ⟨hat.born, hat.path, by simp, by simp⟩
    · obtain ⟨hc, hm⟩ := ht.close y k hk
      have hy : y ≠ h := by
        rintro rfl
        rw [hopen] at hc
        cases hc
      exact ⟨hc, (hspares y hy).means hm⟩

end

end Steps

/-! ### The steps of a release and of a pump's exit -/

section Closing

variable {c : Choice}

/-- Only the release in hand changes in what a party knows. -/
lemma Ties.withClose {q : Option (Fin n × Closing)} (ht : Ties pathOf i L w)
    (hq : ∀ x k, q = some (x, k) → (w.handle x).closer = some i ∧ k.Means pathOf w x) :
    Ties pathOf i { L with close := q } w :=
  { ht with close := hq }

/-- What is known after a step of a release. -/
theorem LocalTo.ties_close (hl : LocalTo h w u) (ht : Ties pathOf i L w)
    (hne : ∀ k x, L.lock = some (k, x) → x ≠ h) (hoff : ∀ ps, w.Off h ps → u.Off h ps)
    (hstate : (u.handle h).pumpState = (w.handle h).pumpState) {q : Option (Fin n × Closing)}
    (hclose : ∀ x k, q = some (x, k) → (u.handle x).closer = some i ∧ k.Means pathOf u x) :
    Ties pathOf i { L with close := q } u := by
  have hkept : Ties pathOf i { L with close := none } u := by
    refine (ht.withClose (q := none) (by simp)).kept (fun k x hx => ?_) (fun k x hx hv => ?_)
      (fun ps x path s _ hb => ⟨⟨hl.same.born ▸ hb, hl.path ps⟩, fun hr => ?_, mt hl.listed.mp⟩)
      (by simp)
    · refine ⟨hl.spares (hne k x hx), ?_, fun y ps ho => ?_⟩
      · rw [hl.handle x (hne k x hx)]
        exact ht.unclosed k x hx
      · by_cases hy : y = h
        · exact hy ▸ hoff ps (hy ▸ ho)
        · exact (hl.off hy).mpr ho
    · obtain ⟨hq, hb⟩ := ht.quiet k x hx hv
      exact ⟨hl.same.quiet hq, (hl.same.hasSlot x).trans hb⟩
    · by_cases hx : x = h
      · subst hx
        exact hstate.trans hr
      · rwa [hl.handle x hx]
  exact hkept.withClose hclose

/-- A step of a release: the pointer stays, and so does what the handle is off. -/
lemma LocalTo.releaseStep (hl : LocalTo h w u) (hw : Referenced pathOf w) (ht : Ties pathOf i L w)
    (hne : ∀ k x, L.lock = some (k, x) → x ≠ h) (hnot : ∀ j, j ≠ i → ¬ Holds j h w)
    (hstate : (u.handle h).pumpState = (w.handle h).pumpState)
    (hcloser : (u.handle h).closer = some i)
    (hcount : ∀ qs, (u.pump qs).refCount - (w.pump qs).refCount
      = (u.handle h).refs qs - (w.handle h).refs qs)
    (hless : ∀ qs, (u.handle h).refs qs = (w.handle h).refs qs ∨
      ((w.handle h).pumpState = some qs ∧ (w.pump qs).path = pathOf h ∧
        (w.Listed qs → (u.handle h).refs qs ≤ 1)))
    (hgone : (u.handle h).released = true → ∀ qs, w.Listed qs → (u.handle h).refs qs = 0)
    {q : Option (Fin n × Closing)}
    (hclose : ∀ x k, q = some (x, k) → x = h ∧ k.Means pathOf u h) :
    RefStep pathOf i { L with close := q } w u := by
  have hoff : ∀ qs, w.Off h qs → u.Off h qs := by
    intro qs ho
    rcases hless qs with heq | ⟨hst, -⟩
    · unfold World.Off
      rw [heq, hstate]
      exact ho
    · exact absurd hst ho.2
  refine ⟨hl.referenced hw hcount (fun qs hqs => hoff qs ((hw.unborn qs hqs).1 h)) (fun qs hqs => ?_)
    (fun qs hqs => ?_) (fun qs hqs hcr => hstate.trans (hcr ▸ hw.stored qs hqs)) (by simp [hcloser])
    (fun hr => ⟨by simp [hcloser], hgone hr⟩),
    fun j hj => hl.respects (hnot j hj) (fun _ _ => hoff) fun _ _ _ _ hst => hstate.trans hst,
    hl.ties_close ht hne hoff hstate fun x k hk => ?_⟩
  · rcases hless qs with heq | ⟨-, hpath, -⟩
    · exact hw.refs_path h qs (heq ▸ hqs)
    · exact hpath
  · rcases hless qs with heq | ⟨-, -, hone⟩
    · exact heq ▸ hw.once h qs hqs
    · exact hone hqs
  · obtain ⟨rfl, hm⟩ := hclose x k hk
    exact ⟨hcloser, hm⟩

lemma ref_close (hw : Referenced pathOf w) (hL : Sees i L w) (ht : Ties pathOf i L w)
    (hok : attachesOnce (.closeHandle h) c w)
    (hex : exec i (.closeHandle h) c w = some ((), u)) :
    RefStep pathOf i { L with close := some (h, .closing) } w u := by
  obtain ⟨hopen, hfree⟩ := hok
  obtain ⟨-, rfl⟩ := eq_of_exec hex
  have hcreation : ∀ j, w.creation ≠ some (j, h) := fun j hj => hfree _ hj rfl
  have hl : LocalTo h w (w.setHandle h { w.handle h with closer := some i }) :=
    localTo_setHandle rfl
  refine hl.releaseStep hw ht (fun k y hy => hfree _ (hL.lock k y hy)) (fun j _ hh => ?_) (by simp)
    (by simp) (by simp) (by simp) (fun hr => ?_) fun x k hk => ?_
  · rcases hh with ⟨hj, -⟩ | hj
    · exact hcreation j hj
    · cases hopen.symm.trans hj
  · exact absurd hopen (hw.gone h (by simpa using hr)).1
  · cases hk
    refine ⟨rfl, fun qs hqs => ?_⟩
    simpa using hw.tallied _ hcreation hopen qs (hl.listed.mp hqs)

lemma lock_ne_of_close (ht : Ties pathOf i L w) {k : Closing} (hc : L.close = some (h, k)) :
    ∀ k x, L.lock = some (k, x) → x ≠ h := by
  rintro k x hx rfl
  have hclosed := (ht.close _ _ hc).1
  rw [ht.unclosed k x hx] at hclosed
  cases hclosed

lemma not_holds_of_closer (hc : (w.handle h).closer = some i) (hj : j ≠ i) : ¬ Holds j h w :=
  fun hh => hj ((show Holds i h w from .inr hc).unique hh).symm

/-- A handle that points to a registered pump is taken off its count. -/
lemma ref_uncount (hw : Referenced pathOf w) (ht : Ties pathOf i L w)
    (hc : L.close = some (h, .owns ps)) {r : ℤ}
    (hex : exec i (.dropRef h ps) c w = some (r, u)) :
    RefStep pathOf i { L with close := some (h, .gone) } w u := by
  obtain ⟨hcloser, hstate, -, hpath, hone, hzero⟩ := ht.close _ _ hc
  have hr := recounts (-1) (sameTokens_exec hex trivial) (eq_of_exec hex).2
  have hother : ∀ qs, qs ≠ ps → (u.handle h).refs qs = (w.handle h).refs qs := by
    intro qs hq
    rw [hr.refs, if_neg hq, add_zero]
  have hgone : ∀ qs, w.Listed qs → (u.handle h).refs qs = 0 := by
    intro qs hqs
    by_cases hq : qs = ps
    · subst hq
      rw [hr.refs, if_pos rfl, hone hqs]
      rfl
    · rw [hother qs hq]
      exact hzero qs hqs hq
  refine hr.releaseStep hw ht (lock_ne_of_close ht hc) (fun j => not_holds_of_closer hcloser) hr.state
    (hr.closer.trans hcloser) (fun qs => ?_) (fun qs => ?_) (fun _ => hgone) fun x k hk => ?_
  · rw [hr.refs, hr.refCount]
    omega
  · by_cases hq : qs = ps
    · refine .inr ⟨hq ▸ hstate, hq ▸ hpath, fun hqs => ?_⟩
      rw [hgone qs hqs]
      exact Int.zero_le_ofNat 1
    · exact .inl (hother qs hq)
  · cases hk
    exact ⟨rfl, fun qs hqs => hgone qs (hr.listed.mp hqs)⟩

lemma ref_closed (hw : Referenced pathOf w) (ht : Ties pathOf i L w)
    (hc : L.close = some (h, .gone)) (hex : exec i (.endRelease h) c w = some ((), u)) :
    RefStep pathOf i { L with close := none } w u := by
  obtain ⟨-, rfl⟩ := eq_of_exec hex
  obtain ⟨hcloser, hgone⟩ := ht.close _ _ hc
  have hl : LocalTo h w (w.setHandle h { w.handle h with released := true }) :=
    localTo_setHandle rfl
  exact hl.releaseStep hw ht (lock_ne_of_close ht hc) (fun j => not_holds_of_closer hcloser)
    (by simp) (by simpa using hcloser) (by simp) (by simp)
    (fun _ qs hqs => by simpa using hgone qs hqs) (by simp)

/-- A pump's exit takes the flag of a handle that points to no registered pump. -/
lemma undisturbed_clearSlot {path : String} (hw : Referenced pathOf w) (hL : Sees i L w)
    (ht : Ties pathOf i L w) (hp : L.pump = some (ps, h, path, .leaving)) :
    Undisturbed w (w.cleared h ps) := by
  obtain ⟨-, hcreator, hmem⟩ := hL.pump _ _ _ _ hp
  obtain ⟨-, -, -, hunl⟩ := ht.pump _ _ _ _ hp
  have hstate := hw.stored ps (.inr hmem)
  rw [hcreator] at hstate
  refine { Undisturbed.refl w with
    refs := by simp, state := by simp, closer := by simp, released := by simp
    hasSlot := fun y qs hqs hst hs => ?_ }
  have hy : y ≠ h := by
    rintro rfl
    cases hstate.symm.trans hst
    exact hunl (.inr rfl) hqs
  simpa [hy] using hs

end Closing

/-! ### Every run -/

section Runs

variable {c : Choice}

lemma freshClaim_of_mild {o : Op n} (ho : o.Mild) : freshClaim o c w := by
  cases o <;> first | exact trivial | exact ho.elim

/-- A handle that `startNativePump` has locked without a slot has none yet. -/
lemma freshClaim_of_follows {o : Op n} {r : o.Res} (hf : Follows pathOf L o r L')
    (hL : Sees i L w) (ht : Ties pathOf i L w) : freshClaim o c w := by
  cases hf with
  | absurd habs => cases hL.absurd.symm.trans habs
  | mild ho => exact freshClaim_of_mild ho
  | @claim caller _ hlock hs hfl ha =>
    cases caller with
    | read => exact trivial
    | start => exact (ht.quiet _ _ hlock ⟨.inr rfl, by simp [ha]⟩).2.trans hfl
  | _ => exact trivial

/-- A step that changes the locks but no count. -/
lemma Undisturbed.unlock {caller : Caller} (hu : Undisturbed w u) (hw : Referenced pathOf w)
    (hL : Sees i L w) (ht : Ties pathOf i L w) (hst : TokenStep i L' w u)
    (hlock : L.lock = some (caller, h)) (hf : u.fresh = w.fresh) (hr : u.running = w.running)
    (hlv : u.leaving = w.leaving) (htal : w.Tallied h) (hl' : L'.lock = none)
    (hp : L'.pump = L.pump) (hc : L'.close = L.close) : RefStep pathOf i L' w u := by
  refine ⟨hu.referenced hw hst.inv (fun ps _ hps => by rwa [hf, hr])
    (fun ps hps => .inl (by rwa [hr, hlv] at hps)) (fun x _ => ?_),
    fun j hj => hu.respects (hst.respects j hj), ?_⟩
  · by_cases hx : x = h
    · exact .inr (hx ▸ htal)
    · refine .inl fun k hk => ?_
      rw [hL.lock _ _ hlock, some.injEq, Prod.mk.injEq] at hk
      exact hx hk.2.symm
  · have ht' : Ties pathOf i L' w := by
      refine ⟨?_, ?_, ?_, ?_, ?_, ?_, ?_, hp ▸ ht.pump, hc ▸ ht.close⟩ <;> simp [hl']
    exact hu.ties ht' (by simp [hl'])

/-- A step that moves tokens or pumps and leaves the locks. -/
lemma Undisturbed.move (hu : Undisturbed w u) (hw : Referenced pathOf w)
    (hst : TokenStep i L' w u) (hcr : u.creation = w.creation)
    (hlisted : ∀ ps, u.Listed ps → ps ∈ w.fresh ∨ ps ∈ w.running → ps ∈ u.fresh ∨ ps ∈ u.running)
    (hstored : ∀ ps, ps ∈ u.running ∨ ps ∈ u.leaving → (ps ∈ w.running ∨ ps ∈ w.leaving) ∨
      (w.handle (w.pump ps).creator).pumpState = some ps)
    (hties : Ties pathOf i L' u) : RefStep pathOf i L' w u :=
  ⟨hu.referenced hw hst.inv hlisted hstored fun x hx => .inl (by rwa [hcr] at hx),
    fun j hj => hu.respects (hst.respects j hj), hties⟩

/-- A step that moves tokens only. -/
lemma Undisturbed.pay (hu : Undisturbed w u) (hw : Referenced pathOf w) (hst : TokenStep i L' w u)
    (ht : Ties pathOf i L' w) (hcr : u.creation = w.creation) (hf : u.fresh = w.fresh)
    (hr : u.running = w.running) (hlv : u.leaving = w.leaving) (hh : u.handle = w.handle)
    (hp : u.pump = w.pump) : RefStep pathOf i L' w u := by
  refine hu.move hw hst hcr (fun ps _ hps => by rwa [hf, hr])
    (fun ps hps => .inl (by rwa [hr, hlv] at hps)) (hu.ties ht fun k x hx hv => ?_)
  obtain ⟨hq, hb⟩ := ht.quiet k x hx hv
  refine ⟨fun ps hps => ?_, hh ▸ hb⟩
  rw [hp]
  refine hq ps ?_
  unfold World.Alive at hps ⊢
  rwa [hf, hr, hlv] at hps

/-- Only the token or the pump in hand changes in what a party knows. -/
lemma Ties.withPump {b : Bool} {q : Option (ℕ × Fin n × String × Stage)} (ht : Ties pathOf i L w)
    (hq : ∀ ps x path s, q = some (ps, x, path, s) → ps ∈ w.born ∧ (w.pump ps).path = path ∧
      (s = .ready → (w.handle x).pumpState = some ps) ∧
      (s = .unlisted ∨ s = .leaving → ¬ w.Listed ps)) :
    Ties pathOf i { L with token := b, pump := q } w :=
  { ht with pump := hq }

/-- A party's step with a pump of its own. -/
lemma Undisturbed.alter (hu : Undisturbed w u) (ha : Alters ps w u) (hw : Referenced pathOf w)
    (hst : TokenStep i L' w u) (ht : Ties pathOf i L' w)
    (hlisted : u.Listed ps → ps ∈ u.fresh ∨ ps ∈ u.running)
    (hstored : (w.handle (w.pump ps).creator).pumpState = some ps) : RefStep pathOf i L' w u := by
  refine hu.move hw hst ha.creation (fun qs hl hqs => ?_) (fun qs hqs => ?_)
    (hu.ties ht fun k x hx hv => ?_)
  · by_cases hq : qs = ps
    · exact hq ▸ hlisted (hq ▸ hl)
    · rwa [ha.fresh qs hq, ha.running qs hq]
  · by_cases hq : qs = ps
    · exact .inr (hq ▸ hstored)
    · rw [ha.running qs hq, ha.leaving qs hq] at hqs
      exact .inl hqs
  · obtain ⟨hq, hb⟩ := ht.quiet k x hx hv
    exact ⟨(ha.quiet hq).1, (ha.quiet hq).2.trans hb⟩

section

variable (hw : Referenced pathOf w)

include hw

lemma ref_setSlot {caller : Caller} {s : Bool} (ht : Ties pathOf i L w)
    (hlock : L.lock = some (caller, h)) (hs : L.seen = true ∨ caller = .start)
    (hs' : L.seen = true → s = true) (hq : w.Quiet h)
    (hst : TokenStep i { L with seen := s, flagged := true } w
      (w.setHandle h { w.handle h with hasSlot := true })) :
    RefStep pathOf i { L with seen := s, flagged := true } w
      (w.setHandle h { w.handle h with hasSlot := true }) := by
  have hu : Undisturbed w (w.setHandle h { w.handle h with hasSlot := true }) :=
    undisturbed_setHandle rfl rfl rfl rfl fun _ => rfl
  have ht' : Ties pathOf i { L with seen := s } w := by
    refine { ht with quiet := fun k x hx hv => ?_, off := fun k x hx _ ha => ?_,
                     aim := fun k x a ha hx ho => (ht.aim k x a ha hx ho).imp_left hs' }
    · obtain ⟨rfl, rfl⟩ := lock_inj hlock hx
      exact ht.quiet _ _ hlock ⟨hs, hv.2⟩
    · obtain ⟨rfl, rfl⟩ := lock_inj hlock hx
      exact ht.off _ _ hlock hs ha
  refine hu.move hw hst rfl (fun _ _ h => h) (fun _ h => .inl h) (hu.ties ht' fun k x hx _ => ?_)
  obtain ⟨rfl, rfl⟩ := lock_inj hlock hx
  exact ⟨hq, hasSlot_setHandle_self⟩

/-- The new pump's goroutine starts. -/
lemma ref_launch {path : String} (hL : Sees i L w) (ht : Ties pathOf i L w)
    (hp : L.pump = some (ps, h, path, .ready))
    (hst : TokenStep i { L with token := false, pump := none } w (w.launched i ps)) :
    RefStep pathOf i { L with token := false, pump := none } w (w.launched i ps) := by
  obtain ⟨-, hcreator, hfresh⟩ := hL.pump _ _ _ _ hp
  have hready := (ht.pump _ _ _ _ hp).2.2.1 rfl
  have hset : Undisturbed w (w.setPump ps { w.pump ps with owner := none }) :=
    undisturbed_setPump ps rfl rfl rfl
  have hun : Undisturbed w (w.launched i ps) := { hset with }
  exact hun.alter (alters_launched hfresh) hw hst (ht.withPump (by simp))
    (fun _ => .inr (mem_insert_self _ _)) (hcreator ▸ hready)

lemma ref_nextPump (ht : Ties pathOf i L w) (hrun : ps ∈ w.running)
    (hst : TokenStep i
      { L with pump := some (ps, (w.pump ps).creator, (w.pump ps).path, .running) } w
      (w.setPump ps { w.pump ps with owner := some i })) :
    RefStep pathOf i
      { L with pump := some (ps, (w.pump ps).creator, (w.pump ps).path, .running) } w
      (w.setPump ps { w.pump ps with owner := some i }) := by
  have hun : Undisturbed w (w.setPump ps { w.pump ps with owner := some i }) :=
    undisturbed_setPump ps rfl rfl rfl
  refine hun.alter (alters_setOwner hrun) hw hst (ht.withPump fun qs x path s hq => ?_)
    (fun _ => .inr hrun) (hw.stored ps (.inl hrun))
  cases hq
  exact ⟨hw.accounted.born _ (.inr (.inl hrun)), rfl, by simp, by simp⟩

/-- A pump that is no longer registered returns its token. -/
lemma ref_returnToken {path : String} (hL : Sees i L w) (ht : Ties pathOf i L w)
    (hp : L.pump = some (ps, h, path, .unlisted))
    (hst : TokenStep i { L with pump := some (ps, h, path, .leaving) } w (w.returned ps)) :
    RefStep pathOf i { L with pump := some (ps, h, path, .leaving) } w (w.returned ps) := by
  obtain ⟨hborn, hpath, -, hunl⟩ := ht.pump _ _ _ _ hp
  obtain ⟨-, -, hmem⟩ := hL.pump _ _ _ _ hp
  have hun : Undisturbed w (w.returned ps) := { Undisturbed.refl w with }
  refine hun.alter (alters_returned hmem) hw hst (ht.withPump fun qs x p s hq => ?_)
    (fun hl => absurd hl (hunl (.inl rfl))) (hw.stored ps (.inl hmem))
  cases hq
  exact ⟨hborn, hpath, by simp, fun _ => hunl (.inl rfl)⟩

lemma ref_clearSlot {path : String} (hL : Sees i L w) (ht : Ties pathOf i L w)
    (hp : L.pump = some (ps, h, path, .leaving))
    (hst : TokenStep i { L with pump := none } w (w.cleared h ps)) :
    RefStep pathOf i { L with pump := none } w (w.cleared h ps) := by
  obtain ⟨-, hcreator, hmem⟩ := hL.pump _ _ _ _ hp
  obtain ⟨-, -, -, hunl⟩ := ht.pump _ _ _ _ hp
  exact (undisturbed_clearSlot hw hL ht hp).alter (alters_cleared hmem hcreator) hw hst
    (ht.withPump (by simp)) (fun hl => absurd hl (hunl (.inr rfl))) (hw.stored ps (.inr hmem))

/-- A registered pump that a handle counts in is the one registered for its path. -/
lemma Referenced.active_of_refs (hl : w.Listed qs) (hr : (w.handle h).refs qs ≠ 0) :
    w.active (pathOf h) = some qs := by
  obtain ⟨p, hp⟩ := hl
  rw [← hw.refs_path h qs hr, hw.path p qs hp]
  exact hp

end

/-! #### What a party learns of the handle it has locked or releases -/

section Reads

variable {caller : Caller} {a : Attach} {r : Option ℕ}

/-- Nothing has changed. -/
lemma Referenced.read (hw : Referenced pathOf w) (ht : Ties pathOf i L' w) :
    RefStep pathOf i L' w w :=
  (Undisturbed.refl w).calm (SameTokens.refl w) hw ht

lemma ref_lock (hw : Referenced pathOf w) (ht : Ties pathOf i L w) (hfree : w.creation = none)
    (hopen : (w.handle h).closer = none) (hslot : caller = .start → (w.handle h).hasSlot = false)
    (hst : TokenStep i
      { L with lock := some (caller, h), seen := false, flagged := false, attach := none } w
      { w with creation := some (i, h) }) :
    RefStep pathOf i
      { L with lock := some (caller, h), seen := false, flagged := false, attach := none } w
      { w with creation := some (i, h) } := by
  have htal : w.Tallied h := hw.tallied h (by simp [hfree]) hopen
  have hu : Undisturbed w { w with creation := some (i, h) } := { Undisturbed.refl w with }
  refine ⟨hu.referenced hw hst.inv (fun _ _ h => h) (fun _ h => .inl h)
    (fun y _ => .inl (by simp [hfree])), fun j hj => hu.respects (hst.respects j hj), ?_⟩
  refine { ht with unclosed := fun k y hy => ?_, quiet := fun k y hy hv => ?_, aim := by simp,
                   tallied := fun k y hy _ => ?_, off := fun k y hy hs _ => ?_,
                   attach := by simp, lone := by simp }
  all_goals obtain ⟨rfl, rfl⟩ := Prod.mk.inj (some.inj hy)
  · exact hopen
  · have hs := hslot (hv.1.resolve_left (by simp))
    exact ⟨hw.accounted.quiet hs, hs⟩
  · exact htal
  · exact htal.off (hslot (hs.resolve_left (by simp)))

section

variable (ht : Ties pathOf i L w)

include ht

section

variable (hw : Referenced pathOf w)

include hw

section

variable (hlock : L.lock = some (caller, h))

include hlock

/-- An attached handle counts once in the pump it points to, and points to a
live one. -/
lemma Ties.settled (hfl : L.flagged = true) (ha : L.attach = some a) (hcount : a.counted = true)
    (hstored : a.stored = true) : w.Tallied h := by
  have hat := ht.attach _ _ _ ha hlock
  intro qs hqs
  by_cases hq : qs = a.ps
  · subst hq
    refine ⟨by rw [hat.refs, hcount, if_pos (hat.state.mpr hstored)]; rfl, fun _ => ?_⟩
    cases hown : a.own with
    | false =>
      have hvac : L.Vacant caller :=
        ⟨ht.aim _ _ _ ha hlock hown, fun b hb => some.inj (ha.symm.trans hb) ▸ hown⟩
      exact (ht.quiet _ _ hlock hvac).2.trans hfl
    | true =>
      have hal : w.Alive a.ps := (hw.listed _ hqs).imp_right .inl
      have hslot := hw.accounted.slot _ hal
      rwa [hat.creator hown] at hslot
  · obtain ⟨hr, hs⟩ := hat.off qs hqs hq
    exact ⟨hr.trans (if_neg hs).symm, fun hst => absurd hst hs⟩

lemma Ties.look (hfl : L.flagged = false) (ha : L.attach = none) :
    Ties pathOf i { L with seen := !(w.handle h).hasSlot } w := by
  have hslot : ∀ k, ((!(w.handle h).hasSlot) = true ∨ k = .start) → k = caller →
      (w.handle h).hasSlot = false := by
    rintro k (hk | hk) hkc
    · simpa using hk
    · exact (ht.quiet _ _ hlock ⟨.inr (hkc ▸ hk), by simp [ha]⟩).2.trans hfl
  refine { ht with quiet := fun k y hy hv => ?_, off := fun k y hy hk _ => ?_, aim := by simp [ha] }
  · obtain ⟨rfl, rfl⟩ := lock_inj hlock hy
    have hno := hslot _ hv.1 rfl
    exact ⟨hw.accounted.quiet hno, hno.trans hfl.symm⟩
  · obtain ⟨rfl, rfl⟩ := lock_inj hlock hy
    exact (ht.tallied _ _ hlock ha).off (hslot _ hk rfl)

lemma Ties.target (hs : L.seen = true ∨ caller = .start) (ha : L.attach = none)
    (hr : r = w.active (pathOf h)) :
    Ties pathOf i { L with attach := r.map fun ps => ⟨ps, false, false, false⟩ } w := by
  cases r with
  | none =>
    exact { ht with
      quiet := fun k y hy hv => ht.quiet k y hy ⟨hv.1, by simp [ha]⟩, aim := by simp
      tallied := fun k y hy _ => ht.tallied k y hy ha, attach := by simp, lone := by simp
      off := fun k y hy hk _ => ht.off k y hy hk ha }
  | some ps =>
    have hps : w.Listed ps := ⟨_, hr.symm⟩
    have hoff := ht.off _ _ hlock hs ha
    refine ⟨ht.unclosed, fun k y hy hv => ht.quiet k y hy ⟨hv.1, by simp [ha]⟩,
      fun k y a _ hy _ => ?_, by simp, by simp, fun k y a hat hy => ?_,
      fun k y a hat _ ho => ?_, ht.pump, ht.close⟩
    · obtain ⟨rfl, rfl⟩ := lock_inj hlock hy
      exact hs
    · obtain ⟨rfl, rfl⟩ := lock_inj hlock hy
      cases hat
      refine ⟨?_, hw.path _ _ hr.symm, (hoff ps hps).1, by simpa using (hoff ps hps).2,
        fun qs hqs _ => hoff qs hqs, by simp⟩
      by_contra hborn
      exact (hw.unborn ps hborn).2 hps
    · cases hat
      cases ho

end

lemma Ties.find (hc : L.close = some (h, .closing)) (hr : r = w.active (pathOf h)) :
    Ties pathOf i { L with close := some (h, r.elim .gone .found) } w := by
  obtain ⟨hcl, htal⟩ := ht.close _ _ hc
  refine ht.withClose fun y k hk => ?_
  cases hk
  refine ⟨hcl, ?_⟩
  cases r with
  | none =>
    intro qs hqs
    by_contra hne
    cases hr.trans (hw.active_of_refs hqs hne)
  | some ps =>
    refine ⟨htal, ?_, hw.path _ _ hr.symm, fun qs hqs hq => ?_⟩
    · by_contra hborn
      exact (hw.unborn ps hborn).2 ⟨_, hr.symm⟩
    · by_contra hne
      exact hq (some.inj (hr.trans (hw.active_of_refs hqs hne))).symm

end

lemma Ties.compare (hc : L.close = some (h, .found ps)) (hr : r = (w.handle h).pumpState) :
    Ties pathOf i { L with close := some (h, if r = some ps then .owns ps else .gone) } w := by
  obtain ⟨hcl, htal, hborn, hpath, hzero⟩ := ht.close _ _ hc
  refine ht.withClose fun y k hk => ?_
  cases hk
  refine ⟨hcl, ?_⟩
  by_cases heq : r = some ps
  · rw [if_pos heq]
    have hstate := hr.symm.trans heq
    exact ⟨hstate, hborn, hpath, fun hl => (htal ps hl).1.trans (if_pos hstate), hzero⟩
  rw [if_neg heq]
  intro qs hqs
  by_cases hq : qs = ps
  · rw [(htal qs hqs).1, if_neg fun hst => heq (hr.trans (hq ▸ hst))]
  · exact hzero qs hqs hq

end

end Reads

theorem ref_step {o : Op n} {r : o.Res} (hf : Follows pathOf L o r L') (hok : attachesOnce o c w)
    (hw : Referenced pathOf w) (hL : Sees i L w) (ht : Ties pathOf i L w)
    (hst : TokenStep i L' w u) (hex : exec i o c w = some (r, u)) : RefStep pathOf i L' w u := by
  cases hf with
  | absurd habs => cases hL.absurd.symm.trans habs
  | mild ho => exact (undisturbed_exec hex ho).calm (sameTokens_exec hex ho.tokenFree) hw ht
  | lock hlock hp =>
    simp only [exec, ite_none_right_eq_some] at hex
    obtain ⟨-, rfl⟩ := eq_of_exec hex.2
    exact ref_lock hw ht hex.1 hok.1 hok.2 hst
  | pass hlock hfl ha =>
    obtain ⟨-, rfl⟩ := eq_of_exec hex
    exact Undisturbed.unlock { Undisturbed.refl w with } hw hL ht hst hlock rfl rfl rfl
      (ht.tallied _ _ hlock ha) rfl rfl rfl
  | settle hlock hfl ha hcount hstored =>
    obtain ⟨-, rfl⟩ := eq_of_exec hex
    exact Undisturbed.unlock { Undisturbed.refl w with } hw hL ht hst hlock rfl rfl rfl
      (ht.settled hw hlock hfl ha hcount hstored) rfl rfl rfl
  | look hlock hs hfl ha =>
    obtain ⟨rfl, rfl⟩ := eq_of_exec hex
    exact hw.read (ht.look hw hlock hfl ha)
  | lookAgain _ _ | orphan _ =>
    obtain ⟨-, rfl⟩ := eq_of_exec hex
    exact hw.read { ht with }
  | target hlock hs hfl ha =>
    obtain ⟨hr, rfl⟩ := eq_of_exec hex
    exact hw.read (ht.target hw hlock hs ha hr)
  | count hlock ha => exact ref_count hw hL ht hlock ha hex
  | flag hlock ha hfl =>
    obtain ⟨-, rfl⟩ := eq_of_exec hex
    have hs := ht.aim _ _ _ ha hlock rfl
    have hq := (ht.quiet _ _ hlock ⟨hs, by simp [ha]⟩).1
    exact ref_setSlot hw ht hlock hs id hq hst
  | store hlock ha hfl =>
    have hs := ht.aim _ _ _ ha hlock rfl
    have hq := (ht.quiet _ _ hlock ⟨hs, by simp [ha]⟩).1
    exact ref_storeState hw hL ht hlock ha (fun qs hal hcr => absurd hcr (hq qs hal)) (.inl rfl) hex
  | claim hlock hs hfl ha =>
    obtain ⟨-, rfl⟩ := eq_of_exec hex
    have hq := (ht.quiet _ _ hlock ⟨hs, by simp [ha]⟩).1
    exact ref_setSlot hw ht hlock hs (fun _ => rfl) hq hst
  | create hlock hs hfl ha hp =>
    simp only [exec, ite_none_left_eq_some] at hex
    obtain ⟨rfl, rfl⟩ := eq_of_exec hex.2
    exact ref_create hw hL ht hst.respects hst.inv hlock hs ha hex.1
  | list hlock ha hp => exact ref_list hw hL ht hlock ha hp hex
  | own hlock ha hp =>
    obtain ⟨hown, hcr, hfresh⟩ := hL.pump _ _ _ _ hp
    refine ref_storeState hw hL ht hlock ha (fun qs hal hqs => ?_) (.inr rfl) hex
    have hps := hw.accounted.single qs _ hal (.inl hfresh) (hqs.trans hcr.symm)
    exact ⟨hps, hfresh, hown⟩
  | launch htok hp =>
    obtain ⟨-, rfl⟩ := eq_of_exec hex
    exact ref_launch hw hL ht hp hst
  | begin hp =>
    simp only [exec, ite_none_right_eq_some] at hex
    obtain ⟨rfl, rfl⟩ := eq_of_exec hex.2
    exact ref_nextPump hw ht hex.1.1 hst
  | @unlisted x path ps r hp hne =>
    obtain ⟨hr, rfl⟩ := eq_of_exec hex
    obtain ⟨hborn, hpath, -, -⟩ := ht.pump _ _ _ _ hp
    refine hw.read (ht.withPump fun qs y p s hq => ?_)
    cases hq
    exact ⟨hborn, hpath, by simp, fun _ => not_listed hw.path hpath (hr ▸ hne)⟩
  | @unlist x path ps hp =>
    have hcalm := (undisturbed_exec hex trivial).calm (sameTokens_exec hex trivial) hw ht
    obtain ⟨-, rfl⟩ := eq_of_exec hex
    obtain ⟨hborn, hpath, -, -⟩ := ht.pump _ _ _ _ hp
    refine ⟨hcalm.inv, hcalm.respects, hcalm.ties.withPump fun qs y p s hq => ?_⟩
    cases hq
    exact ⟨hborn, hpath, by simp, fun _ => not_listed hcalm.inv.path hpath (by simp)⟩
  | repay hp =>
    obtain ⟨-, rfl⟩ := eq_of_exec hex
    exact ref_returnToken hw hL ht hp hst
  | clear hp =>
    obtain ⟨-, rfl⟩ := eq_of_exec hex
    exact ref_clearSlot hw hL ht hp hst
  | acquire _ =>
    simp only [exec] at hex
    split_ifs at hex
    · obtain ⟨rfl, rfl⟩ := eq_of_exec hex
      exact Undisturbed.pay { Undisturbed.refl w with } hw hst (ht.withPump ht.pump) rfl rfl rfl rfl
        rfl rfl
    · obtain ⟨rfl, rfl⟩ := eq_of_exec hex
      exact hw.read (ht.withPump ht.pump)
  | giveBack _ =>
    simp only [exec, ite_none_right_eq_some] at hex
    obtain ⟨-, rfl⟩ := eq_of_exec hex.2
    exact Undisturbed.pay { Undisturbed.refl w with } hw hst (ht.withPump ht.pump) rfl rfl rfl rfl
      rfl rfl
  | borrow _ =>
    have ht' : ∀ b, Ties pathOf i { L with temporary := b } w := fun b => { ht with }
    simp only [exec] at hex
    split_ifs at hex
    · obtain ⟨rfl, rfl⟩ := eq_of_exec hex
      exact Undisturbed.pay { Undisturbed.refl w with } hw hst (ht' _) rfl rfl rfl rfl rfl rfl
    · obtain ⟨rfl, rfl⟩ := eq_of_exec hex
      exact hw.read (ht' _)
  | returnBorrowed _ =>
    simp only [exec, ite_none_right_eq_some] at hex
    obtain ⟨-, rfl⟩ := eq_of_exec hex.2
    exact Undisturbed.pay { Undisturbed.refl w with } hw hst { ht with } rfl rfl rfl rfl rfl rfl
  | close _ _ => exact ref_close hw hL ht hok hex
  | find hc =>
    obtain ⟨hr, rfl⟩ := eq_of_exec hex
    exact hw.read (ht.find hw hc hr)
  | slotless hc =>
    obtain ⟨hr, rfl⟩ := eq_of_exec hex
    obtain ⟨hcl, htal, -⟩ := ht.close _ _ hc
    refine hw.read (ht.withClose fun y k hk => ?_)
    cases hk
    exact ⟨hcl, fun qs hqs => (htal.off hr.symm qs hqs).1⟩
  | compare hc =>
    obtain ⟨hr, rfl⟩ := eq_of_exec hex
    exact hw.read (ht.compare hc hr)
  | uncount hc => exact ref_uncount hw ht hc hex
  | closed hc => exact ref_closed hw ht hc hex

lemma referenced_opened [NeZero n] {capacity : ℕ} :
    Referenced pathOf (World.opened capacity : World n) := by
  refine ⟨accounted_opened, ?_, ?_, ?_, ?_, ?_, ?_, ?_, ?_, ?_⟩ <;>
    simp [World.opened, World.Off, World.Listed, World.Tallied, Handle.opened]

lemma ties_opened [NeZero n] {capacity : ℕ} :
    Ties pathOf i Sight.start (World.opened capacity : World n) := by
  constructor <;> simp [Sight.start]

/-- At rest: nobody attaches a handle and no `Release` is under way. -/
def World.AtRest (w : World n) : Prop :=
  w.creation = none ∧ ∀ h, (w.handle h).closer = none ∨ (w.handle h).released = true

instance (w : World n) : Decidable w.AtRest := inferInstanceAs (Decidable (_ ∧ _))

lemma Referenced.refCount (hw : Referenced pathOf w) (hrest : w.AtRest) (hps : w.Listed ps) :
    (w.pump ps).refCount = (univ.filter fun h =>
      (w.handle h).released = false ∧ (w.handle h).pumpState = some ps).card := by
  rw [hw.total, card_filter, Nat.cast_sum]
  refine sum_congr rfl fun h _ => ?_
  cases hr : (w.handle h).released with
  | true => simpa using (hw.gone h hr).2 ps hps
  | false =>
    have hopen := (hrest.2 h).resolve_right (by simp [hr])
    have htal := hw.tallied h (by simp [hrest.1]) hopen ps hps
    simpa using htal.1

/-- As long as `startNativePump` attaches only a handle without a slot, and no
handle is attached while it is released or afterwards, no handle is counted
twice in a registered pump, and at rest its `refCount` is the number of
unreleased handles that point to it: zero once the last of them is released. -/
theorem refCount_counts_attached_handles [NeZero n] (pathOf : Fin n → String) (capacity : ℕ)
    (gs : List (Goroutine n)) {ls : List (ℕ × Move Choice)}
    {cfg : Config (Op n) Op.Res Unit (World n)}
    (hrun : Run (Guarded (Allowed attachesOnce) (pumpSystem n).Step)
      (together pathOf capacity gs) ls cfg) {path : String} {ps : ℕ}
    (hps : cfg.state.active path = some ps) :
    (cfg.state.pump ps).refCount = ∑ h, (cfg.state.handle h).refs ps ∧
      (∀ h, (cfg.state.handle h).refs ps ≤ 1) ∧
      (cfg.state.AtRest →
        (cfg.state.pump ps).refCount = (univ.filter fun h =>
          (cfg.state.handle h).released = false ∧
            (cfg.state.handle h).pumpState = some ps).card) ∧
      (cfg.state.AtRest →
        (∀ h, (cfg.state.handle h).pumpState = some ps → (cfg.state.handle h).released = true) →
        (cfg.state.pump ps).refCount = 0) := by
  have hvalid : (refParties pathOf).Valid (together pathOf capacity gs) := by
    refine Parties.valid_of_outlines (fun i L w => Sees i L w ∧ Ties pathOf i L w) referenced_opened
      (kept_program pathOf) (fun hs hr => ⟨hs.1.stable hr.tokens, hs.2.stable hs.1 hr⟩)
      (fun hf hok hw hs hex => ?_) (fun _ => ⟨sees_opened capacity, ties_opened⟩)
      fun _ _ _ => trivial
    have htok := token_step hf (freshClaim_of_follows hf hs.1 hs.2) hw.accounted hs.1 hex
    have hstep := ref_step hf hok hw hs.1 hs.2 htok hex
    exact ⟨hstep.inv, hstep.respects, htok.sees, hstep.ties⟩
  have hinv := (hvalid.run hrun).inv
  have hlisted : cfg.state.Listed ps := ⟨path, hps⟩
  refine ⟨hinv.total ps, fun h => hinv.once h ps hlisted, fun hrest => hinv.refCount hrest hlisted,
    fun hrest hall => ?_⟩
  rw [hinv.refCount hrest hlisted, filter_false_of_mem]
  · rfl
  · rintro h - ⟨hr, hs⟩
    exact absurd (hall h hs) (by simp [hr])

/-! ### Two handles of one file -/

/-- Two handles; the second is opened late: its `startNativePump` runs beside
its first read. -/
def twoHandles : Config (Op 2) Op.Res Unit (World 2) :=
  together (fun _ => "movie.mkv") 25 [.start 0, .start 1, .read 1, .release 0, .release 1]

def sharedPumpEnd : Option (Config (Op 2) Op.Res Unit (World 2)) :=
  runSchedule (pumpSystem 2) attachesOnce twoHandles
    (turns 0 14 7 ++ turns 2 12 0 ++ turns 1 1 0 ++ turns 3 6 0)

theorem remaining_handle_is_counted_once :
    ∃ cfg, sharedPumpEnd = some cfg ∧ cfg.state.active "movie.mkv" = some 7 ∧
      cfg.state.AtRest ∧ (cfg.state.pump 7).refCount = 1 ∧
      (cfg.state.pump 7).refCount = (univ.filter fun h =>
        (cfg.state.handle h).released = false ∧
          (cfg.state.handle h).pumpState = some 7).card := by
  obtain ⟨cfg, hcfg, hactive, hrest, hcount⟩ : ∃ cfg ∈ sharedPumpEnd,
      cfg.state.active "movie.mkv" = some 7 ∧ cfg.state.AtRest ∧
        (cfg.state.pump 7).refCount = 1 := by decide +kernel
  refine ⟨cfg, hcfg, hactive, hrest, hcount, ?_⟩
  exact (refCount_counts_attached_handles _ _ _ (run_of_runSchedule hcfg) hactive).2.2.1 hrest

/-- `startNativePump` of the second handle looks at the flag, the read attaches
the handle, then `startNativePump` attaches it again.  Both handles are
released. -/
def lateStartSchedule : List (ℕ × Move Choice) :=
  turns 0 14 7 ++ turns 1 2 0 ++ turns 2 12 0 ++ turns 1 8 0 ++ turns 3 6 0 ++ turns 4 6 0

def lateStartEnd : Option (Config (Op 2) Op.Res Unit (World 2)) :=
  runSchedule (pumpSystem 2) (fun _ _ _ => True) twoHandles lateStartSchedule

theorem late_start_counts_handle_twice :
    ∃ cfg, Run (pumpSystem 2).Step twoHandles lateStartSchedule cfg ∧
      cfg.state.active "movie.mkv" = some 7 ∧ cfg.state.AtRest ∧
      (∀ h, (cfg.state.handle h).released = true) ∧ (cfg.state.pump 7).refCount = 1 := by
  refine exists_run_of_runSchedule (?_ : ∃ cfg ∈ lateStartEnd, _)
  decide +kernel

end Runs

end Tiramisu.Pump
