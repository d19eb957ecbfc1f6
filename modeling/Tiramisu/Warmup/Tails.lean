import Tiramisu.Warmup.Density
import Tiramisu.Lib.Spans

/-!
# Tail warmup files

A tail file is sparse and indexed from the start of the tail window, and what
may be served from it is decided by a list of covered spans kept beside it.
`TailSound` ties the spans to the file: every covered position holds a byte that
`WriteTail` wrote there since the file was created, and every write of the file
is the write of a call at the same offset of the streamed file.
-/

namespace Tiramisu.Warmup

open Protocol Extents Transition Go List Option Writes Program Prod

/-! ### Covered spans -/

def TailSpan.Contains (s : TailSpan) (i : ℤ) : Prop := s.start ≤ i ∧ i < s.stop

/-- A position lies in one of the spans. -/
def Covered (spans : List TailSpan) (i : ℤ) : Prop := ∃ s ∈ spans, s.Contains i

namespace TailRange

section Spans

variable {spans : List TailSpan} {last : TailSpan} {start stop i : ℤ}

/-- A half-open span at twice the scale: its positions are the odd points between its ends. -/
def doubled (s : TailSpan) : Spans.Span ℤ Unit := ⟨2 * s.start, 2 * s.stop, ()⟩

lemma covered_iff_doubled : Covered spans i ↔ ∃ s ∈ spans.map doubled, s.Holds (2 * i + 1) := by
  simp only [Covered, List.mem_map, exists_exists_and_eq_and]
  refine exists_congr fun s => and_congr_right fun _ => ?_
  dsimp only [TailSpan.Contains, Spans.Span.Holds, doubled]
  omega

lemma doubled_merge :
    (merge last spans).map doubled = Spans.merge (doubled last) (spans.map doubled) := by
  induction spans generalizing last with
  | nil => rfl
  | cons s spans ih =>
    have hgrow : doubled (if last.stop < s.stop then { last with stop := s.stop } else last)
        = (doubled last).grow (doubled s) := by
      dsimp only [Spans.Span.grow, doubled]
      split_ifs <;> first | rfl | omega
    have hmeet : (doubled s).start ≤ (doubled last).stop ↔ s.start ≤ last.stop :=
      mul_le_mul_iff_of_pos_left zero_lt_two
    rw [map_cons, Spans.merge, ← hgrow]
    by_cases hstart : s.start ≤ last.stop
    · rw [merge, if_pos hstart, if_pos (hmeet.mpr hstart), ih]
    · rw [merge, if_neg hstart, if_neg (hmeet.not.mpr hstart), map_cons, ih]

/-- What `add` merges: the spans and the new one, in the order of their starts. -/
lemma add_eq_merge (h : start < stop) : ∃ s rest, add spans start stop = merge s rest ∧
    (s :: rest).Pairwise (fun a b => a.start ≤ b.start) ∧
    ∀ t, t ∈ s :: rest ↔ t ∈ spans ∨ t = ⟨start, stop⟩ := by
  cases hsort : (spans ++ [(⟨start, stop⟩ : TailSpan)]).insertionSort
      fun a b => a.start ≤ b.start with
  | nil =>
    have hlen := congrArg length hsort
    simp at hlen
  | cons s rest =>
    refine ⟨s, rest, ?_, ?_, fun t => ?_⟩
    · rw [add, if_neg (not_le.mpr h), hsort]
    · rw [← hsort]
      exact pairwise_insertionSort _ _
    · rw [← hsort, mem_insertionSort, mem_append, mem_singleton]

lemma sorted_doubled (h : spans.Pairwise fun a b => a.start ≤ b.start) :
    (spans.map doubled).Pairwise fun a b => a.start ≤ b.start :=
  pairwise_map.mpr (h.imp fun hab => Int.mul_le_mul_of_nonneg_left hab zero_le_two)

/-- Merging covers what the spans or the new one cover, and nothing else. -/
lemma covered_add :
    Covered (add spans start stop) i ↔ Covered spans i ∨ start ≤ i ∧ i < stop := by
  rcases le_or_gt stop start with hle | hlt
  · rw [add, if_pos hle]
    exact (or_iff_left (by omega)).symm
  obtain ⟨s, rest, hadd, hsorted, hmem⟩ := @add_eq_merge spans start stop hlt
  have hmerge : Covered (merge s rest) i ↔ Covered (s :: rest) i := by
    rw [covered_iff_doubled, covered_iff_doubled, doubled_merge]
    exact ⟨Spans.holds_of_merge, Spans.holds_merge (sorted_doubled hsorted)⟩
  rw [hadd, hmerge]
  simp only [Covered, hmem, or_and_right, exists_or, exists_eq_left]
  rfl

/-- Spans that are not empty, each behind the end of those before it. -/
def Gapped (spans : List TailSpan) : Prop :=
  (∀ s ∈ spans, s.start < s.stop) ∧ spans.Pairwise fun a b => a.stop < b.start

lemma Gapped.add (h : Gapped spans) : Gapped (add spans start stop) := by
  rcases le_or_gt stop start with hle | hlt
  · rwa [TailRange.add, if_pos hle]
  obtain ⟨s, rest, hadd, hsorted, hmem⟩ := @add_eq_merge spans start stop hlt
  have hpos : ∀ t ∈ (s :: rest).map doubled, t.start < t.stop := by
    rw [List.forall_mem_map]
    intro t ht
    have : t.start < t.stop := ((hmem t).mp ht).elim (h.1 t) fun heq => heq ▸ hlt
    exact Int.mul_lt_mul_of_pos_left this zero_lt_two
  have hpos' := Spans.forall_merge (P := (· < ·)) lt_of_lt_of_le hpos
  have hapart := Spans.apart_merge (sorted_doubled hsorted)
  rw [← doubled_merge, pairwise_map] at hapart
  rw [← doubled_merge, List.forall_mem_map] at hpos'
  rw [hadd]
  exact ⟨fun t ht => lt_of_mul_lt_mul_left (hpos' t ht) zero_le_two,
    hapart.imp fun hab => lt_of_mul_lt_mul_left hab zero_le_two⟩

lemma covered_of_covers (h : covers spans start stop = true) (hstart : start ≤ i)
    (hstop : i < stop) : Covered spans i := by
  unfold covers at h
  split_ifs at h
  obtain ⟨s, hs, hspan⟩ := (any_eq_true _ _).mp h
  rw [Bool.and_eq_true, decide_eq_true_eq, decide_eq_true_eq] at hspan
  exact ⟨s, mem_of_getElem? hs, by omega, by omega⟩

/-- Spans with gaps between them cover a range only within one of them. -/
lemma Gapped.covers_of_covered (h : Gapped spans) (hlt : start < stop)
    (hcov : ∀ i, start ≤ i → i < stop → Covered spans i) : covers spans start stop = true := by
  obtain ⟨s, hs, hi⟩ := hcov start le_rfl hlt
  -- the position right behind the span is in no span
  have hstop : stop ≤ s.stop := by
    by_contra hgt
    obtain ⟨t, ht, hit⟩ := hcov s.stop hi.2.le (not_le.mp hgt)
    have hne : s ≠ t := by
      rintro rfl
      exact lt_irrefl _ hit.2
    have : Std.Symm fun a b : TailSpan => a.stop < b.start ∨ b.stop < a.start := ⟨fun _ _ => Or.symm⟩
    have hapart : spans.Pairwise fun a b => a.stop < b.start ∨ b.stop < a.start := h.2.imp Or.inl
    have := hapart.forall hs ht hne
    dsimp only [TailSpan.Contains] at hi hit
    omega
  have hmono : spans.Pairwise fun a b => decide (start < a.stop) = true →
      decide (start < b.stop) = true := by
    refine h.2.imp_of_mem fun _ hb hgap hx => ?_
    rw [decide_eq_true_eq] at hx ⊢
    have := h.1 _ hb
    omega
  have hfirst : spans.find? (fun s => start < s.stop) = some s := by
    refine Go.find?_of_pairwise h.2 hs (decide_eq_true hi.2) fun t ht => ?_
    rw [decide_eq_true_eq]
    exact not_lt.mpr (ht.le.trans hi.1)
  rw [covers, if_neg (not_le.mpr hlt)]
  dsimp only
  rw [Go.getElem?_search hmono, hfirst]
  simp [hi.1, hstop]

lemma gapped_foldl_add (calls : List (ℤ × ℤ)) (h : Gapped spans) :
    Gapped (calls.foldl (fun spans c => add spans c.1 c.2) spans) := by
  induction calls generalizing spans with
  | nil => exact h
  | cons c calls ih => exact ih h.add

lemma covered_foldl_add (calls : List (ℤ × ℤ)) :
    Covered (calls.foldl (fun spans c => add spans c.1 c.2) spans) i ↔
      Covered spans i ∨ ∃ c ∈ calls, c.1 ≤ i ∧ i < c.2 := by
  induction calls generalizing spans with
  | nil => simp
  | cons c calls ih =>
    rw [foldl_cons, ih, covered_add, exists_mem_cons_iff]
    exact or_assoc

/-- After any calls of `add` the spans are in order with gaps between them, and `covers` holds of
the ranges all of whose positions were added. -/
theorem covers_exactly_what_was_added (calls : List (ℤ × ℤ)) :
    let spans : List TailSpan := calls.foldl (fun spans c => add spans c.1 c.2) []
    (∀ s ∈ spans, s.start < s.stop) ∧
      spans.Pairwise (fun a b => a.start < b.start ∧ a.stop < b.start) ∧
      ∀ start stop, covers spans start stop = true ↔
        start < stop ∧ ∀ i, start ≤ i → i < stop → ∃ c ∈ calls, c.1 ≤ i ∧ i < c.2 := by
  intro spans
  have hgapped : Gapped spans := gapped_foldl_add calls ⟨forall_mem_nil _, Pairwise.nil⟩
  have hcovered : ∀ i, Covered spans i ↔ ∃ c ∈ calls, c.1 ≤ i ∧ i < c.2 := fun i => by
    rw [covered_foldl_add]
    simp [Covered]
  refine ⟨hgapped.1, hgapped.2.imp_of_mem fun ha _ hgap => ⟨(hgapped.1 _ ha).trans hgap, hgap⟩,
    fun start stop => ?_⟩
  simp only [← hcovered]
  constructor
  · intro h
    refine ⟨?_, fun i => covered_of_covers h⟩
    by_contra hle
    rw [covers, if_pos (not_lt.mp hle)] at h
    cases h
  · rintro ⟨hlt, hcov⟩
    exact hgapped.covers_of_covered hlt hcov

end Spans
end TailRange

/-! ### The window of a file -/

def tailStart (fileSize : ℤ) : ℤ := max 0 (fileSize - tailWarmupSize)

def tailLen (fileSize : ℤ) : ℤ := fileSize - tailStart fileSize

/-- Every call on a tail gives it the size that `size` has for its path. -/
def Call.Sized (cfg : Config) (size : String → ℤ) : Call → Prop
  | .writeTail hash fileID _ _ fileSize | .readTail hash fileID _ _ fileSize =>
    fileSize = size (cfg.tailPath hash fileID)
  | _ => True

/-- A write to a tail file is that of a `WriteTail` at the same place of the streamed file. -/
def Backed (cfg : Config) (size : String → ℤ) (calls : List Call) (path : String)
    (wr : Write Writer UInt8) : Prop :=
  ∃ hash fileID data absoluteOffset,
    Call.writeTail hash fileID data absoluteOffset (size path) ∈ calls ∧
    cfg.tailPath hash fileID = path ∧ wr.off = absoluteOffset - tailStart (size path) ∧
    wr.data <+: data

structure TailSound (cfg : Config) (size : String → ℤ) (calls : List Call) (w : World) : Prop where
  tail : ∀ {path tr}, w.tailCoverage.lookup path = some tr → cfg.IsTail path
  alloc : ∀ {path tr}, w.tailCoverage.lookup path = some tr → tr < w.tailRanges.length
  single : ∀ {path path' tr}, w.tailCoverage.lookup path = some tr →
    w.tailCoverage.lookup path' = some tr → path = path'
  covered : ∀ {path tr spans i}, w.tailCoverage.lookup path = some tr →
    w.tailRanges[tr]? = some spans → Covered spans i → 0 ≤ i ∧ ∃ ino f,
      w.names.lookup path = some ino ∧ w.inodes[ino]? = some f ∧ f.file.Known .writeTail i.toNat
  file : ∀ {path ino f}, cfg.IsTail path → w.names.lookup path = some ino →
    w.inodes[ino]? = some f → (f.file.bytes.length : ℤ) ≤ max 0 (tailLen (size path))
  backed : ∀ {path ino f}, cfg.IsTail path → w.names.lookup path = some ino →
    w.inodes[ino]? = some f → ∀ wr ∈ f.file.log, Backed cfg size calls path wr

variable {cfg : Config} {size : String → ℤ} {calls : List Call} {w u v : World} {path : String}

lemma TailSound.mono {calls' : List Call} (h : TailSound cfg size calls w)
    (hsub : ∀ c ∈ calls, c ∈ calls') : TailSound cfg size calls' w where
  tail := h.tail
  alloc := h.alloc
  single := h.single
  covered := h.covered
  file := h.file
  backed htail hino hf wr hwr := by
    obtain ⟨hash, fileID, data, off, hmem, hrest⟩ := h.backed htail hino hf wr hwr
    exact ⟨hash, fileID, data, off, hsub _ hmem, hrest⟩

lemma TailFrame.trans (h : TailFrame cfg w u) (h' : TailFrame cfg u v) : TailFrame cfg w v where
  coverage := h'.coverage.trans h.coverage
  ranges := h'.ranges.trans h.ranges
  names hp := (h'.names hp).trans (h.names hp)
  inodes hp hino := (h'.inodes hp ((h.names hp).trans hino)).trans (h.inodes hp hino)

lemma TailSound.frame (h : TailSound cfg size calls w) (hf : TailFrame cfg w u) :
    TailSound cfg size calls u where
  tail hc := h.tail (hf.coverage ▸ hc)
  alloc hc := by
    rw [hf.ranges]
    exact h.alloc (hf.coverage ▸ hc)
  single hc hc' := h.single (hf.coverage ▸ hc) (hf.coverage ▸ hc')
  covered {p tr spans i} hc hs hi := by
    rw [hf.coverage] at hc
    rw [hf.ranges] at hs
    obtain ⟨hpos, ino, f, hino, hfile, hknown⟩ := h.covered hc hs hi
    have htail := h.tail hc
    exact ⟨hpos, ino, f, (hf.names htail).trans hino, (hf.inodes htail hino).trans hfile, hknown⟩
  file htail hino hfile := by
    rw [hf.names htail] at hino
    rw [hf.inodes htail hino] at hfile
    exact h.file htail hino hfile
  backed htail hino hfile := by
    rw [hf.names htail] at hino
    rw [hf.inodes htail hino] at hfile
    exact h.backed htail hino hfile

/-! ### Operations on the tails -/

namespace TailSound

section

variable (h : TailSound cfg size calls w)

include h

/-- A tail file is replaced by one that still holds what was written to it. -/
lemma setInode (hw : Sound cfg w) {ino : ℕ} {f g : Inode} (htail : cfg.IsTail path)
    (hino : w.names.lookup path = some ino) (hf : w.inodes[ino]? = some f)
    (hknown : ∀ i, f.file.Known .writeTail i → g.file.Known .writeTail i)
    (hlen : (g.file.bytes.length : ℤ) ≤ max 0 (tailLen (size path)))
    (hback : ∀ wr ∈ g.file.log, Backed cfg size calls path wr) :
    TailSound cfg size calls { w with inodes := w.inodes.set ino g } := by
  refine ⟨h.tail, h.alloc, h.single, fun {p tr spans i} hc hs hi => ?_, fun {p ino' f'} hp hp' hf' => ?_,
    fun {p ino' f'} hp hp' hf' => ?_⟩
  · obtain ⟨hpos, ino', f', hino', hf', hk⟩ := h.covered hc hs hi
    by_cases hpp : p = path
    · subst hpp
      cases hino.symm.trans hino'
      cases hf.symm.trans hf'
      exact ⟨hpos, ino, g, hino, getElem?_set_self (hw.named hino), hknown _ hk⟩
    · refine ⟨hpos, ino', f', hino', (getElem?_set_ne ?_).trans hf', hk⟩
      rintro rfl
      exact hpp (hw.single hino' hino)
  · rcases Places.of_set hf' with ⟨rfl, rfl⟩ | ⟨-, hf'⟩
    · obtain rfl := hw.single hino hp'
      exact hlen
    · exact h.file hp hp' hf'
  · rcases Places.of_set hf' with ⟨rfl, rfl⟩ | ⟨-, hf'⟩
    · obtain rfl := hw.single hino hp'
      exact hback
    · exact h.backed hp hp' hf'

/-- A tail file goes once nothing is said to be covered in it. -/
lemma remove (hc : w.tailCoverage.lookup path = none) :
    TailSound cfg size calls { w with names := w.names.erase path } := by
  refine ⟨h.tail, h.alloc, h.single, fun {p tr spans i} hp hs hi => ?_,
    fun hp hino => h.file hp (of_erase hino).2,
    fun hp hino => h.backed hp (of_erase hino).2⟩
  obtain ⟨hpos, ino, f, hino, hf, hk⟩ := h.covered hp hs hi
  have hne : p ≠ path := by
    rintro rfl
    cases hc.symm.trans hp
  exact ⟨hpos, ino, f, (AList.lookup_erase_ne hne).trans hino, hf, hk⟩

/-- Nothing is covered in a tail file that is about to be created. -/
lemma create (hw : Sound cfg w) (hn : w.names.lookup path = none) (now : ℤ) :
    TailSound cfg size calls (w.create path now).2 := by
  have hnew : ∀ {p ino f}, (w.create path now).2.names.lookup p = some ino →
      (w.create path now).2.inodes[ino]? = some f →
      f = ⟨.empty, now⟩ ∨ w.names.lookup p = some ino ∧ w.inodes[ino]? = some f := by
    intro p ino f hp hf
    rcases of_create hn hp with ⟨-, rfl⟩ | hp
    · exact Or.inl (Option.some.inj (hf.symm.trans (create_new hn now).2))
    · exact Or.inr ⟨hp, (hw.numbered.create_old hn now hp).2.symm.trans hf⟩
  have hcov : (w.create path now).2.tailCoverage = w.tailCoverage ∧
      (w.create path now).2.tailRanges = w.tailRanges := by
    rw [create_eq hn]
    exact ⟨rfl, rfl⟩
  refine ⟨fun hc => h.tail (hcov.1 ▸ hc), fun hc => hcov.2 ▸ h.alloc (hcov.1 ▸ hc),
    fun hc hc' => h.single (hcov.1 ▸ hc) (hcov.1 ▸ hc'), fun {p tr spans i} hc hs hi => ?_,
    fun {p ino f} hp hino hf => ?_, fun {p ino f} hp hino hf => ?_⟩
  · rw [hcov.1] at hc
    rw [hcov.2] at hs
    obtain ⟨hpos, ino, f, hino, hf, hk⟩ := h.covered hc hs hi
    obtain ⟨hname, hfile⟩ := hw.numbered.create_old hn now hino
    exact ⟨hpos, ino, f, hname, hfile.trans hf, hk⟩
  · rcases hnew hino hf with rfl | ⟨hino, hf⟩
    · exact le_max_left 0 _
    · exact h.file hp hino hf
  · rcases hnew hino hf with rfl | ⟨hino, hf⟩
    · exact fun wr hwr => absurd hwr not_mem_nil
    · exact h.backed hp hino hf

lemma deleteTail :
    TailSound cfg size calls { w with tailCoverage := w.tailCoverage.erase path } := by
  have hold : ∀ {p tr}, (w.tailCoverage.erase path).lookup p = some tr →
      w.tailCoverage.lookup p = some tr := fun hp => (of_erase hp).2
  exact ⟨fun hc => h.tail (hold hc), fun hc => h.alloc (hold hc),
    fun hc hc' => h.single (hold hc) (hold hc'), fun hc => h.covered (hold hc), h.file, h.backed⟩

/-- The tracker of a tail that has none yet covers nothing. -/
lemma track (htail : cfg.IsTail path) :
    TailSound cfg size calls { w with
      tailCoverage := w.tailCoverage.insert path w.tailRanges.length
      tailRanges := w.tailRanges ++ [[]] } := by
  refine ⟨fun hc => ?_, fun hc => ?_, fun {p p' tr} hc hc' => ?_, fun {p tr spans i} hc hs hi => ?_, h.file,
    h.backed⟩
  · rcases of_insert hc with ⟨rfl, -⟩ | ⟨-, hc⟩
    · exact htail
    · exact h.tail hc
  · show _ < (w.tailRanges ++ [[]]).length
    rw [length_append, length_singleton]
    rcases of_insert hc with ⟨-, rfl⟩ | ⟨-, hc⟩
    · omega
    · have := h.alloc hc
      omega
  · rcases of_insert hc with ⟨rfl, rfl⟩ | ⟨-, hc⟩ <;>
      rcases of_insert hc' with ⟨hp', htr⟩ | ⟨-, hc'⟩
    · exact hp'.symm
    · exact absurd (h.alloc hc') (lt_irrefl _)
    · subst htr
      exact absurd (h.alloc hc) (lt_irrefl _)
    · exact h.single hc hc'
  · rcases of_insert hc with ⟨-, rfl⟩ | ⟨-, hc⟩
    · obtain rfl : ([] : List TailSpan) = spans := by simpa using hs
      obtain ⟨s, hs, -⟩ := hi
      exact absurd hs not_mem_nil
    · rw [getElem?_append_left (h.alloc hc)] at hs
      exact h.covered hc hs hi

/-- What was written may be covered. -/
lemma addSpan {tr ino : ℕ} {f : Inode} {start stop : ℤ} (hc : w.tailCoverage.lookup path = some tr)
    (hino : w.names.lookup path = some ino) (hf : w.inodes[ino]? = some f) (hstart : 0 ≤ start)
    (hknown : ∀ i, start ≤ i → i < stop → f.file.Known .writeTail i.toNat) :
    TailSound cfg size calls
      { w with tailRanges := w.tailRanges.modify tr (TailRange.add · start stop) } := by
  refine ⟨h.tail, fun hc' => ?_, h.single, fun {p tr' spans i} hc' hs hi => ?_, h.file, h.backed⟩
  · rw [length_modify]
    exact h.alloc hc'
  rw [getElem?_modify] at hs
  obtain ⟨old, hold, rfl⟩ := map_eq_some_iff.mp hs
  split_ifs at hi with htr
  · subst htr
    obtain rfl := h.single hc hc'
    rcases TailRange.covered_add.mp hi with hi | hi
    · exact h.covered hc hold hi
    · exact ⟨hstart.trans hi.1, ino, f, hino, hf, hknown i hi.1 hi.2⟩
  · exact h.covered hc' hold hi

/-- A write of `WriteTail` through the handle of the tail. -/
lemma writeFile (hw : Sound cfg w) (c : Choice) {k : ℕ} {data : List UInt8} {off : ℤ}
    (htail : cfg.IsTail path) (hk : w.handles.lookup path = some k) (hpos : 0 ≤ off)
    (hlen : off + data.length ≤ tailLen (size path))
    (hback : ∀ part, part <+: data → Backed cfg size calls path ⟨.writeTail, off.toNat, part⟩) :
    TailSound cfg size calls (w.writeFile c .writeTail k data off).2 ∧
      (w.writeFile c .writeTail k data off).2.tailCoverage = w.tailCoverage ∧
      ∃ ino f, (w.writeFile c .writeTail k data off).2.names.lookup path = some ino ∧
        (w.writeFile c .writeTail k data off).2.inodes[ino]? = some f ∧
        ∀ i, off ≤ i → i < off + (w.writeFile c .writeTail k data off).1.1 →
          f.file.Known .writeTail i.toNat := by
  obtain ⟨ino, f, hino, hf, hinode, -⟩ := hw.inodeOf hk
  have hpart : World.sent c data <+: data := by
    unfold World.sent
    split_ifs
    · exact take_prefix _ _
    · exact prefix_refl _
  have hsent : (World.sent c data).length ≤ data.length := hpart.length_le
  unfold World.writeFile
  rw [hinode]
  dsimp only
  rw [if_neg (not_lt.mpr hpos)]
  refine ⟨?_, rfl, ino, _, hino, getElem?_set_self (hw.named hino), fun i hi hi' => ?_⟩
  · apply h.setInode hw htail hino hf
    · exact fun i hi => File.Known.write (Or.inl hi)
    · have hmax : (f.file.write 0 .writeTail off.toNat (World.sent c data)).bytes.length
          ≤ max f.file.bytes.length (off.toNat + (World.sent c data).length) :=
        File.length_write_le_max
      have hold := h.file htail hino hf
      dsimp only
      omega
    · intro wr hwr
      rcases mem_cons.mp hwr with rfl | hwr
      · exact hback _ hpart
      · exact h.backed htail hino hf wr hwr
  · apply File.Known.write
    apply Or.inr
    dsimp only at hi'
    omega

end

instance companion : Companion cfg (TailSound cfg size calls) where
  frame hf h := h.frame hf
  deleteTail h := h.deleteTail
  remove hc h := h.remove hc
  restart h := by
    refine ⟨?_, ?_, ?_, ?_, h.file, h.backed⟩
    · exact fun hc => absurd hc (by simp [World.rebooted, World.fresh])
    · exact fun hc => absurd hc (by simp [World.rebooted, World.fresh])
    · exact fun hc => absurd hc (by simp [World.rebooted, World.fresh])
    · exact fun hc => absurd hc (by simp [World.rebooted, World.fresh])

end TailSound

/-! ### Rules -/

/-- A call that runs alone keeps `TailSound` and ends in `Q`; `Sound` is kept anyway. -/
abbrev TailSpec (cfg : Config) (size : String → ℤ) (calls : List Call) {α : Type} (p : Prog α)
    (w : World) (Q : α → World → Prop) : Prop :=
  wp (machine cfg) (.alone (TailSound cfg size calls) fun _ _ w => Sound cfg w) Q p w

section Rules

variable {α : Type} {Q Q' : α → World → Prop}

lemma tail_perform {o : Op} {k : o.Res → Prog α}
    (h : Sound cfg w → TailSound cfg size calls w → ∀ c r u, exec cfg o c w = some (r, u) →
      TailSound cfg size calls u ∧ TailSpec cfg size calls (k r) u Q) :
    TailSpec cfg size calls (.perform o k) w Q := by
  rintro v rfl hw c hsound r u hex
  obtain ⟨hu, hk⟩ := h hsound hw c r u hex
  exact ⟨hu, trivial, hk⟩

lemma tail_off {o : Op} {k : o.Res → Prog α} (ho : o.OffTails)
    (h : ∀ c r u, exec cfg o c w = some (r, u) → TailFrame cfg w u →
      TailSpec cfg size calls (k r) u Q) : TailSpec cfg size calls (.perform o k) w Q := by
  apply tail_perform
  intro _ hw c r u hex
  have hf := frame_of_offTails ho hex
  exact ⟨hw.frame hf, h c r u hex hf⟩

lemma tail_of_uses {p : Prog α} {R : α → Prop} (hp : p.Uses (Op.OffTails) R) :
    TailSpec cfg size calls p w fun a v => R a ∧ TailFrame cfg w v := by
  apply wp_of_uses hp
  · rintro v _ hv rfl -
    exact hv
  · intro o c v r u ho _ hw hv hex
    have hf := frame_of_offTails ho hex
    exact ⟨hw.frame hf, trivial, hv.trans hf⟩
  · exact .refl cfg w

/-- What is known of a program beside its tails. -/
lemma tail_with {p : Prog α} (h : Spec cfg (fun _ => True) p w Q) (h' : TailSpec cfg size calls p w Q') :
    TailSpec cfg size calls p w fun a v => Q' a v ∧ (Sound cfg v → Q a v) :=
  wp_mono (fun _ _ h => ⟨h.1, fun hsound => h.2 ⟨hsound, trivial⟩⟩)
    (wp_alone_with (fun _ _ _ hsound => ⟨trivial, hsound, trivial⟩) h h')

end Rules

/-! ### Handles -/

/-- Operations on handles and the table they are kept in. -/
def Op.OnHandles : Op → Prop
  | .now | .loadHandle _ | .loadOrStoreHandle _ _ | .takeHandle _ | .touch _ _ | .markClosed _
  | .openFile _ | .close _ => True
  | _ => False

lemma uses_getHandle : (getHandle path).Only Op.OnHandles := by
  refine ⟨trivial, fun r => ?_⟩
  cases r with
  | some h => exact ⟨trivial, fun _ => ⟨trivial, fun _ => trivial⟩⟩
  | none =>
    refine ⟨trivial, fun r => ?_⟩
    cases r with
    | none => exact trivial
    | some h =>
      refine ⟨trivial, fun _ => ⟨trivial, fun _ => ⟨trivial, fun r => ?_⟩⟩⟩
      cases r with
      | none => exact trivial
      | some existing => exact ⟨trivial, fun _ => ⟨trivial, fun _ => ⟨trivial, fun _ => trivial⟩⟩⟩

lemma uses_closeHandle : (closeHandle path).Only Op.OnHandles := by
  refine ⟨trivial, fun r => ?_⟩
  cases r with
  | none => exact trivial
  | some h => exact ⟨trivial, fun _ => ⟨trivial, fun _ => trivial⟩⟩

lemma Op.OnHandles.offTails {o : Op} (h : o.OnHandles) : o.OffTails := by
  cases o <;> first | exact trivial | exact absurd h id

lemma off_getHandle : (getHandle path).Only (Op.OffTails) :=
  uses_getHandle.mono (fun _ ho => ho.offTails) fun _ h => h

/-! ### Tails -/

lemma tail_startTail (hn : w.names.lookup path = none) :
    TailSpec cfg size calls (startTail path) w fun _ v => v.tailCoverage = w.tailCoverage := by
  refine tail_off trivial fun c r u hex hf => ?_
  cases hex
  apply tail_perform
  intro hsound hw c r u hex
  dsimp only [exec] at hex
  split_ifs at hex
  · cases hex
    exact ⟨hw, wp_alone_ret rfl⟩
  cases hex
  have hcov : (World.create { w with missing := w.missing.erase path } path c.now).2.tailCoverage
      = w.tailCoverage := by
    simp only [World.create, hn]
    rfl
  refine ⟨hw.create hsound hn c.now, ?_⟩
  refine tail_off trivial fun c t u1 _ hf1 => tail_off trivial fun c r u2 _ hf2 => ?_
  refine tail_off trivial fun c r u3 _ hf3 => wp_alone_ret ?_
  rw [hf3.coverage, hf2.coverage, hf1.coverage, hcov]

/-- What goes into the file is covered. -/
lemma tail_writeSpan {tr : ℕ} {data : List UInt8} {relOffset : ℤ} (htail : cfg.IsTail path)
    (hc : w.tailCoverage.lookup path = some tr) (hpos : 0 ≤ relOffset)
    (hlen : relOffset + data.length ≤ tailLen (size path))
    (hback : ∀ part, part <+: data →
      Backed cfg size calls path ⟨.writeTail, relOffset.toNat, part⟩) :
    TailSpec cfg size calls (writeSpan path tr data relOffset) w fun _ _ => True := by
  simp only [writeSpan, op, op_bind]
  refine wp_then (tail_with spec_getHandle (tail_of_uses off_getHandle)) fun r u hu => ?_
  obtain ⟨⟨-, hf⟩, hspec⟩ := hu
  cases r with
  | none => exact wp_alone_done
  | some h =>
    apply tail_perform
    intro hsound hw c closed u1 hex
    cases hex
    refine ⟨hw, ?_⟩
    have hhandle : u.handles.lookup path = some h := (hspec hsound).2.2 h rfl
    split_ifs
    · exact wp_alone_done
    apply tail_perform
    intro _ _ c r v hex
    obtain ⟨n, err⟩ := r
    have hwrite : u.writeFile c .writeTail h data relOffset = ((n, err), v) :=
      Option.some.inj hex
    have hafter := hw.writeFile hsound c htail hhandle hpos hlen hback
    rw [hwrite] at hafter
    obtain ⟨hv, hcov, ino, f, hino, hfile, hknown⟩ := hafter
    refine ⟨hv, ?_⟩
    split_ifs
    · exact wp_alone_done
    refine tail_off trivial fun c t v1 _ hf1 => tail_off trivial fun c r v2 _ hf2 => ?_
    have hf12 := hf1.trans hf2
    have hc2 : v2.tailCoverage.lookup path = some tr := by
      rw [hf12.coverage, hcov, hf.coverage]
      exact hc
    apply tail_perform
    intro _ hv2 c r v3 hex
    cases hex
    exact ⟨hv2.addSpan hc2 ((hf12.names htail).trans hino)
      ((hf12.inodes htail hino).trans hfile) hpos hknown, wp_alone_done⟩

lemma length_clipTail {n relOffset : ℤ} (data : List UInt8) (hrel : relOffset < n) :
    relOffset + (clipTail n relOffset data).length ≤ n := by
  unfold clipTail
  split_ifs
  · rw [length_take]
    omega
  · omega

lemma prefix_clipTail (n relOffset : ℤ) (data : List UInt8) : clipTail n relOffset data <+: data := by
  unfold clipTail
  split_ifs
  · exact take_prefix _ _
  · exact prefix_refl _

lemma tail_writeTail (hash : String) (fileID : ℤ) (data : List UInt8) (absoluteOffset : ℤ)
    (hcall : .writeTail hash fileID data absoluteOffset (size (cfg.tailPath hash fileID)) ∈ calls) :
    TailSpec cfg size calls
      (writeTail cfg hash fileID data absoluteOffset (size (cfg.tailPath hash fileID))) w
      fun _ _ => True := by
  have htail : cfg.IsTail (cfg.tailPath hash fileID) := ⟨hash, fileID, rfl⟩
  simp only [writeTail, op, op_bind]
  generalize hpath : cfg.tailPath hash fileID = path at *
  split_ifs with hskip
  · exact wp_alone_done
  rw [not_or, not_or, not_lt, not_le] at hskip
  obtain ⟨hstart, hend, -⟩ := hskip
  have hpos : 0 ≤ absoluteOffset - tailStart (size path) := Int.sub_nonneg_of_le hstart
  have hwrite : ∀ {v : World} {tr : ℕ}, v.tailCoverage.lookup path = some tr →
      TailSpec cfg size calls (writeSpan path tr
        (clipTail (tailLen (size path)) (absoluteOffset - tailStart (size path)) data)
        (absoluteOffset - tailStart (size path))) v fun _ _ => True := by
    intro v tr hc
    apply tail_writeSpan htail hc hpos (length_clipTail data hend)
    intro part hpart
    refine ⟨hash, fileID, data, absoluteOffset, hcall, hpath, ?_, hpart.trans (prefix_clipTail _ _ _)⟩
    exact Int.toNat_of_nonneg hpos
  apply tail_perform
  intro _ hw c tr u hex
  obtain ⟨hu, hc⟩ : TailSound cfg size calls u ∧ u.tailCoverage.lookup path = some tr := by
    dsimp only [exec] at hex
    cases hcov : w.tailCoverage.lookup path with
    | some tr' =>
      rw [hcov] at hex
      cases hex
      exact ⟨hw, hcov⟩
    | none =>
      rw [hcov] at hex
      cases hex
      exact ⟨hw.track htail, AList.lookup_insert _⟩
  refine ⟨hu, tail_off trivial fun c spans u1 _ hf1 => ?_⟩
  have hc1 : u1.tailCoverage.lookup path = some tr := (congrArg _ hf1.coverage).trans hc
  split_ifs
  · exact wp_alone_done
  apply tail_perform
  intro hsound hw c r u2 hex
  cases hex
  refine ⟨hw, ?_⟩
  split_ifs
  · exact hwrite hc1
  cases hstat : u1.statPath path with
  | size n => exact hwrite hc1
  | failed => exact hwrite hc1
  | notExist =>
    refine wp_then (tail_startTail (hsound.numbered.lookup_of_notExist hstat)) fun started v hv => ?_
    split_ifs
    · exact hwrite ((congrArg _ hv).trans hc1)
    · exact wp_alone_done

/-- Every byte was last written by `WriteTail` at the same offset of the streamed
file, and that write is one of those since the tail file was created. -/
def TailWritten (cfg : Config) (size : String → ℤ) (calls : List Call) (path : String)
    (absoluteOffset : ℤ) (bytes : List UInt8) (v : World) : Prop :=
  ∀ (j : ℕ) (b : UInt8), bytes[j]? = some b → ∃ hash fileID data off n,
    Call.writeTail hash fileID data off (size path) ∈ calls ∧ cfg.tailPath hash fileID = path ∧
    off ≤ absoluteOffset + j ∧ (data.take n)[(absoluteOffset + j - off).toNat]? = some b ∧
    ∃ ino f, v.names.lookup path = some ino ∧ v.inodes[ino]? = some f ∧
      ⟨.writeTail, (off - tailStart (size path)).toNat, data.take n⟩ ∈ f.file.log ∧
      lastWritten f.file.log (absoluteOffset + j - tailStart (size path)).toNat
        = some (.writeTail, b)

/-- A covered range of a tail reads back what was written to it. -/
lemma TailSound.read (h : TailSound cfg size calls w) (hw : Sound cfg w) (c : Choice)
    {tr k len : ℕ} {spans : List TailSpan} {absoluteOffset : ℤ}
    (hc : w.tailCoverage.lookup path = some tr) (hs : w.tailRanges[tr]? = some spans)
    (hcovers : TailRange.covers spans (absoluteOffset - tailStart (size path))
      (min (absoluteOffset - tailStart (size path) + len) (tailLen (size path))) = true)
    (hk : w.handles.lookup path = some k) :
    TailWritten cfg size calls path absoluteOffset
      (w.readFile c k len (absoluteOffset - tailStart (size path))).1 w := by
  intro j b hb
  have htail := h.tail hc
  obtain ⟨hpos, ino', f', hinode', hb⟩ := readFile_eq hb
  obtain ⟨ino, f, hino, hf, hinode, -⟩ := hw.inodeOf hk
  obtain ⟨rfl, rfl⟩ := mk.inj (Option.some.inj (hinode.symm.trans hinode'))
  -- the byte lies inside the window, as the file does
  have hin : j < len ∧ (absoluteOffset - tailStart (size path)).toNat + j < f.file.bytes.length := by
    rw [File.read, getElem?_take] at hb
    split_ifs at hb with hj
    rw [getElem?_drop] at hb
    exact ⟨hj, (List.getElem?_eq_some_iff.mp hb).1⟩
  have hlen := h.file htail hino hf
  have hcovered : Covered spans (absoluteOffset - tailStart (size path) + j) := by
    apply TailRange.covered_of_covers hcovers
    · omega
    · apply lt_min <;> omega
  obtain ⟨-, ino', f', hino', hf', hknown⟩ := h.covered hc hs hcovered
  cases hino.symm.trans hino'
  cases hf.symm.trans hf'
  have hat : (absoluteOffset - tailStart (size path) + j).toNat
      = (absoluteOffset - tailStart (size path)).toNat + j := by omega
  have hat' : (absoluteOffset + j - tailStart (size path)).toNat
      = (absoluteOffset - tailStart (size path)).toNat + j := by omega
  rw [hat] at hknown
  have hlast := hknown.read hb
  obtain ⟨wr, hwr, htag, hoff, hbyte⟩ := File.exists_of_lastWritten hlast
  obtain ⟨hash, fileID, data, off, hcall, hpath, hwroff, hprefix⟩ := h.backed htail hino hf wr hwr
  have htake : data.take wr.data.length = wr.data := (prefix_iff_eq_take.mp hprefix).symm
  have hwrite : (⟨.writeTail, (off - tailStart (size path)).toNat, wr.data⟩ : Write Writer UInt8)
      = wr := by
    rw [← htag, ← hwroff, Int.toNat_natCast]
  have hindex : (absoluteOffset + j - off).toNat
      = (absoluteOffset - tailStart (size path)).toNat + j - wr.off := by omega
  refine ⟨hash, fileID, data, off, wr.data.length, hcall, hpath, by omega, ?_, ino, f, hino, hf, ?_, ?_⟩
  · rw [htake, hindex]
    exact hbyte
  · rw [htake, hwrite]
    exact hwr
  · rw [hat']
    exact hlast

lemma tail_readTail (hash : String) (fileID : ℤ) (len : ℕ) (absoluteOffset : ℤ) :
    TailSpec cfg size calls
      (readTail cfg hash fileID len absoluteOffset (size (cfg.tailPath hash fileID))) w
      fun r v => TailWritten cfg size calls (cfg.tailPath hash fileID) absoluteOffset r.1 v := by
  have hnothing : ∀ v, TailWritten cfg size calls (cfg.tailPath hash fileID) absoluteOffset [] v :=
    fun v j b hb => absurd hb (by simp)
  simp only [readTail, op, op_bind]
  split_ifs
  · exact wp_alone_ret (hnothing w)
  apply tail_perform
  intro _ hw c r u hex
  cases hex
  refine ⟨hw, ?_⟩
  cases hc : w.tailCoverage.lookup (cfg.tailPath hash fileID) with
  | none => exact wp_alone_ret (hnothing w)
  | some tr =>
    apply tail_perform
    intro _ hw c spans u hex
    cases hex
    refine ⟨hw, ?_⟩
    have hs : w.tailRanges[tr]? = some ((w.tailRanges[tr]?).getD []) := by
      rw [getElem?_eq_getElem (hw.alloc hc), getD_some]
    split_ifs with hcovers
    · refine wp_then (tail_with spec_getHandle (tail_of_uses off_getHandle)) fun r u hu => ?_
      obtain ⟨⟨-, hf⟩, hspec⟩ := hu
      cases r with
      | none => exact wp_alone_ret (hnothing u)
      | some h =>
        apply tail_perform
        intro hsound hu c r v hex
        cases hex
        refine ⟨hu, wp_alone_ret ?_⟩
        apply hu.read hsound c _ _ hcovers ((hspec hsound).2.2 h rfl)
        · exact tr
        · rw [hf.coverage]
          exact hc
        · rw [hf.ranges]
          exact hs
    · exact wp_alone_ret (hnothing w)

/-! ### Every run -/

lemma spec_sized (call : Call) (hcall : call ∈ calls) (hsized : call.Sized cfg size) :
    Spec cfg (TailSound cfg size calls) (call.program cfg) w
      fun answer v => Promised cfg v call answer := by
  refine spec_program call fun {hash fileID data off fileSize} heq v => ?_
  subst heq
  obtain rfl : fileSize = size (cfg.tailPath hash fileID) := hsized
  exact wp_alone_both (fun _ => by rw [and_true]) (fun _ _ _ _ h => h.1) (spec_writeTail _ _ _ _ _)
    (tail_writeTail hash fileID data off hcall)

lemma tailSound_fresh : TailSound cfg size [] World.fresh := by
  constructor <;> simp [World.fresh]

/-- The steps of a call, between sound states. -/
lemma soundSteps {call : Call} {q : Prog Answer} (hw : Sound cfg w)
    (h : Steps (machine cfg) (fun _ _ _ => True) (call.program cfg) w q v) :
    Steps (machine cfg) (fun _ _ w => Sound cfg w) (call.program cfg) w q v :=
  h.guarded (spec_call call) ⟨hw, trivial⟩ (fun _ _ _ h => h) fun _ _ _ _ hsound => hsound.1

lemma tailSound_of_run {ls : List (Call × Answer)} (hrun : Run (Serves cfg) World.fresh ls w)
    (hsized : ∀ l ∈ ls, l.1.Sized cfg size) :
    Sound cfg w ∧ TailSound cfg size (ls.map fst) w := by
  have hhistory := hrun.history []
    (I := fun past w => Sound cfg w ∧ ((∀ l ∈ past, l.1.Sized cfg size) →
      TailSound cfg size (past.map fst) w))
    (fun past s l t hs hserve => ?_) ⟨sound_fresh, fun _ => tailSound_fresh⟩
  · exact ⟨hhistory.1, hhistory.2 hsized⟩
  obtain ⟨hsound, htails⟩ := hs
  refine ⟨(hserve.sound (spec_call l.1) ⟨hsound, trivial⟩).1.1, fun hall => ?_⟩
  have hbefore : TailSound cfg size ((past ++ [l]).map fst) s := by
    apply (htails fun l' hl' => hall l' (mem_append_left _ hl')).mono
    intro call hcall
    rw [map_append]
    exact mem_append_left _ hcall
  have hl : l ∈ past ++ [l] := mem_append_right _ (mem_singleton_self l)
  exact (hserve.sound (spec_sized l.1 (mem_map_of_mem hl) (hall l hl)) ⟨hsound, hbefore⟩).1.2

/-- Whatever was written, removed or evicted before, every byte that a read of a
tail returns was written by a `WriteTail` to the same offset of the same file,
and by the last write to that offset since the tail file was created. -/
theorem tail_bytes_were_written_there {ls : List (Call × Answer)}
    (hrun : Run (Serves cfg) World.fresh ls w) (hsized : ∀ l ∈ ls, l.1.Sized cfg size)
    {hash : String} {fileID absoluteOffset : ℤ} {len : ℕ} {bytes : List UInt8} {err : Bool}
    (hread : Serves cfg w (.readTail hash fileID len absoluteOffset
      (size (cfg.tailPath hash fileID)), .bytes bytes err) v) :
    ∀ (j : ℕ) (b : UInt8), bytes[j]? = some b → ∃ hash' fileID' data off n answer,
      (.writeTail hash' fileID' data off (size (cfg.tailPath hash fileID)), answer) ∈ ls ∧
      cfg.tailPath hash' fileID' = cfg.tailPath hash fileID ∧ off ≤ absoluteOffset + j ∧
      (data.take n)[(absoluteOffset + j - off).toNat]? = some b ∧
      ∃ ino f, v.names.lookup (cfg.tailPath hash fileID) = some ino ∧ v.inodes[ino]? = some f ∧
        ⟨.writeTail, (off - tailStart (size (cfg.tailPath hash fileID))).toNat, data.take n⟩
          ∈ f.file.log ∧
        lastWritten f.file.log
          (absoluteOffset + j - tailStart (size (cfg.tailPath hash fileID))).toNat
            = some (.writeTail, b) := by
  intro j b hb
  obtain ⟨hsound, htails⟩ := tailSound_of_run hrun hsized
  have hspec : TailSpec cfg size (ls.map fst) (Call.program cfg (.readTail hash fileID len
      absoluteOffset (size (cfg.tailPath hash fileID)))) w fun answer v =>
        ∀ bytes err, answer = .bytes bytes err →
          TailWritten cfg size (ls.map fst) (cfg.tailPath hash fileID) absoluteOffset bytes v := by
    refine wp_then (tail_readTail hash fileID len absoluteOffset)
      fun r v hr => wp_alone_ret fun bytes err heq => ?_
    obtain ⟨rfl, -⟩ := Answer.bytes.inj heq
    exact hr
  obtain ⟨hash', fileID', data, off, n, hcall, hrest⟩ :=
    (soundSteps hsound hread).result hspec htails bytes err rfl j b hb
  obtain ⟨l, hl, hfst⟩ := mem_map.mp hcall
  refine ⟨hash', fileID', data, off, n, l.2, ?_, hrest⟩
  rw [← hfst]
  exact hl

/-- The second write overhangs the end of a file of six bytes. -/
def overhanging : List (Call × List Choice) :=
  [(.writeTail "abc" 1 [1, 2, 3] 2 6, smooth), (.writeTail "abc" 1 [7, 8, 9, 9] 4 6, smooth)]

/-- The calls of a script with their answers, and the state they lead to. -/
def serveAll (cfg : Config) : World → List (Call × List Choice) →
    Option (List (Call × Answer) × World)
  | w, [] => some ([], w)
  | w, l :: ls => do
      let (answer, u) ← serve cfg w l
      let (rest, v) ← serveAll cfg u ls
      some ((l.1, answer) :: rest, v)

lemma run_of_serveAll {ls : List (Call × List Choice)} {calls : List (Call × Answer)}
    (h : serveAll cfg w ls = some (calls, v)) : Run (Serves cfg) w calls v := by
  induction ls generalizing w calls with
  | nil =>
    obtain ⟨rfl, rfl⟩ := mk.inj (Option.some.inj h)
    exact .nil w
  | cons l ls ih =>
    obtain ⟨⟨answer, u⟩, hserve, h⟩ := bind_eq_some_iff.mp h
    obtain ⟨⟨rest, t⟩, hrest, h⟩ := bind_eq_some_iff.mp h
    cases h
    exact .cons (serves_of_serve hserve) (ih hrest)

lemma calls_of_serveAll {ls : List (Call × List Choice)} {calls : List (Call × Answer)}
    (h : serveAll cfg w ls = some (calls, v)) : calls.map fst = ls.map fst := by
  induction ls generalizing w calls with
  | nil =>
    cases h
    rfl
  | cons l ls ih =>
    obtain ⟨⟨answer, u⟩, -, h⟩ := bind_eq_some_iff.mp h
    obtain ⟨⟨rest, t⟩, hrest, h⟩ := bind_eq_some_iff.mp h
    cases h
    rw [map_cons, map_cons, ih hrest]

theorem overhanging_tail_reads_back :
    ∃ calls w v, serveAll smallHeads .fresh overhanging = some (calls, w) ∧
      serve smallHeads w (.readTail "abc" 1 10 3 6, smooth) = some (.bytes [2, 7, 8] true, v) ∧
      ∃ ino f, v.names.lookup "/warm/abc-1.warmup-tail" = some ino ∧ v.inodes[ino]? = some f ∧
        lastWritten f.file.log 4 = some (.writeTail, 7) := by
  have hend : ((serveAll smallHeads .fresh overhanging).bind fun x =>
      serve smallHeads x.2 (.readTail "abc" 1 10 3 6, smooth)).map fst
        = some (.bytes [2, 7, 8] true) := by decide +kernel
  obtain ⟨⟨answer, v⟩, hv, hanswer⟩ := map_eq_some_iff.mp hend
  obtain ⟨⟨calls, w⟩, hw, hread⟩ := bind_eq_some_iff.mp hv
  obtain rfl : answer = .bytes [2, 7, 8] true := hanswer
  have hsized : ∀ l ∈ calls, l.1.Sized smallHeads fun _ => 6 := by
    intro l hl
    have hmem : l.1 ∈ overhanging.map fst :=
      calls_of_serveAll hw ▸ mem_map_of_mem hl
    rcases mem_cons.mp hmem with heq | hmem
    · rw [heq]
      rfl
    · rw [mem_singleton.mp hmem]
      rfl
  obtain ⟨_, _, _, _, _, _, _, _, _, _, ino, f, hino, hf, -, hlast⟩ :=
    tail_bytes_were_written_there (run_of_serveAll hw) hsized (serves_of_serve hread) 1 7 rfl
  exact ⟨calls, w, v, hw, hread, ino, f, hino, hf, hlast⟩

end Tiramisu.Warmup
