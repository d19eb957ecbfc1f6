import Mathlib.Data.List.Chain
import Tiramisu.Audio.Frames

/-!
# The frame at or after a sample

`Boundary` looks for a frame by reading windows of the image around estimates
of where it is.  In an image whose frames carry consecutive numbers and whose
audio never looks like a header, what it finds is the first frame at or after
the sample, whatever the estimates are, and a frame is confirmed in every window
that holds it and its successor.  The search for a successor starts sixteen bytes
behind a frame, ends at `maxFrameScan` and leaves out the last sixteen bytes of
the window, so this asks for frames that are long enough and not too long, and
for nothing else: a run of shorter frames at the start of the image is passed
over.
-/

namespace Tiramisu.Audio

open List

variable {x y : ℕ × Frame} {n k i : ℕ} {f : Frame}

/-- How much of the image one probe reads. -/
def window : ℕ := 256 * 1024

/-- The reads spent on one boundary. -/
def maxProbes : ℕ := 8

/-- How far behind a frame its successor is looked for. -/
def maxFrameScan : ℕ := 128 * 1024

/-- The first header with the number `want` among `n` positions from `k` on. -/
def successorFrom (info : StreamInfo) (b : List UInt8) (want : ℤ) :
    ℕ → ℕ → Except Err (Option (ℕ × Frame))
  | 0, _ => pure none
  | n + 1, k => do
      match ← parseFrame info b k with
      | some next =>
        if next.sample = want then pure (some (k, next)) else successorFrom info b want n (k + 1)
      | none => successorFrom info b want n (k + 1)

def successor (info : StreamInfo) (b : List UInt8) (i : ℕ) (f : Frame) :
    Except Err (Option (ℕ × Frame)) :=
  let stop := min (b.length - 16) (i + maxFrameScan)
  successorFrom info b (f.sample + f.block) (stop - (i + 16)) (i + 16)

def confirmed (info : StreamInfo) (b : List UInt8) (i : ℕ) (f : Frame) : Except Err Bool :=
  if (info.totalSamples : ℤ) ≤ f.sample + f.block then pure true
  else do
    let next ← successor info b i f
    pure next.isSome

/-- The last confirmed frame before the sample and the first one at or after it,
among `n` positions from `i` on. -/
def scan (info : StreamInfo) (b : List UInt8) (sample : ℤ) :
    ℕ → ℕ → Option (ℕ × Frame) → Except Err (Option (ℕ × Frame) × Option (ℕ × Frame))
  | 0, _, anchor => pure (anchor, none)
  | n + 1, i, anchor => do
      match ← parseFrame info b i with
      | none => scan info b sample n (i + 1) anchor
      | some f => do
          if ← confirmed info b i f then
            if f.sample < sample then scan info b sample n (i + 1) (some (i, f))
            else pure (anchor, some (i, f))
          else scan info b sample n (i + 1) anchor

/-- Where the frames followed from an anchor lead. -/
inductive ChainEnd
  | reached (off first : ℤ)
  | left (off : ℕ) (cur : Frame)
  deriving DecidableEq, Repr

/-- Follow the frames from the one at `curOff`; `fuel` bounds how many there are. -/
def follow (im : Image) (b : List UInt8) (start sample : ℤ) : ℕ → ℕ → Frame → Except Err ChainEnd
  | 0, _, _ => throw .unfinished
  | fuel + 1, curOff, cur =>
    if (im.info.totalSamples : ℤ) ≤ cur.sample + cur.block then
      pure (.reached im.size im.info.totalSamples)
    else do
      match ← successor im.info b curOff cur with
      | none => pure (.left curOff cur)
      | some (nextOff, next) =>
        if sample ≤ next.sample then pure (.reached (start + nextOff) next.sample)
        else follow im b start sample fuel nextOff next

/-- Where the window around an estimate starts. -/
def aim (im : Image) (est : ℤ) : ℤ :=
  let start := est - window / 2
  let start := if start < im.audioStart then (im.audioStart : ℤ) else start
  let start := if (im.size : ℤ) - 16 < start then (im.size : ℤ) - window else start
  if start < im.audioStart then im.audioStart else start

/-- `scale p x` is the length of `x` samples in bytes as it is interpolated at
probe `p`, and `fails p` says that the read of that probe fails. -/
structure Probing where
  scale : ℕ → ℤ → ℤ
  fails : ℕ → Bool

def windowAt (im : Image) (start : ℤ) : List UInt8 := (im.bytes.drop start.toNat).take window

def readWindow (im : Image) (env : Probing) (p : ℕ) (start : ℤ) : Except Err (List UInt8) :=
  if env.fails p then throw (.read start) else pure (windowAt im start)

/-- An estimate outside the bracket is replaced by the middle. -/
def retarget (est lo hi : ℤ) : ℤ :=
  if est ≤ lo ∨ hi ≤ est then lo + (hi - lo).tdiv 2 else est

/-- A probe answers, or gives the next estimate and bracket. -/
inductive Aim
  | answer (off first : ℤ)
  | again (est lo hi : ℤ)

/-- What is made of the window `b` read at `start`. -/
def probe (im : Image) (scale : ℤ → ℤ) (sample : ℤ) (b : List UInt8) (start lo hi : ℤ) :
    Except Err Aim := do
  match ← scan im.info b sample (b.length - 16) 0 none with
  | (some (i, f), _) =>
    match ← follow im b start sample (b.length + 1) i f with
    | .reached off first => pure (.answer off first)
    | .left curOff cur =>
      pure (.again (start + curOff + scale (sample - cur.sample)) (max lo (start + curOff)) hi)
  | (none, some (i, f)) =>
    if start = im.audioStart then pure (.answer (start + i) f.sample)
    else pure (.again (start + i - scale (f.sample - sample)) lo (min hi (start + i)))
  | (none, none) => pure (.again (lo + (hi - lo).tdiv 2) lo hi)

/-- The probes from the `p`-th on, `n` of them left. -/
def boundaryFrom (im : Image) (env : Probing) (sample : ℤ) :
    ℕ → ℕ → ℤ → ℤ → ℤ → Except Err (ℤ × ℤ)
  | 0, _, _, _, _ => throw (.boundaryNotFound sample)
  | n + 1, p, est, lo, hi => do
      let start := aim im est
      let b ← readWindow im env p start
      match ← probe im (env.scale (p + 1)) sample b start lo hi with
      | .answer off first => pure (off, first)
      | .again est lo hi => boundaryFrom im env sample n (p + 1) (retarget est lo hi) lo hi

/-- The byte offset and the first sample of the first frame at or after `sample`. -/
def Image.boundary (im : Image) (env : Probing) (sample : ℤ) : Except Err (ℤ × ℤ) :=
  if sample ≤ 0 then pure (im.audioStart, 0)
  else if (im.info.totalSamples : ℤ) ≤ sample then pure (im.size, im.info.totalSamples)
  else boundaryFrom im env sample maxProbes 0 (im.audioStart + env.scale 0 sample) im.audioStart
    im.size

/-! ### The search never gets stuck -/

section Total

variable (info : StreamInfo) (b : List UInt8) (sample : ℤ)

/-- What a search through `n` positions from `k` on ends with: a header with the
number, or none if there is no such header. -/
structure Finds (want : ℤ) (n k : ℕ) (r : Option (ℕ × Frame)) : Prop where
  found : ∀ off g, r = some (off, g) →
    k ≤ off ∧ off < k + n ∧ parseFrame info b off = .ok (some g) ∧ g.sample = want
  missed : r = none → ∀ off g, k ≤ off → off < k + n →
    parseFrame info b off = .ok (some g) → g.sample ≠ want

variable {info b} in
/-- A position without the number leaves what the later ones tell. -/
lemma Finds.later {want : ℤ} {n k : ℕ} {r : Option (ℕ × Frame)}
    (h : Finds info b want n (k + 1) r)
    (hk : ∀ g, parseFrame info b k = .ok (some g) → g.sample ≠ want) :
    Finds info b want (n + 1) k r := by
  refine ⟨fun off g hr => ?_, fun hr off g hlow hhigh hg => ?_⟩
  · obtain ⟨hlow, hhigh, hfound⟩ := h.found off g hr
    exact ⟨by omega, by omega, hfound⟩
  · rcases hlow.eq_or_lt with rfl | hlt
    · exact hk g hg
    · exact h.missed hr off g hlt (by omega) hg

lemma successorFrom_ok (want : ℤ) (n k : ℕ) :
    ∃ r, successorFrom info b want n k = .ok r ∧ Finds info b want n k r := by
  induction n generalizing k with
  | zero => exact ⟨none, rfl, fun _ _ h => absurd h (by simp), fun _ _ _ _ _ => by omega⟩
  | succ n ih =>
    obtain ⟨r, hr, hfinds⟩ := ih (k + 1)
    obtain ⟨r0, hr0⟩ := parseFrame_ok info b k
    rw [successorFrom, hr0]
    cases r0 with
    | none => exact ⟨r, hr, hfinds.later (by simp [hr0])⟩
    | some next =>
      simp only [bind, Except.bind]
      split_ifs with hwant
      · refine ⟨_, rfl, fun off g h => ?_, fun h => absurd h (by simp)⟩
        cases h
        exact ⟨le_rfl, by omega, hr0, hwant⟩
      · exact ⟨r, hr, hfinds.later (by simpa [hr0] using hwant)⟩

lemma successor_ok (i : ℕ) (f : Frame) :
    ∃ r, successor info b i f = .ok r ∧ ∀ off g, r = some (off, g) →
      i + 16 ≤ off ∧ off + 16 < b.length ∧ off < i + maxFrameScan ∧
        parseFrame info b off = .ok (some g) ∧ g.sample = f.sample + f.block := by
  obtain ⟨r, hr, hfinds⟩ := successorFrom_ok info b (f.sample + f.block)
    (min (b.length - 16) (i + maxFrameScan) - (i + 16)) (i + 16)
  refine ⟨r, hr, fun off g h => ?_⟩
  obtain ⟨hlow, hhigh, hfound⟩ := hfinds.found off g h
  exact ⟨hlow, by omega, by omega, hfound⟩

lemma confirmed_ok (i : ℕ) (f : Frame) : ∃ r, confirmed info b i f = .ok r := by
  obtain ⟨r, hr, -⟩ := successor_ok info b i f
  unfold confirmed
  split_ifs
  · exact ⟨true, rfl⟩
  · rw [hr]
    exact ⟨r.isSome, rfl⟩

/-- What a scan of `n` positions from `i` on ends with. -/
structure Scanned (n i : ℕ) (anchor : Option (ℕ × Frame))
    (r : Option (ℕ × Frame) × Option (ℕ × Frame)) : Prop where
  before : ∀ k f, r.1 = some (k, f) → anchor = some (k, f) ∨
    parseFrame info b k = .ok (some f) ∧ f.sample < sample
  firstGE : ∀ k f, r.2 = some (k, f) →
    parseFrame info b k = .ok (some f) ∧ sample ≤ f.sample ∧ k < i + n
  kept : anchor.isSome → r.1.isSome

lemma scan_ok (n i : ℕ) (anchor : Option (ℕ × Frame)) :
    ∃ r, scan info b sample n i anchor = .ok r ∧ Scanned info b sample n i anchor r := by
  induction n generalizing i anchor with
  | zero => exact ⟨_, rfl, fun _ _ h => .inl h, fun _ _ h => absurd h (by simp), id⟩
  | succ n ih =>
    have hlater (anchor') : ∃ r, scan info b sample n (i + 1) anchor' = .ok r ∧
        Scanned info b sample (n + 1) i anchor' r := by
      obtain ⟨r, hr, ha, hg, hsome⟩ := ih (i + 1) anchor'
      refine ⟨r, hr, ha, fun k f hk => ?_, hsome⟩
      obtain ⟨hp, hle, hlt⟩ := hg k f hk
      exact ⟨hp, hle, by omega⟩
    obtain ⟨r0, hr0⟩ := parseFrame_ok info b i
    rw [scan, hr0]
    cases r0 with
    | none => exact hlater anchor
    | some f =>
      obtain ⟨c, hc⟩ := confirmed_ok info b i f
      simp only [bind, Except.bind, hc]
      split_ifs with hconf hlt
      · obtain ⟨r, hr, ha, hg, hsome⟩ := hlater (some (i, f))
        refine ⟨r, hr, fun k f' hk => ?_, hg, fun _ => hsome rfl⟩
        rcases ha k f' hk with heq | hfound
        · cases heq
          exact .inr ⟨hr0, hlt⟩
        · exact .inr hfound
      · refine ⟨_, rfl, fun _ _ h => .inl h, fun k f' hk => ?_, id⟩
        cases hk
        exact ⟨hr0, not_lt.mp hlt, by omega⟩
      · exact hlater anchor

variable {info b sample} in
lemma scan_spec {n i : ℕ} {anchor : Option (ℕ × Frame)}
    {r : Option (ℕ × Frame) × Option (ℕ × Frame)} (h : scan info b sample n i anchor = .ok r) :
    Scanned info b sample n i anchor r := by
  obtain ⟨r', hr', hscanned⟩ := scan_ok info b sample n i anchor
  cases h.symm.trans hr'
  exact hscanned

/-- Each frame followed lies behind the one before it, so the fuel suffices. -/
lemma follow_ok (im : Image) (start : ℤ) {fuel curOff : ℕ} (cur : Frame)
    (h : b.length - curOff < fuel) : ∃ r, follow im b start sample fuel curOff cur = .ok r := by
  induction fuel generalizing curOff cur with
  | zero => omega
  | succ fuel ih =>
    obtain ⟨r, hr, hoff⟩ := successor_ok im.info b curOff cur
    unfold follow
    split_ifs
    · exact ⟨_, rfl⟩
    rw [hr]
    cases r with
    | none => exact ⟨_, rfl⟩
    | some x =>
      obtain ⟨nextOff, next⟩ := x
      have := hoff nextOff next rfl
      simp only [bind, Except.bind]
      split_ifs
      · exact ⟨_, rfl⟩
      · exact ih next (by omega)

/-- What a window tells: the frames followed from a confirmed one, or a frame at
the front of the image. -/
inductive Tells (im : Image) (start : ℤ) : ℤ → ℤ → Prop
  | followed {i f g off first : _} (hscan : scan im.info (windowAt im start) sample
      ((windowAt im start).length - 16) 0 none = .ok (some (i, f), g))
      (hfollow : follow im (windowAt im start) start sample ((windowAt im start).length + 1) i f
        = .ok (.reached off first)) : Tells im start off first
  | front {i : ℕ} {f : Frame} (hscan : scan im.info (windowAt im start) sample
      ((windowAt im start).length - 16) 0 none = .ok (none, some (i, f)))
      (hstart : start = im.audioStart) : Tells im start (start + i) f.sample

lemma probe_cases (im : Image) (scale : ℤ → ℤ) (start lo hi : ℤ) :
    (∃ off first, probe im scale sample (windowAt im start) start lo hi = .ok (.answer off first) ∧
      Tells sample im start off first) ∨
    ∃ est lo' hi', probe im scale sample (windowAt im start) start lo hi
      = .ok (.again est lo' hi') := by
  obtain ⟨⟨anchor, firstGE⟩, hscan, -⟩ := scan_ok im.info (windowAt im start) sample
    ((windowAt im start).length - 16) 0 none
  unfold probe
  simp only [bind, Except.bind, pure, Except.pure, hscan]
  cases anchor with
  | some x =>
    obtain ⟨i, f⟩ := x
    obtain ⟨r, hr⟩ := follow_ok (windowAt im start) sample im start f
      (show (windowAt im start).length - i < (windowAt im start).length + 1 by omega)
    simp only [hr]
    cases r with
    | reached off first => exact .inl ⟨off, first, rfl, .followed hscan hr⟩
    | left curOff cur => exact .inr ⟨_, _, _, rfl⟩
  | none =>
    cases firstGE with
    | some x =>
      split_ifs with hstart
      · exact .inl ⟨_, _, rfl, .front hscan hstart⟩
      · exact .inr ⟨_, _, _, rfl⟩
    | none => exact .inr ⟨_, _, _, rfl⟩

/-- A search that reads all its windows ends without an answer, or with what one
of them tells; a read that fails is the only other end. -/
inductive Ends (im : Image) : Except Err (ℤ × ℤ) → Prop
  | failed (off : ℤ) : Ends im (.error (.read off))
  | notFound : Ends im (.error (.boundaryNotFound sample))
  | told (est : ℤ) {off first : ℤ} (h : Tells sample im (aim im est) off first) :
      Ends im (.ok (off, first))

lemma boundaryFrom_ends (im : Image) (env : Probing) (n p : ℕ) (est lo hi : ℤ) :
    Ends sample im (boundaryFrom im env sample n p est lo hi) := by
  induction n generalizing p est lo hi with
  | zero => exact .notFound
  | succ n ih =>
    rw [boundaryFrom]
    by_cases hfails : env.fails p = true
    · rw [readWindow, if_pos hfails]
      exact .failed _
    rw [readWindow, if_neg hfails]
    simp only [bind, Except.bind, pure, Except.pure]
    rcases probe_cases sample im (env.scale (p + 1)) (aim im est) lo hi with
      ⟨off, first, hprobe, htells⟩ | ⟨est', lo', hi', hprobe⟩
    · simp only [hprobe]
      exact .told est htells
    · simp only [hprobe]
      exact ih _ _ _ _

/-- Reads that succeed find the same, whichever other reads would have failed. -/
lemma boundaryFrom_reads {im : Image} {env : Probing} {p : ℕ} {est lo hi : ℤ} {x : ℤ × ℤ}
    (h : boundaryFrom im env sample n p est lo hi = .ok x) :
    boundaryFrom im ⟨env.scale, fun _ => false⟩ sample n p est lo hi = .ok x := by
  induction n generalizing p est lo hi with
  | zero => cases h
  | succ n ih =>
    rw [boundaryFrom] at h ⊢
    by_cases hfails : env.fails p = true
    · rw [readWindow, if_pos hfails] at h
      cases h
    rw [readWindow, if_neg hfails] at h
    rw [readWindow, if_neg (by simp)]
    simp only [bind, Except.bind, pure, Except.pure] at h ⊢
    cases hprobe : probe im (env.scale (p + 1)) sample (windowAt im (aim im est)) (aim im est) lo
        hi with
    | error e =>
      simp only [hprobe] at h
      cases h
    | ok a =>
      simp only [hprobe] at h ⊢
      cases a with
      | answer off first => exact h
      | again est' lo' hi' => exact ih h

/-- Two searches for the same sample by the same estimates find the same. -/
lemma boundary_unique {im : Image} {scale : ℕ → ℤ → ℤ} {fails fails' : ℕ → Bool} {x y : ℤ × ℤ}
    (hx : im.boundary ⟨scale, fails⟩ sample = .ok x) (hy : im.boundary ⟨scale, fails'⟩ sample = .ok y) :
    x = y := by
  unfold Image.boundary at hx hy
  split_ifs at hx hy
  · exact Except.ok.inj (hx.symm.trans hy)
  · exact Except.ok.inj (hx.symm.trans hy)
  · have hx' := boundaryFrom_reads sample hx
    have hy' := boundaryFrom_reads sample hy
    exact Except.ok.inj (hx'.symm.trans hy')

end Total

/-! ### Well-formed images -/

/-- A frame as it lies in the image. -/
structure Laid where
  bytes : List UInt8
  frame : Frame

/-- The frames with the offsets they start at. -/
def starts : ℕ → List Laid → List (ℕ × Frame)
  | _, [] => []
  | o, l :: ls => (o, l.frame) :: starts (o + l.bytes.length) ls

/-- The first frame starts at sample `s`, each next one where the one before it
ends, and the last one ends at `total`. -/
def Consecutive (total : ℤ) : ℤ → List (ℕ × Frame) → Prop
  | s, [] => s = total
  | s, x :: xs => x.2.sample = s ∧ 0 < x.2.block ∧ Consecutive total (s + x.2.block) xs

instance Consecutive.decidable (total : ℤ) :
    (s : ℤ) → (xs : List (ℕ × Frame)) → Decidable (Consecutive total s xs)
  | s, [] => inferInstanceAs (Decidable (s = total))
  | s, x :: xs =>
    have := Consecutive.decidable total (s + x.2.block) xs
    inferInstanceAs (Decidable (x.2.sample = s ∧ 0 < x.2.block ∧ Consecutive total _ xs))

/-- The audio of the image is a sequence of frames with consecutive numbers, none
longer than `maxFrameScan`.  At the start of a frame its header is read, as far as
the image goes on for sixteen bytes, and nowhere else anything that passes for a
header. -/
structure WellFormed (im : Image) (fs : List Laid) : Prop where
  size : im.size = im.bytes.length
  front : im.audioStart ≤ im.bytes.length
  layout : im.bytes.drop im.audioStart = fs.flatMap Laid.bytes
  bounded : ∀ l ∈ fs, l.bytes.length ≤ maxFrameScan
  numbered : Consecutive im.info.totalSamples 0 (starts im.audioStart fs)
  header : ∀ x ∈ starts im.audioStart fs, x.1 + 16 ≤ im.size →
    parseFrame im.info im.bytes x.1 = .ok (some x.2)
  plain : ∀ i : ℕ, im.audioStart ≤ i → i ∉ (starts im.audioStart fs).map Prod.fst →
    parseFrame im.info im.bytes i = .ok none

/-- Every frame with a successor is at least sixteen bytes long and shorter than
`maxFrameScan`, and the successor, be it the last frame, is longer than sixteen
bytes. -/
def Roomy (fs : List Laid) : Prop :=
  fs.IsChain fun l next =>
    16 ≤ l.bytes.length ∧ l.bytes.length < maxFrameScan ∧ 16 < next.bytes.length

instance Roomy.decidable (fs : List Laid) : Decidable (Roomy fs) :=
  inferInstanceAs (Decidable (fs.IsChain _))

/-- The offset and the first sample of the first frame at or after `sample`, or
the end of the image and the number of its samples. -/
def firstFrame (im : Image) (fs : List Laid) (sample : ℤ) : ℤ × ℤ :=
  match (starts im.audioStart fs).find? fun x => sample ≤ x.2.sample with
  | some (o, f) => (o, f.sample)
  | none => (im.size, im.info.totalSamples)

section Numbers

variable {total s sample : ℤ} {xs : List (ℕ × Frame)}

section

variable (h : Consecutive total s xs)

include h

lemma Consecutive.bounds :
    s ≤ total ∧ ∀ x ∈ xs, s ≤ x.2.sample ∧ 0 < x.2.block ∧ x.2.sample + x.2.block ≤ total := by
  induction xs generalizing s with
  | nil => exact ⟨h.le, fun x hx => absurd hx (by simp)⟩
  | cons y xs ih =>
    obtain ⟨hy, hblock, hrest⟩ := h
    obtain ⟨hle, hall⟩ := ih hrest
    refine ⟨by omega, fun x hx => ?_⟩
    rcases mem_cons.mp hx with rfl | hx
    · exact ⟨hy.ge, hblock, by omega⟩
    · obtain ⟨hlow, hpos, hend⟩ := hall x hx
      exact ⟨by omega, hpos, hend⟩

/-- Behind the frame that ends the stream there is none. -/
lemma Consecutive.find_none (hx : x ∈ xs) (hlt : x.2.sample < sample)
    (hend : total ≤ x.2.sample + x.2.block) : xs.find? (fun y => sample ≤ y.2.sample) = none := by
  rw [find?_eq_none]
  intro y hy
  simp only [decide_eq_true_eq, not_le]
  refine lt_of_le_of_lt ?_ hlt
  induction xs generalizing s with
  | nil => simp at hx
  | cons z xs ih =>
    obtain ⟨hz, hblock, hrest⟩ := h
    obtain ⟨-, hall⟩ := hrest.bounds
    rcases mem_cons.mp hx with rfl | hx'
    · rcases mem_cons.mp hy with rfl | hy'
      · exact le_rfl
      · obtain ⟨hlow, hpos, hle⟩ := hall y hy'
        omega
    · rcases mem_cons.mp hy with rfl | hy'
      · have := (hall x hx').1
        omega
      · exact ih hrest hx' hy'

/-- The frame that follows one before the sample is the first at or after it, if it
is at or after it at all. -/
lemma Consecutive.find_next (hx : x ∈ xs) (hy : y ∈ xs) (hlt : x.2.sample < sample)
    (hnext : y.2.sample = x.2.sample + x.2.block) (hge : sample ≤ y.2.sample) :
    xs.find? (fun z => sample ≤ z.2.sample) = some y := by
  induction xs generalizing s with
  | nil => simp at hx
  | cons z xs ih =>
    obtain ⟨hz, hblock, hrest⟩ := h
    obtain ⟨-, hall⟩ := hrest.bounds
    have hzx : z.2.sample ≤ x.2.sample := by
      rcases mem_cons.mp hx with rfl | hx'
      · exact le_rfl
      · have := (hall x hx').1
        omega
    have hyz : y ∈ xs := by
      rcases mem_cons.mp hy with rfl | hy'
      · omega
      · exact hy'
    rw [find?_cons_of_neg (by simpa using by omega)]
    rcases mem_cons.mp hx with rfl | hx'
    · -- the successor of the head is the head of the rest
      cases xs with
      | nil => simp at hyz
      | cons z' xs =>
        obtain ⟨hz', hblock', hrest'⟩ := hrest
        rcases mem_cons.mp hyz with rfl | hy'
        · exact find?_cons_of_pos (by simpa using hge)
        · have := (hrest'.bounds.2 y hy').1
          omega
    · exact ih hrest hx' hyz

/-- The frame at the next index goes on where a frame ends. -/
lemma Consecutive.next_sample (hx : xs[k]? = some x) (hy : xs[k + 1]? = some y) :
    y.2.sample = x.2.sample + x.2.block := by
  induction xs generalizing s k with
  | nil => simp at hx
  | cons z xs ih =>
    obtain ⟨hz, hblock, hrest⟩ := h
    cases k with
    | zero =>
      obtain rfl : z = x := by simpa using hx
      cases xs with
      | nil => simp at hy
      | cons z' xs =>
        obtain rfl : z' = y := by simpa using hy
        rw [hrest.1, hz]
    | succ k => exact ih hrest (by simpa using hx) (by simpa using hy)

end

end Numbers

section Layout

variable {o : ℕ} {fs : List Laid}

lemma le_of_mem_starts (hx : x ∈ starts o fs) : o ≤ x.1 := by
  induction fs generalizing o with
  | nil => simp [starts] at hx
  | cons l fs ih =>
    rcases mem_cons.mp hx with rfl | hx
    · exact le_rfl
    · exact (Nat.le_add_right _ _).trans (ih hx)

/-- Two frames that follow each other, and where they start: the next one where
the one before it ends, and before the end of the image. -/
lemma starts_next {l next : Laid} (hl : fs[k]? = some l) (hnext : fs[k + 1]? = some next) :
    ∃ p, (starts o fs)[k]? = some (p, l.frame) ∧
      (starts o fs)[k + 1]? = some (p + l.bytes.length, next.frame) ∧
      p + l.bytes.length + next.bytes.length ≤ o + (fs.flatMap Laid.bytes).length := by
  induction fs generalizing o k with
  | nil => simp at hl
  | cons l' fs ih =>
    cases k with
    | zero =>
      obtain rfl : l' = l := by simpa using hl
      cases fs with
      | nil => simp at hnext
      | cons next' fs =>
        obtain rfl : next' = next := by simpa using hnext
        refine ⟨o, rfl, rfl, ?_⟩
        simp only [flatMap_cons, length_append]
        omega
    | succ k =>
      obtain ⟨p, hp, hp', hend⟩ :=
        ih (o := o + l'.bytes.length) (k := k) (by simpa using hl) (by simpa using hnext)
      refine ⟨p, hp, hp', ?_⟩
      simp only [flatMap_cons, length_append]
      omega

lemma Roomy.pair {l next : Laid} (h : Roomy fs) (hl : fs[k]? = some l)
    (hnext : fs[k + 1]? = some next) :
    16 ≤ l.bytes.length ∧ l.bytes.length < maxFrameScan ∧ 16 < next.bytes.length := by
  obtain ⟨hk, rfl⟩ := List.getElem?_eq_some_iff.mp hnext
  obtain ⟨-, rfl⟩ := List.getElem?_eq_some_iff.mp hl
  exact isChain_iff_getElem.mp h k hk

end Layout

/-! ### What the search finds -/

section Found

variable {info : StreamInfo} {b : List UInt8} {sample want : ℤ}

lemma confirmed_of_successor {off : ℕ} {g : Frame} (hg : parseFrame info b off = .ok (some g))
    (hwant : g.sample = f.sample + f.block) (hlow : i + 16 ≤ off) (hscan : off < i + maxFrameScan)
    (hwindow : off < b.length - 16) : confirmed info b i f = .ok true := by
  unfold confirmed
  split_ifs
  · rfl
  · obtain ⟨r, hr, hfinds⟩ := successorFrom_ok info b (f.sample + f.block)
      (min (b.length - 16) (i + maxFrameScan) - (i + 16)) (i + 16)
    rw [successor, hr]
    cases r with
    | none => exact absurd hwant (hfinds.missed rfl off g hlow (by omega) hg)
    | some x => rfl

lemma follow_nonneg {im : Image} {start off first : ℤ} {fuel curOff : ℕ} {cur : Frame}
    (hstart : 0 ≤ start) (h : follow im b start sample fuel curOff cur = .ok (.reached off first)) :
    0 ≤ off ∧ 0 ≤ first := by
  induction fuel generalizing curOff cur with
  | zero => cases h
  | succ fuel ih =>
    unfold follow at h
    split_ifs at h
    · cases h
      exact ⟨Int.natCast_nonneg _, Int.natCast_nonneg _⟩
    obtain ⟨r, hr, hnext⟩ := successor_ok im.info b curOff cur
    rw [hr] at h
    cases r with
    | none => cases h
    | some x =>
      simp only [bind, Except.bind] at h
      split_ifs at h
      · cases h
        obtain ⟨-, -, -, hparse, -⟩ := hnext _ _ rfl
        exact ⟨by omega, sample_nonneg_of_parse hparse⟩
      · exact ih h

lemma le_aim (im : Image) (est : ℤ) : (im.audioStart : ℤ) ≤ aim im est := by
  unfold aim
  dsimp only
  split_ifs <;> omega

lemma boundary_nonneg {im : Image} {env : Probing} {off first : ℤ}
    (h : im.boundary env sample = .ok (off, first)) : 0 ≤ off ∧ 0 ≤ first := by
  unfold Image.boundary at h
  split_ifs at h
  · cases h
    exact ⟨Int.natCast_nonneg _, le_rfl⟩
  · cases h
    exact ⟨Int.natCast_nonneg _, Int.natCast_nonneg _⟩
  have hends := boundaryFrom_ends sample im env maxProbes 0
    (im.audioStart + env.scale 0 sample) im.audioStart im.size
  rw [h] at hends
  cases hends with
  | told est htells =>
    have hstart : 0 ≤ aim im est := (Int.natCast_nonneg _).trans (le_aim im est)
    cases htells with
    | followed hscan hfollow => exact follow_nonneg hstart hfollow
    | front hscan hfront =>
      exact ⟨by omega, sample_nonneg_of_parse ((scan_spec hscan).firstGE _ _ rfl).1⟩

end Found

section Images

variable {im : Image} {fs : List Laid} {sample : ℤ} {start : ℕ}

lemma WellFormed.mem_of_parse (h : WellFormed im fs) (hi : im.audioStart ≤ i)
    (hp : parseFrame im.info im.bytes i = .ok (some f)) : (i, f) ∈ starts im.audioStart fs := by
  by_cases hmem : i ∈ (starts im.audioStart fs).map Prod.fst
  · obtain ⟨⟨o, g⟩, hg, rfl⟩ := mem_map.mp hmem
    have hlen : o + 16 ≤ im.size := by
      by_contra hshort
      rw [parseFrame_of_short (by rw [← h.size]; exact not_le.mp hshort)] at hp
      cases hp
    have hsame := (h.header _ hg hlen).symm.trans hp
    cases Except.ok.inj hsame
    exact hg
  · rw [h.plain i hi hmem] at hp
    cases hp

/-- A header read in a window is that of a frame. -/
lemma WellFormed.mem_of_window (h : WellFormed im fs) (hstart : im.audioStart ≤ start)
    (hp : parseFrame im.info ((im.bytes.drop start).take n) i = .ok (some f)) :
    (start + i, f) ∈ starts im.audioStart fs := by
  have hlen : i + 16 ≤ ((im.bytes.drop start).take n).length := by
    by_contra hshort
    rw [parseFrame_of_short (not_le.mp hshort)] at hp
    cases hp
  rw [parseFrame_window im.info im.bytes start n hlen] at hp
  exact h.mem_of_parse (hstart.trans (Nat.le_add_right _ _)) hp

/-- The header of a frame is read in every window that holds it. -/
lemma WellFormed.parse_window (h : WellFormed im fs) (start n : ℕ)
    (hx : x ∈ starts im.audioStart fs) (hlow : start ≤ x.1)
    (hhigh : x.1 - start + 16 ≤ ((im.bytes.drop start).take n).length) :
    parseFrame im.info ((im.bytes.drop start).take n) ((x.1 - start : ℕ) : ℤ) = .ok (some x.2) := by
  rw [parseFrame_window im.info im.bytes start n hhigh, Nat.add_sub_cancel' hlow]
  rw [length_take, length_drop] at hhigh
  apply h.header x hx
  rw [h.size]
  omega

section Pairs

variable {l next : Laid}

section

variable (h : WellFormed im fs)

include h

/-- Two frames that follow each other lie whole in the image. -/
lemma WellFormed.starts_next (hl : fs[k]? = some l) (hnext : fs[k + 1]? = some next)
    (hx : (starts im.audioStart fs)[k]? = some x) :
    (starts im.audioStart fs)[k + 1]? = some (x.1 + l.bytes.length, next.frame) ∧
      x.1 + l.bytes.length + next.bytes.length ≤ im.bytes.length := by
  obtain ⟨p, hp, hp', hend⟩ := Audio.starts_next hl hnext
  obtain rfl := Option.some.inj (hx.symm.trans hp)
  refine ⟨hp', hend.trans ?_⟩
  have := h.front
  rw [← h.layout, length_drop]
  omega

/-- A frame is confirmed in every window that scans it and its successor. -/
lemma WellFormed.confirmed (hroom : Roomy fs) (start n : ℕ) (hl : fs[k]? = some l)
    (hnext : fs[k + 1]? = some next) (hx : (starts im.audioStart fs)[k]? = some x)
    (hlow : start ≤ x.1)
    (hhigh : x.1 + l.bytes.length - start < ((im.bytes.drop start).take n).length - 16) :
    parseFrame im.info ((im.bytes.drop start).take n) ((x.1 - start : ℕ) : ℤ) = .ok (some x.2) ∧
      confirmed im.info ((im.bytes.drop start).take n) (x.1 - start) x.2 = .ok true := by
  obtain ⟨hlong, hshort, -⟩ := hroom.pair hl hnext
  obtain ⟨hy, -⟩ := h.starts_next hl hnext hx
  constructor
  · apply h.parse_window start n (mem_of_getElem? hx) hlow
    omega
  · have hparse := h.parse_window start n (mem_of_getElem? hy) (by dsimp only; omega)
      (by dsimp only; omega)
    exact confirmed_of_successor hparse (h.numbered.next_sample hx hy) (by dsimp only; omega)
      (by dsimp only; omega) hhigh

/-- The frame with the number that follows a frame is the one that follows it. -/
lemma WellFormed.eq_next (hx : (starts im.audioStart fs)[k]? = some x)
    (hy : (starts im.audioStart fs)[k + 1]? = some y) {z : ℕ × Frame}
    (hz : z ∈ starts im.audioStart fs) (hsample : z.2.sample = x.2.sample + x.2.block) : z = y := by
  have hmem := mem_of_getElem? hx
  have hnext := h.numbered.next_sample hx hy
  obtain ⟨-, hblock, -⟩ := h.numbered.bounds.2 x hmem
  have hfind : (starts im.audioStart fs).find? (fun w => y.2.sample ≤ w.2.sample) = some y :=
    h.numbered.find_next hmem (mem_of_getElem? hy) (by omega) hnext le_rfl
  rw [h.numbered.find_next hmem hz (by omega) hsample (by omega)] at hfind
  exact Option.some.inj hfind

/-- A frame confirmed in the window that holds it and its successor, and nothing
else, has room. -/
lemma WellFormed.room_of_confirmed (hl : fs[k]? = some l) (hnext : fs[k + 1]? = some next)
    (hx : (starts im.audioStart fs)[k]? = some x)
    (hc : Audio.confirmed im.info
      ((im.bytes.drop x.1).take (l.bytes.length + next.bytes.length)) 0 x.2 = .ok true) :
    16 ≤ l.bytes.length ∧ l.bytes.length < maxFrameScan ∧ 16 < next.bytes.length := by
  obtain ⟨hy, hend⟩ := h.starts_next hl hnext hx
  have hlength : ((im.bytes.drop x.1).take (l.bytes.length + next.bytes.length)).length
      = l.bytes.length + next.bytes.length := by
    rw [length_take, length_drop]
    omega
  -- a frame with a successor does not end the stream
  have hgoes : ¬(im.info.totalSamples : ℤ) ≤ x.2.sample + x.2.block := by
    obtain ⟨-, hblock, hle⟩ := h.numbered.bounds.2 _ (mem_of_getElem? hy)
    have := h.numbered.next_sample hx hy
    omega
  obtain ⟨r, hr, hfound⟩ := successor_ok im.info
    ((im.bytes.drop x.1).take (l.bytes.length + next.bytes.length)) 0 x.2
  rw [Audio.confirmed, if_neg hgoes, hr] at hc
  cases r with
  | none => cases hc
  | some found =>
    obtain ⟨off, g⟩ := found
    obtain ⟨hlow, hwindow, hscan, hparse, hsample⟩ := hfound off g rfl
    have hmem := h.mem_of_window (le_of_mem_starts (mem_of_getElem? hx)) hparse
    have hoffset := congrArg Prod.fst (h.eq_next hx hy hmem hsample)
    dsimp only at hoffset
    omega

end

end Pairs

lemma firstFrame_eq (h : (starts im.audioStart fs).find? (fun y => sample ≤ y.2.sample) = some x) :
    firstFrame im fs sample = ((x.1 : ℤ), x.2.sample) := by
  rw [firstFrame, h]

lemma firstFrame_end
    (h : (starts im.audioStart fs).find? (fun y => sample ≤ y.2.sample) = none) :
    firstFrame im fs sample = ((im.size : ℤ), (im.info.totalSamples : ℤ)) := by
  rw [firstFrame, h]

section

variable (h : WellFormed im fs)

include h

lemma WellFormed.firstFrame_of_nonpos (hneg : sample ≤ 0) :
    firstFrame im fs sample = ((im.audioStart : ℤ), 0) := by
  have hnum := h.numbered
  cases fs with
  | nil =>
    have hlen : (im.bytes.drop im.audioStart).length = 0 := by
      rw [h.layout]
      rfl
    have htotal : (0 : ℤ) = im.info.totalSamples := hnum
    have := h.front
    rw [length_drop] at hlen
    rw [firstFrame_end rfl, ← htotal, h.size]
    congr 2
    omega
  | cons l fs =>
    have hfirst : l.frame.sample = 0 := hnum.1
    rw [firstFrame_eq (find?_cons_of_pos (by simpa [hfirst] using hneg))]
    exact congrArg _ hfirst

lemma WellFormed.firstFrame_of_past (hpast : (im.info.totalSamples : ℤ) ≤ sample) :
    firstFrame im fs sample = ((im.size : ℤ), (im.info.totalSamples : ℤ)) := by
  apply firstFrame_end
  rw [find?_eq_none]
  intro x hx
  obtain ⟨-, hblock, hend⟩ := h.numbered.bounds.2 x hx
  simp only [decide_eq_true_eq, not_le]
  omega

/-- The frames followed from one before the sample lead to the first at or after it. -/
lemma WellFormed.follow (hstart : im.audioStart ≤ start) {fuel curOff : ℕ} {cur : Frame}
    {off first : ℤ} (hcur : (start + curOff, cur) ∈ starts im.audioStart fs)
    (hlt : cur.sample < sample)
    (hfollow : follow im ((im.bytes.drop start).take n) start sample fuel curOff cur
      = .ok (.reached off first)) : (off, first) = firstFrame im fs sample := by
  induction fuel generalizing curOff cur with
  | zero => cases hfollow
  | succ fuel ih =>
    unfold Audio.follow at hfollow
    split_ifs at hfollow with hend
    · cases hfollow
      exact (firstFrame_end (h.numbered.find_none hcur hlt hend)).symm
    obtain ⟨r, hr, hfound⟩ := successor_ok im.info ((im.bytes.drop start).take n) curOff cur
    rw [hr] at hfollow
    cases r with
    | none => cases hfollow
    | some x =>
      obtain ⟨nextOff, next⟩ := x
      obtain ⟨-, -, -, hparse, hnext⟩ := hfound nextOff next rfl
      have hmem := h.mem_of_window hstart hparse
      simp only [bind, Except.bind] at hfollow
      split_ifs at hfollow with hge
      · cases hfollow
        rw [firstFrame_eq (h.numbered.find_next hcur hmem hlt hnext hge), Nat.cast_add]
      · exact ih hmem (not_le.mp hge) hfollow

/-- In the window at the front of the image the first frame is confirmed if any
later one is scanned. -/
lemma WellFormed.anchored (hroom : Roomy fs) (hpos : 0 < sample) {a : Option (ℕ × Frame)}
    (hscan : scan im.info ((im.bytes.drop im.audioStart).take n) sample
      (((im.bytes.drop im.audioStart).take n).length - 16) 0 none = .ok (a, some (i, f))) :
    a.isSome := by
  obtain ⟨hparse, hge, hi⟩ := (scan_spec hscan).firstGE i f rfl
  have hmem := h.mem_of_window le_rfl hparse
  -- the frame found is not the first one, which starts at sample zero
  obtain ⟨l, next, x, hl, hnext, hx, hzero, hfront, hbefore⟩ : ∃ l next x, fs[0]? = some l ∧
      fs[1]? = some next ∧ (starts im.audioStart fs)[0]? = some x ∧ x.2.sample = 0 ∧
      x.1 = im.audioStart ∧ im.audioStart + l.bytes.length ≤ im.audioStart + i := by
    have hnum := h.numbered
    cases fs with
    | nil => simp [starts] at hmem
    | cons l fs =>
      have hfirst : l.frame.sample = 0 := hnum.1
      have hrest : (im.audioStart + i, f) ∈ starts (im.audioStart + l.bytes.length) fs := by
        rcases mem_cons.mp hmem with heq | hrest
        · have hf : f = l.frame := (Prod.mk.inj heq).2
          rw [hf, hfirst] at hge
          omega
        · exact hrest
      cases fs with
      | nil => simp [starts] at hrest
      | cons next fs =>
        exact ⟨l, next, _, rfl, rfl, rfl, hfirst, rfl, le_of_mem_starts hrest⟩
  obtain ⟨hp, hc⟩ := h.confirmed hroom im.audioStart n hl hnext hx hfront.ge (by omega)
  rw [hfront, Nat.sub_self] at hp hc
  obtain ⟨m, hm⟩ : ∃ m, ((im.bytes.drop im.audioStart).take n).length - 16 = m + 1 :=
    ⟨_, (Nat.succ_pred_eq_of_pos (by omega)).symm⟩
  rw [hm, scan, hp] at hscan
  simp only [bind, Except.bind, hc, if_true] at hscan
  rw [if_pos (by omega)] at hscan
  exact (scan_spec hscan).kept rfl

/-- A boundary found among frames with room is the first frame at or after the
sample. -/
lemma WellFormed.boundary (hroom : Roomy fs) {env : Probing} {off first : ℤ}
    (hfound : im.boundary env sample = .ok (off, first)) :
    (off, first) = firstFrame im fs sample := by
  unfold Image.boundary at hfound
  split_ifs at hfound with hneg hpast
  · cases hfound
    exact (h.firstFrame_of_nonpos hneg).symm
  · cases hfound
    exact (h.firstFrame_of_past hpast).symm
  have hends := boundaryFrom_ends sample im env maxProbes 0
    (im.audioStart + env.scale 0 sample) im.audioStart im.size
  rw [hfound] at hends
  obtain ⟨est, htells⟩ : ∃ est, Tells sample im (aim im est) off first := by
    cases hends with
    | told est h => exact ⟨est, h⟩
  have hle := le_aim im est
  obtain ⟨start, hstart⟩ := Int.eq_ofNat_of_zero_le ((Int.natCast_nonneg _).trans hle)
  rw [hstart] at htells hle
  cases htells with
  | followed hscan hfollow =>
    obtain ⟨hparse, hlt⟩ := ((scan_spec hscan).before _ _ rfl).resolve_left (by simp)
    have hmem := h.mem_of_window (Int.ofNat_le.mp hle) hparse
    exact h.follow (Int.ofNat_le.mp hle) hmem hlt hfollow
  | front hscan hfront =>
    obtain rfl : start = im.audioStart := Int.ofNat.inj hfront
    cases h.anchored hroom (not_le.mp hneg) hscan

end

/-- In a well-formed image a boundary that is found is the first frame at or after
the sample, whatever the estimates are and whichever reads fail, and every frame
is recognised and confirmed in every window that holds it and its successor whole,
exactly if every frame with a successor is at least sixteen bytes long and shorter
than `maxFrameScan` and every frame that is a successor is longer than sixteen
bytes. -/
theorem boundary_is_first_frame (im : Image) (fs : List Laid) (h : WellFormed im fs) :
    ((∀ env sample off first, im.boundary env sample = .ok (off, first) →
        (off, first) = firstFrame im fs sample) ∧
      ∀ start n k l next x, fs[k]? = some l → fs[k + 1]? = some next →
        (starts im.audioStart fs)[k]? = some x → start ≤ x.1 →
        x.1 + l.bytes.length + next.bytes.length ≤ start + n →
        parseFrame im.info ((im.bytes.drop start).take n) ((x.1 - start : ℕ) : ℤ)
            = .ok (some x.2) ∧
          confirmed im.info ((im.bytes.drop start).take n) (x.1 - start) x.2 = .ok true) ↔
    Roomy fs := by
  constructor
  · rintro ⟨-, hwhole⟩
    refine isChain_iff_getElem.mpr fun k hk => ?_
    have hl : fs[k]? = some fs[k] := getElem?_eq_getElem _
    have hnext : fs[k + 1]? = some fs[k + 1] := getElem?_eq_getElem _
    obtain ⟨p, hp, -⟩ := starts_next (o := im.audioStart) hl hnext
    -- the window that holds the two frames and nothing else
    obtain ⟨-, hc⟩ := hwhole p (fs[k].bytes.length + fs[k + 1].bytes.length) k _ _ _ hl hnext hp
      le_rfl (Nat.add_assoc _ _ _).le
    rw [Nat.sub_self] at hc
    exact h.room_of_confirmed hl hnext hp hc
  · intro hroom
    refine ⟨fun env sample off first hfound => h.boundary hroom hfound, ?_⟩
    intro start n k l next x hl hnext hx hlow hhigh
    obtain ⟨-, hend⟩ := h.starts_next hl hnext hx
    obtain ⟨-, -, hlong⟩ := hroom.pair hl hnext
    refine h.confirmed hroom start n hl hnext hx hlow ?_
    rw [length_take, length_drop]
    omega

/-- Whether anything but a frame passes for a header is decided on the image. -/
lemma plain_of_lt (hsize : im.size = im.bytes.length)
    (h : ∀ i < im.size, im.audioStart ≤ i → i ∉ (starts im.audioStart fs).map Prod.fst →
      parseFrame im.info im.bytes i = .ok none) (i : ℕ) (hi : im.audioStart ≤ i)
    (hfree : i ∉ (starts im.audioStart fs).map Prod.fst) :
    parseFrame im.info im.bytes i = .ok none := by
  by_cases hlt : i < im.size
  · exact h i hlt hi hfree
  · exact parseFrame_of_short (by omega)

end Images

/-! ### Silence at the front -/

/-- Sixteen samples of eight bits each, as they are. -/
def loudFrame (number crc : UInt8) (samples : List UInt8) (check : List UInt8) : Laid :=
  ⟨[0xFF, 0xF8, 0x69, 0x02, number, 0x0F, crc, 0x02] ++ samples ++ check, ⟨16 * number.toNat, 16⟩⟩

/-- Sixteen equal samples. -/
def silentFrame (number crc : UInt8) (check : List UInt8) : Laid :=
  ⟨[0xFF, 0xF8, 0x69, 0x02, number, 0x0F, crc, 0x00, 0x00] ++ check, ⟨16 * number.toNat, 16⟩⟩

/-- A mono image at 44100 Hz, eight bits a sample. -/
def monoBytes (total : UInt8) (fs : List Laid) : List UInt8 :=
  fLaC ++ [0x80, 0, 0, 34] ++ [0, 16, 0, 16, 0, 0, 0, 0, 0, 0, 0x0A, 0xC4, 0x40, 0x70, 0, 0, 0, total]
    ++ List.replicate 16 0 ++ fs.flatMap Laid.bytes

def monoImage (total : UInt8) (fs : List Laid) : Image where
  info := .decode (((monoBytes total fs).drop 8).take 34)
  audioStart := 42
  size := (monoBytes total fs).length
  bytes := monoBytes total fs

def samplesFrom (n : UInt8) : List UInt8 := (List.range 16).map fun i => n + UInt8.ofNat i

def loudFrames : List Laid :=
  [loudFrame 0 0xB7 (samplesFrom 1) [0x14, 0x77], loudFrame 1 0xA2 (samplesFrom 0x11) [0xF2, 0xB4],
    loudFrame 2 0x9D (samplesFrom 0x21) [0xD8, 0x77]]

/-- Every estimate is the start of the image and no read fails. -/
def steady : Probing := ⟨fun _ _ => 0, fun _ => false⟩

theorem boundary_of_loud_frames :
    openImage ⟨monoBytes 48 loudFrames, fun _ => false⟩ 120 = .ok (monoImage 48 loudFrames) ∧
      (monoImage 48 loudFrames).boundary steady 5 = .ok (68, 16) ∧
      firstFrame (monoImage 48 loudFrames) loudFrames 5 = (68, 16) := by
  have hwf : WellFormed (monoImage 48 loudFrames) loudFrames := by
    constructor
    · rfl
    · decide +kernel
    · decide +kernel
    · decide +kernel
    · decide +kernel
    · decide +kernel
    · exact plain_of_lt rfl (by decide +kernel)
  have hfound : (monoImage 48 loudFrames).boundary steady 5 = .ok (68, 16) := by decide +kernel
  refine ⟨by decide +kernel, hfound, ?_⟩
  exact (((boundary_is_first_frame _ _ hwf).mpr (by decide)).1 steady 5 68 16 hfound).symm

def quietFrames : List Laid :=
  [silentFrame 0 0xB7 [0xFA, 0x22], silentFrame 1 0xA2 [0xFB, 0x5E],
    loudFrame 2 0x9D (samplesFrom 0x21) [0xD8, 0x77], loudFrame 3 0x88 (samplesFrom 0x31) [0xBF, 0x37]]

/-- The first two frames are eleven bytes long, so the successors of both are
passed over: neither is confirmed, and the third one is taken for the first at
or after sample 5. -/
theorem boundary_skips_silent_frames :
    openImage ⟨monoBytes 64 quietFrames, fun _ => false⟩ 116 = .ok (monoImage 64 quietFrames) ∧
      WellFormed (monoImage 64 quietFrames) quietFrames ∧
      firstFrame (monoImage 64 quietFrames) quietFrames 5 = (53, 16) ∧
      (monoImage 64 quietFrames).boundary steady 5 = .ok (64, 32) ∧
      confirmed (monoImage 64 quietFrames).info ((monoImage 64 quietFrames).bytes.drop 42) 0 ⟨0, 16⟩
        = .ok false := by
  refine ⟨by decide +kernel, ?_, by decide +kernel, by decide +kernel, by decide +kernel⟩
  constructor
  · rfl
  · decide +kernel
  · decide +kernel
  · decide +kernel
  · decide +kernel
  · decide +kernel
  · exact plain_of_lt rfl (by decide +kernel)

end Tiramisu.Audio
