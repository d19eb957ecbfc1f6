import Tiramisu.Audio.Boundary
import Tiramisu.Library.Idempotency

/-!
# Cutting an image into cue tracks

Each track of a cue sheet is cut on its own: from the frame at or after its
start to the frame at or after the start of the next track, which is looked up
through a memo.  If every track is cut, in whatever order and with whatever reads
failing in between, the segments are a partition of the image from the first
boundary to its end.
-/

namespace Tiramisu.Audio

open Go Transition Library List Except

structure Track where
  number : ℤ
  title : String
  performer : String
  start : ℤ
  deriving DecidableEq, Repr

structure CueFile where
  name : String
  tracks : List Track

structure Sheet where
  title : String
  performer : String

def framesPerSecond : ℤ := 75

/-- `t.Start * int64(rate) / FramesPerSecond`; the product may wrap around. -/
def Track.startSample (t : Track) (rate : ℕ) : ℤ := ((t.start * rate).bmod (2 ^ 64)).tdiv framesPerSecond

/-- `upper` is `strings.ToUpper`. -/
def trackTags (upper : String → String) (sheet : Sheet) (track : Track)
    (supplied : GoMap String String) : List Tag :=
  if 0 < supplied.keys.length then
    (supplied.keys.mergeSort (· ≤ ·)).map fun k => ⟨upper k, (supplied.lookup k).getD ""⟩
  else
    let performer := if track.performer = "" then sheet.performer else track.performer
    [(⟨"TITLE", track.title⟩ : Tag), ⟨"ARTIST", performer⟩, ⟨"ALBUM", sheet.title⟩,
      ⟨"TRACKNUMBER", toString track.number⟩].filter (·.value ≠ "")

/-- The boundaries a memo has been told. -/
abbrev Memo := GoMap ℤ (ℤ × ℤ)

/-- `memoBoundary` around the finder `f`. -/
def memoBoundary (f : ℤ → Except Err (ℤ × ℤ)) (sample : ℤ) (cache : Memo) :
    Except Err (ℤ × ℤ) × Memo :=
  match cache.lookup sample with
  | some p => (.ok p, cache)
  | none =>
    match f sample with
    | .error e => (.error e, cache)
    | .ok p => (.ok p, cache.insert sample p)

/-- The first track with a number, and the one behind it. -/
def findTrack (number : ℤ) : List Track → Option (Track × Option Track)
  | [] => none
  | t :: ts => if t.number = number then some (t, ts.head?) else findTrack number ts

/-- A call of `cutTrack`: the track and the tags it is asked for, and which reads
fail of the search for its start and of that for its end. -/
structure CutRequest where
  cueTrack : ℤ
  tags : GoMap String String
  startFails : ℕ → Bool
  stopFails : ℕ → Bool

section Cut

variable (upper : String → String) (im : Image) (scale : ℕ → ℤ → ℤ) (sheet : Sheet) (file : CueFile)

def stopSample (next : Option Track) : ℤ :=
  match next with
  | some t => t.startSample im.info.rate
  | none => im.info.totalSamples

def cutTrack (req : CutRequest) (cache : Memo) : Except Err CueSegment × Memo :=
  match findTrack req.cueTrack file.tracks with
  | none => (.error .noSuchTrack, cache)
  | some (track, next) =>
    match memoBoundary (im.boundary ⟨scale, req.startFails⟩) (track.startSample im.info.rate) cache with
    | (.error e, cache) => (.error e, cache)
    | (.ok (startOff, startAt), cache) =>
      match memoBoundary (im.boundary ⟨scale, req.stopFails⟩) (stopSample im next) cache with
      | (.error e, cache) => (.error e, cache)
      | (.ok (endOff, endAt), cache) =>
        if endOff ≤ startOff ∨ endAt ≤ startAt then (.error .noFrame, cache)
        else
          match im.header (endAt - startAt) (trackTags upper sheet track req.tags) with
          | .error e => (.error e, cache)
          | .ok header => (.ok ⟨startOff, endOff - startOff, header⟩, cache)

/-- One call of `cutTrack` and its answer. -/
def Cuts (cache : Memo) (l : CutRequest × Except Err CueSegment) (cache' : Memo) : Prop :=
  cutTrack upper im scale sheet file l.1 cache = (l.2, cache')

end Cut

/-- The sample count in the header of a segment. -/
def samplesOf (s : CueSegment) : ℕ := (StreamInfo.decode ((s.header.drop 8).take 34)).totalSamples

/-- The bytes of the image that a segment stands for. -/
def bytesIn (im : Image) (s : CueSegment) : List UInt8 :=
  (im.bytes.drop s.offset.toNat).take s.length.toNat

/-! ### The memo -/

section Memos

variable {im : Image} {scale : ℕ → ℤ → ℤ}

/-- The memo holds what a search has found. -/
def Honest (im : Image) (scale : ℕ → ℤ → ℤ) (cache : Memo) : Prop :=
  ∀ sample p, cache.lookup sample = some p → ∃ fails, im.boundary ⟨scale, fails⟩ sample = .ok p

/-- What a memo has been told stays. -/
def Grown (cache cache' : Memo) : Prop :=
  ∀ sample p, cache.lookup sample = some p → cache'.lookup sample = some p

lemma Grown.refl (cache : Memo) : Grown cache cache := fun _ _ h => h

lemma Grown.trans {c1 c2 c3 : Memo} (h : Grown c1 c2) (h' : Grown c2 c3) : Grown c1 c3 :=
  fun sample p hp => h' sample p (h sample p hp)

/-- The memo answers as the finder does, or with what it has been told before. -/
lemma memoBoundary_cases (f : ℤ → Except Err (ℤ × ℤ)) (sample : ℤ) (cache : Memo) :
    (∃ p, cache.lookup sample = some p ∧ memoBoundary f sample cache = (.ok p, cache)) ∨
    (∃ p, cache.lookup sample = none ∧ f sample = .ok p ∧
      memoBoundary f sample cache = (.ok p, cache.insert sample p)) ∨
    ∃ e, cache.lookup sample = none ∧ f sample = .error e ∧
      memoBoundary f sample cache = (.error e, cache) := by
  unfold memoBoundary
  cases hl : cache.lookup sample with
  | some p => exact Or.inl ⟨p, rfl, rfl⟩
  | none =>
    cases hf : f sample with
    | ok p => exact Or.inr (Or.inl ⟨p, rfl, rfl, rfl⟩)
    | error e => exact Or.inr (Or.inr ⟨e, rfl, rfl, rfl⟩)

lemma memoBoundary_spec {fails : ℕ → Bool} {sample : ℤ} {cache cache' : Memo}
    {r : Except Err (ℤ × ℤ)} (hc : Honest im scale cache)
    (h : memoBoundary (im.boundary ⟨scale, fails⟩) sample cache = (r, cache')) :
    Honest im scale cache' ∧ Grown cache cache' ∧ ∀ p, r = .ok p → cache'.lookup sample = some p := by
  rcases memoBoundary_cases (im.boundary ⟨scale, fails⟩) sample cache with
    ⟨p, hp, heq⟩ | ⟨p, hnone, hf, heq⟩ | ⟨e, hnone, hf, heq⟩
  · cases heq.symm.trans h
    refine ⟨hc, Grown.refl _, fun q hq => ?_⟩
    rw [hp, ok.inj hq]
  · cases heq.symm.trans h
    refine ⟨fun s q hq => ?_, fun s q hq => ?_, fun q hq => ?_⟩
    · rcases Writes.of_insert hq with ⟨rfl, rfl⟩ | ⟨-, hq⟩
      · exact ⟨fails, hf⟩
      · exact hc s q hq
    · have hs : s ≠ sample := by
        rintro rfl
        rw [hnone] at hq
        cases hq
      rw [AList.lookup_insert_ne hs, hq]
    · rw [AList.lookup_insert, ok.inj hq]
  · cases heq.symm.trans h
    exact ⟨hc, Grown.refl _, fun q hq => absurd hq (by simp)⟩

/-- A finder that succeeds is answered by its memo, and a memo that fails does so
as its finder. -/
lemma Honest.memo_eq {cache : Memo} (hc : Honest im scale cache) (fails : ℕ → Bool) (sample : ℤ) :
    (∀ p, im.boundary ⟨scale, fails⟩ sample = .ok p →
      (memoBoundary (im.boundary ⟨scale, fails⟩) sample cache).1 = .ok p) ∧
    (∀ e, (memoBoundary (im.boundary ⟨scale, fails⟩) sample cache).1 = .error e →
      im.boundary ⟨scale, fails⟩ sample = .error e) ∧
    ∀ p, (memoBoundary (im.boundary ⟨scale, fails⟩) sample cache).1 = .ok p →
      ∃ fails', im.boundary ⟨scale, fails'⟩ sample = .ok p := by
  rcases memoBoundary_cases (im.boundary ⟨scale, fails⟩) sample cache with
    ⟨p, hp, heq⟩ | ⟨p, hnone, hf, heq⟩ | ⟨e, hnone, hf, heq⟩
  · obtain ⟨fails', hplain⟩ := hc sample p hp
    rw [heq]
    refine ⟨fun q hq => ?_, fun e he => absurd he (by simp), fun q hq => ?_⟩
    · rw [boundary_unique sample hq hplain]
    · obtain rfl := ok.inj hq
      exact ⟨fails', hplain⟩
  · rw [heq, hf]
    exact ⟨fun q hq => hq, fun e he => he, fun q hq => ⟨fails, hf.trans hq⟩⟩
  · rw [heq, hf]
    exact ⟨fun q hq => hq, fun e he => he, fun q hq => absurd hq (by simp)⟩

end Memos

/-! ### One track -/

section Tracks

variable {upper : String → String} {im : Image} {scale : ℕ → ℤ → ℤ} {sheet : Sheet} {file : CueFile}
  {cache cache' : Memo}

/-- A segment runs from one remembered boundary to a later one. -/
def Piece (im : Image) (cache : Memo) (start stop : ℤ) (s : CueSegment) : Prop :=
  ∃ first endOff last tags, cache.lookup start = some (s.offset, first) ∧
    cache.lookup stop = some (endOff, last) ∧ s.offset < endOff ∧ first < last ∧
    s.length = endOff - s.offset ∧ im.header (last - first) tags = .ok s.header

lemma Piece.grown {start stop : ℤ} {s : CueSegment} (h : Piece im cache start stop s)
    (hg : Grown cache cache') : Piece im cache' start stop s := by
  obtain ⟨first, endOff, last, tags, hstart, hstop, hrest⟩ := h
  exact ⟨first, endOff, last, tags, hg _ _ hstart, hg _ _ hstop, hrest⟩

lemma cutTrack_spec {req : CutRequest} {r : Except Err CueSegment} (hc : Honest im scale cache)
    (h : cutTrack upper im scale sheet file req cache = (r, cache')) :
    Honest im scale cache' ∧ Grown cache cache' ∧ ∀ s, r = .ok s →
      ∃ track next, findTrack req.cueTrack file.tracks = some (track, next) ∧
        Piece im cache' (track.startSample im.info.rate) (stopSample im next) s := by
  unfold cutTrack at h
  cases hfind : findTrack req.cueTrack file.tracks with
  | none =>
    rw [hfind] at h
    cases h
    exact ⟨hc, Grown.refl _, fun s hs => absurd hs (by simp)⟩
  | some x =>
    obtain ⟨track, next⟩ := x
    rw [hfind] at h
    dsimp only at h
    rcases hstart : memoBoundary (im.boundary ⟨scale, req.startFails⟩)
      (track.startSample im.info.rate) cache with ⟨e | ⟨startOff, startAt⟩, cache1⟩
    · rw [hstart] at h
      cases h
      obtain ⟨hc1, hg1, -⟩ := memoBoundary_spec hc hstart
      exact ⟨hc1, hg1, fun s hs => absurd hs (by simp)⟩
    · rw [hstart] at h
      dsimp only at h
      obtain ⟨hc1, hg1, hl1⟩ := memoBoundary_spec hc hstart
      rcases hstop : memoBoundary (im.boundary ⟨scale, req.stopFails⟩) (stopSample im next) cache1 with
        ⟨e | ⟨endOff, endAt⟩, cache2⟩
      · rw [hstop] at h
        cases h
        obtain ⟨hc2, hg2, -⟩ := memoBoundary_spec hc1 hstop
        exact ⟨hc2, hg1.trans hg2, fun s hs => absurd hs (by simp)⟩
      · rw [hstop] at h
        dsimp only at h
        obtain ⟨hc2, hg2, hl2⟩ := memoBoundary_spec hc1 hstop
        split_ifs at h with hempty
        · cases h
          exact ⟨hc2, hg1.trans hg2, fun s hs => absurd hs (by simp)⟩
        rw [not_or, not_le, not_le] at hempty
        cases hheader : im.header (endAt - startAt) (trackTags upper sheet track req.tags) with
        | error e =>
          rw [hheader] at h
          cases h
          exact ⟨hc2, hg1.trans hg2, fun s hs => absurd hs (by simp)⟩
        | ok header =>
          rw [hheader] at h
          cases h
          refine ⟨hc2, hg1.trans hg2, fun s hs => ⟨track, next, rfl, ?_⟩⟩
          obtain rfl := ok.inj hs
          exact ⟨startAt, endOff, endAt, _, hg2 _ _ (hl1 _ rfl), hl2 _ rfl, hempty.1, hempty.2,
            rfl, hheader⟩

/-- After a run of calls the memo is honest, and every segment that was cut is a
piece between boundaries it remembers. -/
lemma pieces_of_run {ls : List (CutRequest × Except Err CueSegment)}
    (hrun : Run (Cuts upper im scale sheet file) ∅ ls cache) :
    Honest im scale cache ∧ ∀ req s, (req, .ok s) ∈ ls →
      ∃ track next, findTrack req.cueTrack file.tracks = some (track, next) ∧
        Piece im cache (track.startSample im.info.rate) (stopSample im next) s := by
  have hempty : Honest im scale ∅ := fun sample p hp => absurd hp (by simp)
  apply hrun.history (I := fun past c => Honest im scale c ∧ ∀ req s, (req, ok s) ∈ past →
    ∃ track next, findTrack req.cueTrack file.tracks = some (track, next) ∧
      Piece im c (track.startSample im.info.rate) (stopSample im next) s) []
  swap
  · exact ⟨hempty, fun _ _ h => absurd h (by simp)⟩
  rintro past c l c' ⟨hc, hpast⟩ hcut
  obtain ⟨hc', hg, hnew⟩ := cutTrack_spec hc hcut
  refine ⟨hc', fun req s hmem => ?_⟩
  rcases mem_append.mp hmem with hold | hlast
  · obtain ⟨track, next, hfind, hpiece⟩ := hpast req s hold
    exact ⟨track, next, hfind, hpiece.grown hg⟩
  · obtain rfl : (req, .ok s) = l := by simpa using hlast
    exact hnew s rfl

lemma findTrack_of_nodup {pre post : List Track} {t : Track}
    (h : ((pre ++ t :: post).map Track.number).Nodup) :
    findTrack t.number (pre ++ t :: post) = some (t, post.head?) := by
  induction pre with
  | nil => simp [findTrack]
  | cons u pre ih =>
    rw [cons_append, map_cons, nodup_cons] at h
    have hne : u.number ≠ t.number := by
      intro heq
      exact h.1 (by simp [heq])
    rw [cons_append, findTrack, if_neg hne]
    exact ih h.2

/-- Each track has a piece up to the start of the next, the last one up to the end. -/
def Tiles (im : Image) (cache : Memo) : List Track → List CueSegment → Prop
  | [], [] => True
  | t :: ts, s :: ss =>
    Piece im cache (t.startSample im.info.rate) (stopSample im ts.head?) s ∧ Tiles im cache ts ss
  | _, _ => False

lemma tiles_of_pieces {ls : List (CutRequest × Except Err CueSegment)} {ts : List Track}
    {segs : List CueSegment}
    (hpieces : ∀ req s, (req, ok s) ∈ ls →
      ∃ track next, findTrack req.cueTrack file.tracks = some (track, next) ∧
        Piece im cache (track.startSample im.info.rate) (stopSample im next) s)
    (hdistinct : (file.tracks.map Track.number).Nodup) (pre : List Track)
    (hsplit : file.tracks = pre ++ ts)
    (hall : List.Forall₂ (fun t s => ∃ req : CutRequest, req.cueTrack = t.number ∧
      (req, ok s) ∈ ls) ts segs) : Tiles im cache ts segs := by
  induction hall generalizing pre with
  | nil => exact trivial
  | @cons t s ts segs hcut _ ih =>
    obtain ⟨req, hnumber, hmem⟩ := hcut
    obtain ⟨track, next, hfind, hpiece⟩ := hpieces req s hmem
    rw [hsplit] at hdistinct
    rw [hnumber, hsplit, findTrack_of_nodup hdistinct] at hfind
    cases hfind
    exact ⟨hpiece, ih (pre ++ [t]) (by rw [hsplit, append_assoc]; rfl)⟩

end Tracks

/-! ### The partition -/

section Partition

variable {r : Source} {size : ℕ} {im : Image} {scale : ℕ → ℤ → ℤ} {cache : Memo}

lemma boundary_at_end (h : im.info.totalSamples ≠ 0) (env : Probing) :
    im.boundary env im.info.totalSamples = .ok ((im.size : ℤ), (im.info.totalSamples : ℤ)) := by
  unfold Image.boundary
  rw [if_neg (by omega), if_pos le_rfl]
  rfl

/-- Two neighbouring stretches of a list. -/
lemma take_drop_append {α : Type} (l : List α) {i j n : ℕ} (hij : i ≤ j) (hjn : j ≤ n) :
    (l.drop i).take (j - i) ++ (l.take n).drop j = (l.take n).drop i := by
  have hmid : (l.drop i).take (j - i) = ((l.take n).drop i).take (j - i) := by
    rw [drop_take, take_take, min_eq_left (by omega)]
  have hrest : (l.take n).drop j = ((l.take n).drop i).drop (j - i) := by
    rw [drop_drop, Nat.add_sub_cancel' hij]
  rw [hmid, hrest, take_append_drop]

lemma Piece.samples {start stop : ℤ} {s : CueSegment} (hopen : Opened r size im)
    (h : Piece im cache start stop s) :
    ∃ first endOff last, cache.lookup start = some (s.offset, first) ∧
      cache.lookup stop = some (endOff, last) ∧ s.offset < endOff ∧ first < last ∧
      s.length = endOff - s.offset ∧ (samplesOf s : ℤ) = (last - first) % 2 ^ 36 := by
  obtain ⟨first, endOff, last, tags, hstart, hstop, hoff, hat, hlen, hheader⟩ := h
  exact ⟨first, endOff, last, hstart, hstop, hoff, hat, hlen, totalSamples_header hopen.raw hheader⟩

/-- What the pieces of a list of tracks add up to. -/
structure Sums (im : Image) (cache : Memo) (t : Track) (s : CueSegment) (ss : List CueSegment)
    (first : ℤ) : Prop where
  start : cache.lookup (t.startSample im.info.rate) = some (s.offset, first)
  offset : 0 ≤ s.offset ∧ s.offset ≤ im.size
  sample : 0 ≤ first ∧ first ≤ im.info.totalSamples
  bytes : (s :: ss).flatMap (bytesIn im) = (im.bytes.take im.size).drop s.offset.toNat
  samples : ((s :: ss).map fun s => (samplesOf s : ℤ)).sum = im.info.totalSamples - first

lemma sums_of_tiles (hopen : Opened r size im) (hc : Honest im scale cache) {t : Track}
    {ts : List Track} {s : CueSegment} {ss : List CueSegment}
    (h : Tiles im cache (t :: ts) (s :: ss)) : ∃ first, Sums im cache t s ss first := by
  induction ts generalizing t s ss with
  | nil =>
    obtain ⟨hpiece, hrest⟩ := h
    cases ss with
    | cons s' ss => exact absurd hrest id
    | nil =>
      obtain ⟨first, endOff, last, hstart, hstop, hoff, hat, hlen, hcount⟩ := hpiece.samples hopen
      obtain ⟨fails, hfound⟩ := hc _ _ hstart
      obtain ⟨hoff0, hfirst0⟩ := boundary_nonneg hfound
      obtain ⟨fails', hend⟩ := hc _ _ hstop
      obtain ⟨rfl, rfl⟩ := Prod.mk.inj
        (ok.inj ((boundary_at_end hopen.samples _).symm.trans hend))
      have htotal := hopen.totalSamples_lt
      refine ⟨first, hstart, ⟨hoff0, hoff.le⟩, ⟨hfirst0, hat.le⟩, ?_, ?_⟩
      · rw [flatMap_cons, flatMap_nil, append_nil, bytesIn, hlen, drop_take]
        congr 1
        omega
      · rw [map_singleton, sum_singleton, hcount]
        apply Int.emod_eq_of_lt
        · omega
        · omega
  | cons t' ts ih =>
    obtain ⟨hpiece, hrest⟩ := h
    cases ss with
    | nil => exact absurd hrest id
    | cons s' ss =>
      obtain ⟨first', hsums⟩ := ih hrest
      obtain ⟨first, endOff, last, hstart, hstop, hoff, hat, hlen, hcount⟩ := hpiece.samples hopen
      obtain ⟨fails, hfound⟩ := hc _ _ hstart
      obtain ⟨hoff0, hfirst0⟩ := boundary_nonneg hfound
      -- the piece ends where the next track's first piece starts
      cases hstop.symm.trans hsums.start
      obtain ⟨hoff', hend⟩ := hsums.offset
      obtain ⟨hfirst', hlast⟩ := hsums.sample
      have htotal := hopen.totalSamples_lt
      refine ⟨first, hstart, ⟨hoff0, by omega⟩, ⟨hfirst0, by omega⟩, ?_, ?_⟩
      · rw [flatMap_cons, hsums.bytes, bytesIn, hlen,
          show (s'.offset - s.offset).toNat = s'.offset.toNat - s.offset.toNat by omega]
        exact take_drop_append im.bytes (by omega) (by omega)
      · rw [map_cons, sum_cons, hsums.samples, hcount, Int.emod_eq_of_lt (by omega)
          (by omega)]
        omega

/-- A segment ends where the next one starts. -/
lemma Tiles.contiguous {ts : List Track} {segs : List CueSegment} (h : Tiles im cache ts segs)
    {k : ℕ} {s s' : CueSegment} (hs : segs[k]? = some s) (hs' : segs[k + 1]? = some s') :
    s.offset + s.length = s'.offset := by
  induction ts generalizing segs k with
  | nil =>
    cases segs with
    | nil => simp at hs
    | cons _ _ => exact absurd h id
  | cons t ts ih =>
    cases segs with
    | nil => simp at hs
    | cons s0 segs =>
      obtain ⟨hpiece, hrest⟩ := h
      cases k with
      | succ k => exact ih hrest (by simpa using hs) (by simpa using hs')
      | zero =>
        obtain rfl : s0 = s := by simpa using hs
        cases ts with
        | nil =>
          cases segs with
          | nil => simp at hs'
          | cons _ _ => exact absurd hrest id
        | cons t' ts =>
          cases segs with
          | nil => simp at hs'
          | cons s1 segs =>
            obtain rfl : s1 = s' := by simpa using hs'
            obtain ⟨_, endOff, _, _, -, hstop, -, -, hlen, -⟩ := hpiece
            obtain ⟨_, _, _, _, hstart, -⟩ := hrest.1
            cases hstop.symm.trans hstart
            omega

end Partition

/-- If all tracks of a cue file with distinct numbers are cut, in any order and
among calls that fail, each segment ends where the next one starts, together they
are the image from the first boundary to its end, their sample counts add up to
what is left of the total there, and the memo answers as the plain search. -/
theorem cue_tracks_partition_image {r : Source} {size : ℕ} {im : Image}
    (hopen : openImage r size = .ok im) (upper : String → String) (scale : ℕ → ℤ → ℤ)
    (sheet : Sheet) (file : CueFile) (hdistinct : (file.tracks.map Track.number).Nodup)
    {ls : List (CutRequest × Except Err CueSegment)} {cache : Memo}
    (hrun : Run (Cuts upper im scale sheet file) ∅ ls cache) :
    (∀ segs, List.Forall₂ (fun t s => ∃ req : CutRequest, req.cueTrack = t.number ∧
        (req, ok s) ∈ ls) file.tracks segs →
      (∀ (k : ℕ) s s', segs[k]? = some s → segs[k + 1]? = some s' →
        s.offset + s.length = s'.offset) ∧
      ∀ t s, file.tracks.head? = some t → segs.head? = some s →
        ∃ fails first, im.boundary ⟨scale, fails⟩ (t.startSample im.info.rate)
            = .ok (s.offset, first) ∧
          segs.flatMap (bytesIn im) = (im.bytes.take im.size).drop s.offset.toNat ∧
          (segs.map fun s => (samplesOf s : ℤ)).sum = im.info.totalSamples - first) ∧
    ∀ fails sample,
      (∀ p, im.boundary ⟨scale, fails⟩ sample = .ok p →
        (memoBoundary (im.boundary ⟨scale, fails⟩) sample cache).1 = .ok p) ∧
      (∀ e, (memoBoundary (im.boundary ⟨scale, fails⟩) sample cache).1 = .error e →
        im.boundary ⟨scale, fails⟩ sample = .error e) ∧
      ∀ p, (memoBoundary (im.boundary ⟨scale, fails⟩) sample cache).1 = .ok p →
        ∃ fails', im.boundary ⟨scale, fails'⟩ sample = .ok p := by
  obtain ⟨hc, hpieces⟩ := pieces_of_run hrun
  refine ⟨fun segs hall => ?_, hc.memo_eq⟩
  have htiles : Tiles im cache file.tracks segs := tiles_of_pieces hpieces hdistinct [] rfl hall
  refine ⟨fun k s s' hs hs' => htiles.contiguous hs hs', fun t s ht hs => ?_⟩
  obtain ⟨ts, hts⟩ : ∃ ts, file.tracks = t :: ts := head?_eq_some_iff.mp ht
  obtain ⟨ss, rfl⟩ : ∃ ss, segs = s :: ss := head?_eq_some_iff.mp hs
  rw [hts] at htiles
  obtain ⟨first, hsums⟩ := sums_of_tiles (opened_of_openImage hopen) hc htiles
  obtain ⟨fails, hfound⟩ := hc _ _ hsums.start
  exact ⟨fails, first, hfound, hsums.bytes, hsums.samples⟩

/-! ### An image of two tracks -/

def slowFrame (number crc : UInt8) (samples check : List UInt8) : List UInt8 :=
  [0xFF, 0xF8, 0x60, 0x02, number, 0x0F, crc, 0x02] ++ samples ++ check

/-- Forty-eight samples at 1500 Hz, twenty of them in a CD frame. -/
def slowBytes : List UInt8 :=
  fLaC ++ [0x80, 0, 0, 34] ++ [0, 16, 0, 16, 0, 0, 0, 0, 0, 0, 0, 0x5D, 0xC0, 0x70, 0, 0, 0, 48]
    ++ List.replicate 16 0 ++ slowFrame 0 0x11 (samplesFrom 1) [0xFD, 0x1A]
    ++ slowFrame 1 0x04 (samplesFrom 0x11) [0x1B, 0xD9]
    ++ slowFrame 2 0x3B (samplesFrom 0x21) [0x31, 0x1A]

def slowImage : Image := ⟨.decode ((slowBytes.drop 8).take 34), 42, 120, slowBytes⟩

def twoTracks : CueFile := ⟨"image.flac", [⟨1, "one", "", 0⟩, ⟨2, "two", "", 1⟩]⟩

def untagged (cueTrack : ℤ) : CutRequest := ⟨cueTrack, ∅, fun _ => false, fun _ => false⟩

/-- The second track is cut before the first. -/
def cutSecond : Except Err CueSegment × Memo :=
  cutTrack id slowImage (fun _ _ => 0) ⟨"album", "artist"⟩ twoTracks (untagged 2) ∅

def cutFirst : Except Err CueSegment × Memo :=
  cutTrack id slowImage (fun _ _ => 0) ⟨"album", "artist"⟩ twoTracks (untagged 1) cutSecond.2

theorem two_tracks_partition_slow_image :
    ∃ s₁ s₂, cutSecond.1 = .ok s₂ ∧ cutFirst.1 = .ok s₁ ∧ s₁.offset + s₁.length = s₂.offset ∧
      bytesIn slowImage s₁ ++ bytesIn slowImage s₂ = slowImage.bytes.drop 42 ∧
      samplesOf s₁ + samplesOf s₂ = 48 := by
  have hopen : openImage ⟨slowBytes, fun _ => false⟩ 120 = .ok slowImage := by decide +kernel
  have hsome₂ : cutSecond.1.toOption.isSome = true := by decide +kernel
  have hsome₁ : cutFirst.1.toOption.map CueSegment.offset = some 42 := by decide +kernel
  cases h₂ : cutSecond.1 with
  | error e =>
    rw [h₂] at hsome₂
    cases hsome₂
  | ok s₂ =>
    cases h₁ : cutFirst.1 with
    | error e =>
      rw [h₁] at hsome₁
      cases hsome₁
    | ok s₁ =>
      have hoff : s₁.offset = 42 := by
        rw [h₁] at hsome₁
        exact Option.some.inj hsome₁
      have hpair : ∀ {x : Except Err CueSegment × Memo} {s}, x.1 = .ok s → x = (.ok s, x.2) :=
        fun h => Prod.ext h rfl
      have hcut₂ := hpair h₂
      have hcut₁ := hpair h₁
      have hrun : Run (Cuts id slowImage (fun _ _ => 0) ⟨"album", "artist"⟩ twoTracks) ∅
          [(untagged 2, .ok s₂), (untagged 1, .ok s₁)] cutFirst.2 :=
        .cons (t := cutSecond.2) hcut₂ (.cons hcut₁ (.nil _))
      obtain ⟨hsegs, -⟩ := cue_tracks_partition_image hopen id (fun _ _ => 0) ⟨"album", "artist"⟩
        twoTracks (by decide) hrun
      obtain ⟨hnext, hsums⟩ := hsegs [s₁, s₂]
        (.cons ⟨untagged 1, rfl, by simp⟩ (.cons ⟨untagged 2, rfl, by simp⟩ .nil))
      obtain ⟨fails, first, hfound, hbytes, hcount⟩ := hsums _ s₁ rfl rfl
      have hzero : Track.startSample ⟨1, "one", "", 0⟩ slowImage.info.rate = 0 := by
        simp [Track.startSample]
      rw [hzero] at hfound
      have hstart : slowImage.boundary ⟨fun _ _ => 0, fails⟩ 0 = .ok (42, 0) := if_pos le_rfl
      obtain ⟨-, rfl⟩ := Prod.mk.inj (ok.inj (hstart.symm.trans hfound))
      refine ⟨s₁, s₂, rfl, rfl, hnext 0 s₁ s₂ rfl rfl, ?_, ?_⟩
      · have hall : slowImage.bytes.take slowImage.size = slowImage.bytes :=
          take_of_length_le (by decide +kernel)
        simpa [hoff, hall] using hbytes
      · have htotal : slowImage.info.totalSamples = 48 := by decide +kernel
        rw [htotal] at hcount
        simp only [map_cons, map_nil, sum_cons, sum_nil] at hcount
        omega

end Tiramisu.Audio
