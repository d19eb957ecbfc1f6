import Tiramisu.Go.Maps
import Tiramisu.Go.Numbers
import Tiramisu.Go.Text

/-!
# Which release track a cue track gets

`matchCueTracks` gives release tracks away in two greedy passes, by title and
then by position.  A cue track takes part in the second one when
`normalizeTitle` leaves nothing of its title, and that leaves ASCII letters and
digits only: a title in another script is matched by position.  What the importer
takes from the Unicode tables is a parameter, `Names`.
-/

namespace Tiramisu.MusicImport

open Go Function List

structure Names where
  /-- `unicode.ToLower`, which `strings.ToLower` maps over a string. -/
  toLower : Char → Char
  /-- `unicode.IsSpace`. -/
  isSpace : Char → Bool

/-- One track of an image, numbered as its cue sheet numbers it. -/
structure CueTrack where
  sourcePath : String
  track : ℤ
  title : String
  deriving DecidableEq, Repr

structure ReleaseTrack where
  id : String
  recording : String
  medium : ℤ
  position : String
  title : String
  deriving DecidableEq, Repr

/-! ### Tracklists -/

def isAlphanumeric (c : Char) : Bool := ('a' ≤ c && c ≤ 'z') || ('0' ≤ c && c ≤ '9')

def normalizeFrom : Bool → List Char → List Char
  | lastSpace, [] => if lastSpace then [] else [' ']
  | lastSpace, c :: cs =>
    if isAlphanumeric c then c :: normalizeFrom false cs
    else if lastSpace then normalizeFrom true cs
    else ' ' :: normalizeFrom true cs

def normalizeTitle (names : Names) (s : String) : String :=
  String.ofList (' ' :: normalizeFrom true (s.toList.map names.toLower))

def numericPosition (names : Names) (position : String) : Option ℤ :=
  atoi (String.ofList
    ((position.toList.dropWhile names.isSpace).reverse.dropWhile names.isSpace).reverse)

def positionIs (names : Names) (t : ReleaseTrack) (n : ℤ) : Bool :=
  numericPosition names t.position = some n

structure Matching where
  out : GoMap ℤ ReleaseTrack
  claimed : List ℕ

def onDisc (disc : ℕ) (t : ReleaseTrack) : Bool := disc = 0 || t.medium = (disc : ℤ)

def wantedTitle (names : Names) (title : String) : String :=
  trimSpaceASCII (normalizeTitle names title)

/-- The unclaimed track of the cue's title: the one at its position, then the first. -/
def bestTitled (names : Names) (tracks : List ReleaseTrack) (disc : ℕ) (claimed : List ℕ)
    (cue : CueTrack) : Option (ReleaseTrack × ℕ) :=
  tracks.zipIdx.foldl (fun best t =>
    if t.2 ∈ claimed ∨ onDisc disc t.1 = false
        ∨ wantedTitle names t.1.title ≠ wantedTitle names cue.title then best
    else match best with
      | none => some t
      | some b =>
        if positionIs names t.1 cue.track && !positionIs names b.1 cue.track then some t
        else best) none

def matchTitle (names : Names) (tracks : List ReleaseTrack) (disc : ℕ) (m : Matching)
    (cue : CueTrack) : Matching :=
  if wantedTitle names cue.title = "" then m
  else match bestTitled names tracks disc m.claimed cue with
    | none => m
    | some (t, i) => ⟨m.out.insert cue.track t, i :: m.claimed⟩

def matchPosition (names : Names) (tracks : List ReleaseTrack) (disc : ℕ) (m : Matching)
    (cue : CueTrack) : Matching :=
  if (m.out.lookup cue.track).isSome ∨ wantedTitle names cue.title ≠ "" then m
  else match tracks.zipIdx.find? fun t => decide (t.2 ∉ m.claimed) && onDisc disc t.1
      && positionIs names t.1 cue.track && (decide (0 < disc) || decide (t.1.medium ≤ 1)) with
    | none => m
    | some (t, i) => ⟨m.out.insert cue.track t, i :: m.claimed⟩

/-- Titles first: a number alone would hand one track another's id. -/
def matchCueTracks (names : Names) (cues : List CueTrack) (tracks : List ReleaseTrack)
    (disc : ℕ) : GoMap ℤ ReleaseTrack :=
  (cues.foldl (matchPosition names tracks disc)
    (cues.foldl (matchTitle names tracks disc) ⟨∅, []⟩)).out

/-! ### Titles up to case and punctuation -/

def foldRuns (isWord : Char → Bool) : Bool → List Char → List Char
  | lastSpace, [] => if lastSpace then [] else [' ']
  | lastSpace, c :: cs =>
    if isWord c then c :: foldRuns isWord false cs
    else if lastSpace then foldRuns isWord true cs
    else ' ' :: foldRuns isWord true cs

/-- A title without its case and punctuation; `isWord` knows the letters and
digits of every script. -/
def foldTitle (names : Names) (isWord : Char → Bool) (s : String) : String :=
  trimSpaceASCII (String.ofList (' ' :: foldRuns isWord true (s.toList.map names.toLower)))

def Blank (names : Names) (s : String) : Prop := s.toList.all names.isSpace = true

instance (names : Names) (s : String) : Decidable (Blank names s) :=
  inferInstanceAs (Decidable (_ = true))

/-- A release track that a cue track may get: one of its title, or at its number if
`normalizeTitle` leaves nothing of the title. -/
def Suits (names : Names) (disc : ℕ) (cue : CueTrack) (t : ReleaseTrack) : Prop :=
  (wantedTitle names cue.title = "" →
      positionIs names t cue.track = true ∧ (0 < disc ∨ t.medium ≤ 1)) ∧
    (wantedTitle names cue.title ≠ "" → wantedTitle names t.title = wantedTitle names cue.title)

/-- A cue track with a title has got a track of that title, and in the first pass. -/
def TitlesMatched (names : Names) (isWord : Char → Bool) (cues : List CueTrack)
    (tracks : List ReleaseTrack) (disc : ℕ) : Prop :=
  ∀ cue ∈ cues, ∀ t, (matchCueTracks names cues tracks disc).lookup cue.track = some t →
    ¬ Blank names cue.title → foldTitle names isWord t.title = foldTitle names isWord cue.title ∧
      (cues.foldl (matchTitle names tracks disc) ⟨∅, []⟩).out.lookup cue.track = some t

variable {names : Names}

/-! ### The two passes -/

section Passes

variable {cues : List CueTrack} {tracks : List ReleaseTrack} {disc : ℕ} {m : Matching}
  {cue : CueTrack} {t : ReleaseTrack} {i : ℕ}

/-- The number `n` has been given the track at `idx n`, and no other number has. -/
structure Fair (names : Names) (cues : List CueTrack) (tracks : List ReleaseTrack) (disc : ℕ)
    (idx : ℤ → ℕ) (m : Matching) : Prop where
  given : ∀ {n t}, m.out.lookup n = some t →
    tracks[idx n]? = some t ∧ idx n ∈ m.claimed ∧ onDisc disc t = true
  apart : ∀ {n n' t t'}, m.out.lookup n = some t → m.out.lookup n' = some t' →
    idx n = idx n' → n = n'
  suits : ∀ {cue t}, cue ∈ cues → m.out.lookup cue.track = some t → Suits names disc cue t

/-- A track that is free, of the disc and suits the cue track. -/
structure Fits (names : Names) (tracks : List ReleaseTrack) (disc : ℕ) (m : Matching)
    (cue : CueTrack) (b : ReleaseTrack × ℕ) : Prop where
  free : b.2 ∉ m.claimed
  here : tracks[b.2]? = some b.1
  suits : Suits names disc cue b.1
  disc : onDisc disc b.1 = true

lemma Fair.give {idx : ℤ → ℕ} (h : Fair names cues tracks disc idx m)
    (hnum : (cues.map CueTrack.track).Nodup) (hcue : cue ∈ cues)
    (hfits : Fits names tracks disc m cue (t, i)) :
    Fair names cues tracks disc (update idx cue.track i)
      ⟨m.out.insert cue.track t, i :: m.claimed⟩ := by
  -- what was given before is claimed, so it is not the track at `i`
  have hold : ∀ {n t'}, m.out.lookup n = some t' → idx n ≠ i := by
    rintro n t' hn rfl
    exact hfits.free (h.given hn).2.1
  refine ⟨fun {n t'} hn => ?_, fun {n n' s s'} hn hn' heq => ?_, fun {cue' t'} hcue' hn => ?_⟩
  · rcases Writes.of_insert hn with ⟨rfl, rfl⟩ | ⟨hne, hn⟩
    · rw [update_self]
      exact ⟨hfits.here, mem_cons_self, hfits.disc⟩
    · rw [update_of_ne hne]
      obtain ⟨hat, hclaimed, hdisc⟩ := h.given hn
      exact ⟨hat, mem_cons_of_mem i hclaimed, hdisc⟩
  · rcases Writes.of_insert hn with ⟨rfl, rfl⟩ | ⟨hne, hn⟩ <;>
      rcases Writes.of_insert hn' with ⟨hk, hs⟩ | ⟨hne', hn'⟩
    · exact hk.symm
    · rw [update_self, update_of_ne hne'] at heq
      exact absurd heq.symm (hold hn')
    · rw [hk, update_self, update_of_ne hne] at heq
      exact absurd heq (hold hn)
    · rw [update_of_ne hne, update_of_ne hne'] at heq
      exact h.apart hn hn' heq
  · rcases Writes.of_insert hn with ⟨heq, rfl⟩ | ⟨-, hn⟩
    · obtain rfl := inj_on_of_nodup_map hnum hcue' hcue heq
      exact hfits.suits
    · exact h.suits hcue' hn

lemma fits_of_bestTitled {b : ReleaseTrack × ℕ} (hne : wantedTitle names cue.title ≠ "")
    (h : bestTitled names tracks disc m.claimed cue = some b) : Fits names tracks disc m cue b := by
  have hbest : ∀ b ∈ bestTitled names tracks disc m.claimed cue, Fits names tracks disc m cue b := by
    refine foldlRecOn tracks.zipIdx _
      (motive := fun best => ∀ b ∈ best, Fits names tracks disc m cue b) ?_ ?_
    · simp
    intro best hbest b hb
    split_ifs with hskip
    · exact hbest
    simp only [not_or, Bool.not_eq_false, not_not] at hskip
    have hb : Fits names tracks disc m cue b :=
      ⟨hskip.1, mem_zipIdx_iff_getElem?.mp hb, ⟨fun h => absurd h hne, fun _ => hskip.2.2⟩,
        hskip.2.1⟩
    cases best with
    | none => simpa using hb
    | some b' =>
      dsimp only
      split_ifs
      · simpa using hb
      · exact hbest
  exact hbest b h

lemma fair_matchTitle (h : ∃ idx, Fair names cues tracks disc idx m)
    (hnum : (cues.map CueTrack.track).Nodup) (hcue : cue ∈ cues) :
    ∃ idx, Fair names cues tracks disc idx (matchTitle names tracks disc m cue) := by
  unfold matchTitle
  split_ifs with hempty
  · exact h
  split
  · exact h
  · rename_i t i hbest
    obtain ⟨idx, h⟩ := h
    exact ⟨_, h.give hnum hcue (fits_of_bestTitled hempty hbest)⟩

/-- The second pass gives tracks to cue tracks without a title. -/
lemma matchPosition_cases (names : Names) (tracks : List ReleaseTrack) (disc : ℕ) (m : Matching)
    (cue : CueTrack) : matchPosition names tracks disc m cue = m ∨
      wantedTitle names cue.title = "" ∧ ∃ t i, Fits names tracks disc m cue (t, i) ∧
        matchPosition names tracks disc m cue = ⟨m.out.insert cue.track t, i :: m.claimed⟩ := by
  unfold matchPosition
  split_ifs with hskip
  · exact Or.inl rfl
  simp only [not_or, not_not] at hskip
  split
  · exact Or.inl rfl
  rename_i t i hfind
  refine Or.inr ⟨hskip.2, t, i, ?_, rfl⟩
  have hp := find?_some hfind
  simp only [Bool.and_eq_true, decide_eq_true_eq] at hp
  have hmedium : 0 < disc ∨ t.medium ≤ 1 := by simpa using hp.2
  exact ⟨hp.1.1.1, mem_zipIdx_iff_getElem?.mp (mem_of_find?_eq_some hfind),
    ⟨fun _ => ⟨hp.1.2, hmedium⟩, fun hne => absurd hskip.2 hne⟩, hp.1.1.2⟩

/-- Both passes keep to the invariant, and the second leaves cue tracks with a title alone. -/
lemma exists_fair (names : Names) (tracks : List ReleaseTrack) (disc : ℕ)
    (hnum : (cues.map CueTrack.track).Nodup) :
    (∃ idx, Fair names cues tracks disc idx (cues.foldl (matchPosition names tracks disc)
      (cues.foldl (matchTitle names tracks disc) ⟨∅, []⟩))) ∧
    ∀ cue ∈ cues, wantedTitle names cue.title ≠ "" →
      (matchCueTracks names cues tracks disc).lookup cue.track
        = (cues.foldl (matchTitle names tracks disc) ⟨∅, []⟩).out.lookup cue.track := by
  have hfirst : ∃ idx, Fair names cues tracks disc idx
      (cues.foldl (matchTitle names tracks disc) ⟨∅, []⟩) := by
    refine foldlRecOn cues _ (motive := fun m => ∃ idx, Fair names cues tracks disc idx m)
      ⟨fun _ => 0, ?_, ?_, ?_⟩ fun m hm cue hcue => fair_matchTitle hm hnum hcue <;> simp
  refine foldlRecOn cues _ (motive := fun m => (∃ idx, Fair names cues tracks disc idx m) ∧
    ∀ cue ∈ cues, wantedTitle names cue.title ≠ "" → m.out.lookup cue.track
      = (cues.foldl (matchTitle names tracks disc) ⟨∅, []⟩).out.lookup cue.track)
    ⟨hfirst, fun _ _ _ => rfl⟩ fun m hm cue hcue => ?_
  rcases matchPosition_cases names tracks disc m cue with heq | ⟨hempty, t, i, hfits, heq⟩
  · rwa [heq]
  obtain ⟨⟨idx, hfair⟩, hkept⟩ := hm
  rw [heq]
  refine ⟨⟨_, hfair.give hnum hcue hfits⟩, fun cue' hcue' hne => ?_⟩
  rw [← hkept cue' hcue' hne]
  apply AList.lookup_insert_ne
  intro hnumber
  obtain rfl := inj_on_of_nodup_map hnum hcue' hcue hnumber
  exact hne hempty

/-- Alone with a track of the disc that suits it, a cue track gets that track. -/
lemma lookup_singleton (hdisc : onDisc disc t = true) (hsuits : Suits names disc cue t) :
    (matchCueTracks names [cue] [t] disc).lookup cue.track = some t ∧
      (wantedTitle names cue.title = "" →
        ([cue].foldl (matchTitle names [t] disc) ⟨∅, []⟩).out.lookup cue.track = none) := by
  have hgot : (AList.singleton cue.track t : GoMap ℤ ReleaseTrack).lookup cue.track = some t := by
    rw [← AList.insert_empty, AList.lookup_insert]
  by_cases hempty : wantedTitle names cue.title = ""
  · obtain ⟨hposition, hmedium⟩ := hsuits.1 hempty
    simp [hgot, matchCueTracks, matchTitle, matchPosition, hempty, hdisc, hposition, hmedium]
  · have htitle := hsuits.2 hempty
    simp [hgot, matchCueTracks, matchTitle, matchPosition, bestTitled, hempty, hdisc, htitle]

end Passes

/-- No release track is given to two cue tracks and only tracks of the disc are given.  In the
given lists and all parts of them a cue track with a title gets a track of that title only,
exactly if no track of the disc has another title that `normalizeTitle` takes for it, or is at the
number of a cue track whose title it leaves nothing of. -/
theorem cue_tracks_are_matched_by_title (isWord : Char → Bool) {cues : List CueTrack}
    (tracks : List ReleaseTrack) (disc : ℕ) (hnum : (cues.map CueTrack.track).Nodup) :
    (∃ given : CueTrack → ℕ,
      ∀ cue ∈ cues, ∀ t, (matchCueTracks names cues tracks disc).lookup cue.track = some t →
        tracks[given cue]? = some t ∧ (disc ≠ 0 → t.medium = disc) ∧
        ∀ cue' ∈ cues, ((matchCueTracks names cues tracks disc).lookup cue'.track).isSome →
          given cue = given cue' → cue = cue') ∧
    ((∀ cues' tracks', cues' <+ cues → tracks' <+ tracks →
        TitlesMatched names isWord cues' tracks' disc) ↔
      ∀ cue ∈ cues, ∀ t ∈ tracks, onDisc disc t = true → ¬ Blank names cue.title →
        (wantedTitle names cue.title ≠ "" →
          wantedTitle names t.title = wantedTitle names cue.title →
            foldTitle names isWord t.title = foldTitle names isWord cue.title) ∧
        (wantedTitle names cue.title = "" → positionIs names t cue.track = true →
          disc = 0 ∧ 1 < t.medium)) := by
  refine ⟨?_, fun h cue hcue t ht hdisc hblank => ?_, fun h cues' tracks' hcues htracks cue hcue t
    ht hblank => ?_⟩
  · obtain ⟨⟨idx, hfair⟩, -⟩ := exists_fair names tracks disc hnum
    refine ⟨fun cue => idx cue.track, fun cue hcue t ht => ?_⟩
    obtain ⟨hat, -, hdisc⟩ := hfair.given ht
    refine ⟨hat, fun hne => by simpa [onDisc, hne] using hdisc, fun cue' hcue' hsome heq => ?_⟩
    obtain ⟨t', ht'⟩ := Option.isSome_iff_exists.mp hsome
    exact inj_on_of_nodup_map hnum hcue hcue' (hfair.apart ht ht' heq)
  · have hmatched := h [cue] [t] (singleton_sublist.mpr hcue) (singleton_sublist.mpr ht) cue
      mem_cons_self t
    refine ⟨fun hne htitle => ?_, fun hempty hposition => ?_⟩
    · have hgot := lookup_singleton hdisc ⟨fun h => absurd h hne, fun _ => htitle⟩
      exact (hmatched hgot.1 hblank).1
    · by_contra hmedium
      obtain ⟨hgot, hfirst⟩ := lookup_singleton hdisc
        ⟨fun _ => ⟨hposition, by omega⟩, fun hne => absurd hempty hne⟩
      have hpass := (hmatched hgot hblank).2
      rw [hfirst hempty] at hpass
      cases hpass
  · obtain ⟨⟨idx, hfair⟩, hkept⟩ := exists_fair names tracks' disc
      ((hcues.map CueTrack.track).nodup hnum)
    obtain ⟨hat, -, hdisc⟩ := hfair.given ht
    obtain ⟨htitle, hposition⟩ := h cue (hcues.subset hcue) t
      (htracks.subset (mem_of_getElem? hat)) hdisc hblank
    have hsuits := hfair.suits hcue ht
    by_cases hempty : wantedTitle names cue.title = ""
    · obtain ⟨hat, hmedium⟩ := hsuits.1 hempty
      have := hposition hempty hat
      omega
    · exact ⟨htitle hempty (hsuits.2 hempty), (hkept cue hcue hempty).symm.trans ht⟩

/-- The tables for ASCII text. -/
def asciiNames : Names := ⟨Char.toLower, isSpaceASCII⟩

/-- The image and the release have the two tracks in different orders. -/
def swappedTracks : List ReleaseTrack :=
  [⟨"t1", "r1", 1, "1", "Café!"⟩, ⟨"t2", "r2", 1, "2", "Intro"⟩]

/-- A title with a letter that `normalizeTitle` drops does no harm where no other title is taken
for it. -/
theorem swapped_tracks_are_matched_by_title :
    TitlesMatched asciiNames (fun c => isAlphanumeric c || decide (127 < c.toNat))
      [⟨"a.flac", 1, "Intro"⟩, ⟨"a.flac", 2, "Café"⟩] swappedTracks 1 ∧
    (matchCueTracks asciiNames [⟨"a.flac", 1, "Intro"⟩, ⟨"a.flac", 2, "Café"⟩] swappedTracks 1).lookup 2
      = some ⟨"t1", "r1", 1, "1", "Café!"⟩ :=
  ⟨(cue_tracks_are_matched_by_title _ _ 1 (by decide)).2.mpr (by decide +kernel) _ _ (Sublist.refl _)
    (Sublist.refl _), by decide⟩

/-- A title in another script goes by its number. -/
theorem cyrillic_title_is_matched_by_position : ¬ Blank asciiNames "кино" ∧
    (matchCueTracks asciiNames [⟨"a.flac", 1, "кино"⟩] [⟨"t1", "r1", 1, "1", "звезда"⟩] 1).lookup 1
      = some ⟨"t1", "r1", 1, "1", "звезда"⟩ := by
  decide

end Tiramisu.MusicImport
