import Tiramisu.Library.ShowFolders

/-!
# Complete seasons

The TV sync does not search for a season that `getCompleteSeasons` reports.
That function counts the live registry keys which begin with the season's text
and never looks for an episode, so a key of an episode number that the season
does not have counts for one that is missing, and so does the row of another
show with the same letters and digits in its title.
-/

namespace Tiramisu.Syncer

open Go Library Posix List

/-- A season as TMDB describes it. -/
structure SeasonInfo where
  seasonNumber : ℤ
  episodeCount : ℤ

/-- How many episodes each season should have. -/
def seasonEps (seasons : List SeasonInfo) : GoMap ℤ ℤ :=
  seasons.foldl (fun m sd =>
    if 0 < sd.seasonNumber ∧ 0 < sd.episodeCount then m.insert sd.seasonNumber sd.episodeCount
    else m) ∅

def seasonPrefix (normalized : String) (sn : ℤ) : String :=
  normalized ++ "_s" ++ pad2 sn ++ "e"

structure TVEpisodeEntry where
  qualityScore : ℤ
  hash : String
  filePath : Path
  source : String
  created : ℤ

abbrev EpisodeRow := Sigma fun _ : String => TVEpisodeEntry

structure TVRegistry where
  registry : GoMap String TVEpisodeEntry
  deadEpisodeKeys : String → Bool
  tvDir : Path

namespace TVRegistry

/-- The rows that count for a season. -/
def counted (e : TVRegistry) (pre : String) : List EpisodeRow :=
  e.registry.entries.filter fun r => hasPrefix r.1 pre && !e.deadEpisodeKeys r.1

/-- The average score of each complete season. -/
def getCompleteSeasons (e : TVRegistry) (showName : String) (seasons : List SeasonInfo) :
    GoMap ℤ ℚ :=
  (seasonEps seasons).entries.foldl (fun complete season =>
    let scores := (e.counted (seasonPrefix (keyOfTitle showName) season.1)).map
      fun r => r.2.qualityScore
    if season.2 ≤ (scores.length : ℤ) then
      complete.insert season.1 ((scores.sum : ℚ) / scores.length)
    else complete) ∅

/-- A live row for an episode of the very show: its file is below the show's
folder. -/
def Registered (e : TVRegistry) (a : TvShow) (season episode : ℕ) : Prop :=
  e.deadEpisodeKeys (a.key season episode) = false ∧
    ∃ entry ∈ e.registry.lookup (a.key season episode), e.tvDir ++ a.folder <+: entry.filePath

instance (e : TVRegistry) (a : TvShow) (season episode : ℕ) :
    Decidable (e.Registered a season episode) :=
  inferInstanceAs (Decidable (_ ∧ _))

/-- The episodes of a season without a row. -/
def missing (e : TVRegistry) (a : TvShow) (sn expected : ℤ) : Finset ℕ :=
  {n ∈ Finset.Icc 1 expected.toNat | ¬e.Registered a sn.toNat n}

/-- A row for one of the episodes that the season should have, with a file of the show. -/
def OwnRow (e : TVRegistry) (a : TvShow) (sn expected : ℤ) (r : EpisodeRow) : Prop :=
  (∃ n ∈ Finset.Icc 1 expected.toNat, r.1 = a.key sn.toNat n) ∧
    e.tvDir ++ a.folder <+: r.2.filePath

instance (e : TVRegistry) (a : TvShow) (sn expected : ℤ) (r : EpisodeRow) :
    Decidable (e.OwnRow a sn expected r) :=
  inferInstanceAs (Decidable (_ ∧ _))

/-- The rows that count for a season and are not its own. -/
def stray (e : TVRegistry) (a : TvShow) (sn expected : ℤ) : List EpisodeRow :=
  (e.counted (seasonPrefix (keyOfTitle a.title) sn)).filter fun r => ¬e.OwnRow a sn expected r

/-- Every episode from the first to the expected number is there. -/
def HasSeason (e : TVRegistry) (a : TvShow) (seasons : List SeasonInfo) (sn : ℤ) : Prop :=
  ∃ expected, (seasonEps seasons).lookup sn = some expected ∧
    ∀ n : ℕ, 1 ≤ n → (n : ℤ) ≤ expected → e.Registered a sn.toNat n

end TVRegistry

/-- The seasons from the first to the last that `processShow` is to look at. -/
def targetSeasons (numberOfSeasons : ℤ) (seasons : List ℤ) : List ℤ :=
  let numSeasons := if numberOfSeasons = 0 then 5 else numberOfSeasons
  let (startSeason, endSeason) := match seasons with
    | [] => (max (numSeasons - 2 + 1) 1, numSeasons)
    | s :: _ => (seasons.foldl min s, seasons.foldl max s)
  (range (endSeason - startSeason + 1).toNat).map fun k => startSeason + k

/-- The seasons without a search; if these are all, the show is skipped. -/
def skippedSeasons (complete : GoMap ℤ ℚ) (seasonSkipScore : ℤ) (targets : List ℤ) : List ℤ :=
  targets.filter fun s => (complete.lookup s).any fun avgScore => (seasonSkipScore : ℚ) ≤ avgScore

variable {e : TVRegistry} {a : TvShow} {seasons : List SeasonInfo} {sn expected : ℤ}

/-- A season is reported when as many rows count for it as it should have episodes. -/
lemma mem_getCompleteSeasons {showName : String} :
    sn ∈ e.getCompleteSeasons showName seasons ↔
      ∃ expected, ⟨sn, expected⟩ ∈ (seasonEps seasons).entries ∧
        expected ≤ ((e.counted (seasonPrefix (keyOfTitle showName) sn)).length : ℤ) := by
  unfold TVRegistry.getCompleteSeasons
  generalize (seasonEps seasons).entries = l
  induction l using reverseRecOn with
  | nil => simp
  | append_singleton l season ih =>
    obtain ⟨sn', expected'⟩ := season
    simp only [foldl_append, foldl_cons, foldl_nil, length_map] at ih ⊢
    split_ifs with hlen
    · rw [AList.mem_insert, ih]
      constructor
      · rintro (rfl | ⟨expected, hmem, hle⟩)
        · exact ⟨expected', by simp, hlen⟩
        · exact ⟨expected, mem_append_left _ hmem, hle⟩
      · rintro ⟨expected, hmem, hle⟩
        rcases mem_append.mp hmem with hmem | hmem
        · exact .inr ⟨expected, hmem, hle⟩
        · cases mem_singleton.mp hmem
          exact .inl rfl
    · rw [ih]
      refine exists_congr fun expected => and_congr_left fun hle => ?_
      rw [mem_append, mem_singleton, or_iff_left]
      rintro ⟨⟩
      exact hlen hle

lemma pos_of_mem_seasonEps (h : ⟨sn, expected⟩ ∈ (seasonEps seasons).entries) :
    0 < sn ∧ 0 < expected := by
  rw [← AList.mem_lookup_iff] at h
  revert h
  refine foldlRecOn (motive := fun m : GoMap ℤ ℤ => expected ∈ m.lookup sn → _) _ _ ?_
    fun m hm sd _ h => ?_
  · exact fun h => by simp at h
  · split_ifs at h with hpos
    · by_cases heq : sn = sd.seasonNumber
      · subst heq
        rw [AList.lookup_insert, Option.mem_some] at h
        exact h ▸ hpos
      · exact hm (AList.lookup_insert_ne heq ▸ h)
    · exact hm h

lemma hasPrefix_key (hsn : 0 < sn) (n : ℕ) :
    hasPrefix (a.key sn.toNat n) (seasonPrefix (keyOfTitle a.title) sn) = true := by
  rw [hasPrefix, isPrefixOf_iff_prefix, TvShow.key, episodeKey, seasonPrefix,
    Int.toNat_of_nonneg hsn.le]
  exact ⟨(pad2 n).toList, (String.toList_append ..).symm⟩

/-- The season's own rows are those of the episodes that it has. -/
lemma length_own_add_missing (hsn : 0 < sn) :
    ((e.counted (seasonPrefix (keyOfTitle a.title) sn)).filter
      fun r => e.OwnRow a sn expected r).length + (e.missing a sn expected).card =
      expected.toNat := by
  set own := (e.counted (seasonPrefix (keyOfTitle a.title) sn)).filter
    fun r => e.OwnRow a sn expected r
  have hnodup : (own.map Sigma.fst).Nodup := by
    have hsub : own <+ e.registry.entries := filter_sublist.trans filter_sublist
    exact (hsub.map Sigma.fst).nodup e.registry.keys_nodup
  have hkeys : (own.map Sigma.fst).toFinset =
      ({n ∈ Finset.Icc 1 expected.toNat | e.Registered a sn.toNat n}.image (a.key sn.toNat)) := by
    ext k
    simp only [mem_toFinset, mem_map, Finset.mem_image, Finset.mem_filter]
    constructor
    · rintro ⟨r, hr, rfl⟩
      obtain ⟨hcounted, hrow⟩ := mem_filter.mp hr
      obtain ⟨hentry, hlive⟩ := mem_filter.mp hcounted
      obtain ⟨⟨n, hn, hkey⟩, hfile⟩ := of_decide_eq_true hrow
      refine ⟨n, ⟨hn, ?_, r.2, ?_, hfile⟩, hkey.symm⟩
      · simpa [hkey] using (Bool.and_eq_true_iff.mp hlive).2
      · exact hkey ▸ AList.mem_lookup_iff.mpr hentry
    · rintro ⟨n, ⟨hn, hlive, entry, hentry, hfile⟩, rfl⟩
      refine ⟨⟨_, entry⟩, mem_filter.mpr ⟨mem_filter.mpr ⟨AList.mem_lookup_iff.mp hentry, ?_⟩, ?_⟩,
        rfl⟩
      · rw [hasPrefix_key hsn, hlive]
        rfl
      · exact decide_eq_true ⟨⟨n, hn, rfl⟩, hfile⟩
  have hcard := congrArg Finset.card hkeys
  rw [toFinset_card_of_nodup hnodup, length_map,
    Finset.card_image_of_injective _ fun m n h => (key_inj h).2.2] at hcard
  rw [hcard, TVRegistry.missing, Finset.card_filter_add_card_filter_not, Nat.card_Icc,
    Nat.add_sub_cancel]

/-- So many rows count for a season as it has own and stray ones. -/
lemma length_counted (hsn : 0 < sn) (expected : ℤ) :
    (e.counted (seasonPrefix (keyOfTitle a.title) sn)).length + (e.missing a sn expected).card =
      expected.toNat + (e.stray a sn expected).length := by
  rw [← length_own_add_missing (e := e) (a := a) hsn, length_eq_length_filter_add
    (fun r => decide (e.OwnRow a sn expected r)), TVRegistry.stray]
  simp only [decide_not]
  omega

lemma hasSeason_iff (h : ⟨sn, expected⟩ ∈ (seasonEps seasons).entries) :
    e.HasSeason a seasons sn ↔ e.missing a sn expected = ∅ := by
  have hlookup : (seasonEps seasons).lookup sn = some expected := AList.mem_lookup_iff.mpr h
  simp only [TVRegistry.HasSeason, hlookup, Option.some.injEq, exists_eq_left',
    TVRegistry.missing, Finset.filter_eq_empty_iff, Finset.mem_Icc, not_not]
  refine forall_congr' fun n => ?_
  rw [and_imp, Int.le_toNat (pos_of_mem_seasonEps h).2.le]

/-- The reported seasons have every episode exactly when no season has as many stray rows as
missing episodes, and then no season is skipped without its episodes. -/
theorem complete_season_has_every_episode :
    ((∀ sn ∈ e.getCompleteSeasons a.title seasons, e.HasSeason a seasons sn) ↔
      ∀ season ∈ (seasonEps seasons).entries, e.missing a season.1 season.2 = ∅ ∨
        (e.stray a season.1 season.2).length < (e.missing a season.1 season.2).card) ∧
    ((∀ sn ∈ e.getCompleteSeasons a.title seasons, e.HasSeason a seasons sn) →
      ∀ seasonSkipScore numberOfSeasons asked,
        ∀ sn ∈ skippedSeasons (e.getCompleteSeasons a.title seasons) seasonSkipScore
          (targetSeasons numberOfSeasons asked), e.HasSeason a seasons sn) := by
  refine ⟨⟨fun h season hseason => ?_, fun h sn hsn => ?_⟩, fun h seasonSkipScore
    numberOfSeasons asked sn hsn => h sn ?_⟩
  · by_contra hnot
    obtain ⟨hmissing, hstray⟩ := not_or.mp hnot
    refine hmissing ((hasSeason_iff hseason).mp (h season.1 ?_))
    refine mem_getCompleteSeasons.mpr ⟨season.2, hseason, ?_⟩
    have hlen := length_counted (e := e) (a := a) (pos_of_mem_seasonEps hseason).1 season.2
    omega
  · obtain ⟨expected, hseason, hle⟩ := mem_getCompleteSeasons.mp hsn
    rw [hasSeason_iff hseason]
    refine (h _ hseason).resolve_right fun hfew => ?_
    have hlen := length_counted (e := e) (a := a) (pos_of_mem_seasonEps hseason).1 expected
    have hpos := (pos_of_mem_seasonEps hseason).2
    dsimp only at hfew
    omega
  · obtain ⟨avgScore, hlookup, -⟩ := (Option.any_eq_true _ _).mp (mem_filter.mp hsn).2
    exact Writes.mem_iff.mpr ⟨avgScore, hlookup⟩

def ted : TvShow := ⟨"Ted", "2024-01-11"⟩

/-- Rows for some episodes of the first season. -/
def tedRows (episodes : List ℕ) : TVRegistry :=
  ⟨episodes.foldl (fun m n => m.insert (ted.key 1 n)
      ⟨600, "", ["tv", "Ted (2024)", "Season.01", toString n ++ ".mkv"], "", 0⟩) ∅,
    fun _ => false, ["tv"]⟩

/-- A row of a third episode, which the list does not know, does no harm. -/
theorem two_of_two_episodes_are_there :
    1 ∈ (tedRows [1, 2, 3]).getCompleteSeasons ted.title [⟨1, 2⟩] ∧
      (tedRows [1, 2, 3]).HasSeason ted [⟨1, 2⟩] 1 := by
  have hcomplete : 1 ∈ (tedRows [1, 2, 3]).getCompleteSeasons ted.title [⟨1, 2⟩] := by decide
  exact ⟨hcomplete, complete_season_has_every_episode.1.mpr (by decide) 1 hcomplete⟩

/-- The third episode counts for the second, and the search is skipped. -/
theorem third_episode_counts_for_second :
    1 ∈ (tedRows [1, 3]).getCompleteSeasons ted.title [⟨1, 2⟩] ∧
      skippedSeasons ((tedRows [1, 3]).getCompleteSeasons ted.title [⟨1, 2⟩]) 500
        (targetSeasons 1 []) = [1] ∧
      (tedRows [1, 3]).registry.lookup (ted.key 1 2) = none := by
  decide +kernel

end Tiramisu.Syncer
