import Tiramisu.Library.RequestCustody

/-!
# References have their torrents

Any number of library requests run side by side, operation by operation.  As
long as no walk of `findByHash` loses an entry it has listed, every stub a
request has written and every row of a successful audio add has its torrent in
the engine.  A walk that does lose one answers as if the tree held no further
stub, and the torrent of a stub that is still there goes.
-/

namespace Tiramisu.Library

open Posix Protocol Transition

variable {cfg : LibraryConfig}

/-- The requests at their start. -/
def sideBySide (cfg : LibraryConfig) (reqs : List LibRequest) (s : LibraryState) :
    Config LibOp LibOp.Res Outcome LibraryState :=
  ⟨reqs.map (·.prog cfg), s⟩

/-- Nothing of these requests has happened yet. -/
structure LibraryState.Opening (s : LibraryState) : Prop where
  hashLocks : s.hashLocks = ∅
  written : s.written = []
  drawn : s.drawn = ∅
  abandoned : s.abandoned = []
  hex : ∀ hash ∈ s.store.engine, HexHash hash

lemma LibraryState.Opening.inv {s : LibraryState} (h : s.Opening) : LibraryInv cfg s := by
  refine ⟨fun hash x hx => ?_, h.hex, by simp [h.written]⟩
  cases x with
  | inl p =>
    have hp : p ∈ s.written := hx.1
    rw [h.written] at hp
    exact absurd hp List.not_mem_nil
  | inr i =>
    obtain ⟨-, r, -, -, hdrawn⟩ := hx
    rw [h.drawn] at hdrawn
    cases hdrawn

/-- In every state of every run in which walks lose nothing they have listed,
each stub that a request wrote and nobody removed, and each row of an audio add
that has reported success, has its torrent in the engine. -/
theorem references_keep_their_torrents {reqs : List LibRequest} {s : LibraryState}
    {ls : List (ℕ × Move LibChoice)} {c : Config LibOp LibOp.Res Outcome LibraryState}
    (hopen : s.Opening)
    (hrun : Run (Guarded (Allowed listedStays) (librarySystem cfg).Step)
      (sideBySide cfg reqs s) ls c) :
    (∀ p ∈ c.state.written, ∃ hash, Carries c.state.store.media p hash ∧
      hash ∈ c.state.store.engine) ∧
    ∀ r ∈ c.state.audio.db.rows, ∀ i, c.state.drawn.lookup r.txnID = some i →
      c.procs[i]? = some (.ret .projected) → r.hash ∈ c.state.store.engine := by
  have hvalid : (libraryParties cfg).Valid (sideBySide cfg reqs s) := by
    refine ⟨hopen.inv, fun i p hp => ?_⟩
    rw [sideBySide, List.getElem?_map] at hp
    obtain ⟨req, -, rfl⟩ := Option.map_eq_some_iff.mp hp
    exact libRuns_request (by simp [sideBySide, hopen.abandoned])
  have hend := hvalid.run hrun
  refine ⟨fun p hp => ?_, fun r hr i hdrawn hret => ?_⟩
  · obtain ⟨hash, hcarries, -⟩ := hend.inv.placed p hp
    exact ⟨hash, hcarries, hend.inv.sound hash (.inl p) ⟨hp, hcarries⟩⟩
  · have hkept : i ∉ c.state.abandoned := hend.post hret rfl
    exact hend.inv.sound r.hash (.inr i) ⟨hkept, r, hr, rfl, hdrawn⟩

/-! ### A season pack, a show beside it, and two removals -/

def mediaServer : LibraryConfig where
  moviesDir := ["movies"]
  tvDir := ["tv"]
  goStormURL := "http://127.0.0.1:8090"
  uploads := false
  linkless := by decide

def packHash : String := "00112233445566778899aabbccddeeff00112233"

def alphaHash : String := "ffeeddccbbaa99887766554433221100ffeeddcc"

lemma packHash_valid : InfoHash packHash := by decide

lemma alphaHash_valid : InfoHash alphaHash := by decide

def showRequest (hash folder : String) (episode : ℕ) (valid : InfoHash hash) : VideoRequest where
  kind := .tv
  hash := hash
  magnet := ""
  torrentFile := .absent
  movieBase := ""
  showFolder := [folder]
  cleanShow := folder
  showKey := folder
  season := 1
  episode := episode
  fileIndex := 0
  qualityScore := 0
  imdb := ""
  acceptFiles _ := true
  now := 0
  valid := valid

def asRanged : RangeOrder := ⟨id, fun _ => List.Perm.refl _⟩

def packStub (episode : String) : Path :=
  ["tv", "Show", "Season.01", "Show_S01E" ++ episode ++ "_00112233.mkv"]

def alphaStub : Path := ["tv", "Alpha", "Season.01", "Alpha_S01E01_ffeeddcc.mkv"]

def seasonRequests : List LibRequest :=
  [.add asRanged (showRequest packHash "Show" 0 packHash_valid),
   .add asRanged (showRequest alphaHash "Alpha" 1 alphaHash_valid),
   .remove asRanged ⟨.path true (packStub "01"), false⟩,
   .remove asRanged ⟨.path true alphaStub, false⟩]

/-- Two empty media directories and an empty engine. -/
def emptyLibrary : LibraryState where
  store := ⟨(((Disk.empty 1).create ["movies"] (.dir 2)).bind
    (·.create ["tv"] (.dir 3))).getD (Disk.empty 1), ∅, [], []⟩
  audio := ⟨Metadb.Registry.empty, Disk.empty 1, false⟩
  hashLocks := ∅
  showLocks := ∅
  showReaders := []
  written := []
  drawn := ∅
  abandoned := []

/-- One party runs for a number of operations, all of which succeed. -/
def spell (pid count ino : ℕ) (files : List FileStat) : List (ℕ × Move LibChoice) :=
  (List.range count).map fun i =>
    (pid, .act ⟨⟨false, false, true, ino + i, .keyed, files⟩, ⟨false, ino + i, .bytes ""⟩, none⟩)

def seasonFiles : List FileStat := [⟨1, "p/Show.S01E01.mkv", 5⟩, ⟨2, "p/Show.S01E02.mkv", 5⟩]

def alphaFiles : List FileStat := [⟨1, "Alpha.S01E01.mkv", 5⟩]

lemma opening_emptyLibrary : emptyLibrary.Opening :=
  ⟨rfl, rfl, rfl, rfl, by simp [emptyLibrary]⟩

/-- The requests one after the other. -/
def turnsSchedule : List (ℕ × Move LibChoice) :=
  spell 0 20 10 seasonFiles ++ spell 1 18 100 alphaFiles ++ spell 2 21 200 [] ++ spell 3 22 300 []

def turnsEnd : Option (Config LibOp LibOp.Res Outcome LibraryState) :=
  runSchedule (librarySystem mediaServer) listedStays
    (sideBySide mediaServer seasonRequests emptyLibrary) turnsSchedule

theorem rest_of_pack_keeps_its_torrent :
    ∃ c, turnsEnd = some c ∧ c.state.written = [packStub "02"] ∧
      ∃ hash, Carries c.state.store.media (packStub "02") hash ∧ hash ∈ c.state.store.engine := by
  obtain ⟨c, hc, hlist⟩ : ∃ c ∈ turnsEnd, c.state.written = [packStub "02"] := by
    decide +kernel
  refine ⟨c, hc, hlist, ?_⟩
  exact (references_keep_their_torrents opening_emptyLibrary (run_of_runSchedule hc)).1 _
    (by simp [hlist])

/-- The removal of the first episode has listed the neighbouring show, whose
stub then goes; the walk ends there and never comes to the second episode. -/
def lostEntrySchedule : List (ℕ × Move LibChoice) :=
  spell 0 20 10 seasonFiles ++ spell 1 18 100 alphaFiles ++ spell 2 14 200 [] ++
    spell 3 3 300 [] ++ spell 2 4 400 [] ++ spell 3 19 500 []

def lostEntryEnd : Option (Config LibOp LibOp.Res Outcome LibraryState) :=
  runSchedule (librarySystem mediaServer) (fun _ _ _ => True)
    (sideBySide mediaServer seasonRequests emptyLibrary) lostEntrySchedule

theorem lost_entry_drops_live_torrent :
    ∃ c, Run (librarySystem mediaServer).Step
        (sideBySide mediaServer seasonRequests emptyLibrary) lostEntrySchedule c ∧
      (c.procs.all fun p => p.result?.isSome) = true ∧
      c.state.written = [packStub "02"] ∧
      (c.state.store.media.readFile (packStub "02")).toOption.bind readStubHash = some packHash ∧
      c.state.store.engine = [] := by
  refine exists_run_of_runSchedule (?_ : ∃ c ∈ lostEntryEnd, _)
  decide +kernel

end Tiramisu.Library
