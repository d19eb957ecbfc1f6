import Tiramisu.Lib.Answers
import Tiramisu.Library.LiveTorrents

/-!
# Shows, their folders and their registry keys

`ShowFolderName` names the folder of a show after its sanitised title and its
year, `EpisodeKey` the rows of its episodes after the letters and digits of the
title alone.  `addEpisodes` deletes the stub that the row under its key points
at, so an add stays inside its own show's folder only while shows with one key
share one folder.
-/

namespace Tiramisu.Library

open Posix Protocol Program Transition List Go
open Metadb (EpisodeEntry)

/-! ### Names -/

/-- What `strings.ToLower` and `reNonWord` leave of a character.  Beyond ASCII,
only U+0130 and the Kelvin sign have an ASCII letter as their lower case. -/
def keyChar (c : Char) : Option Char :=
  let lower := if c = '\u0130' then 'i' else if c = '\u212a' then 'k' else c.toLower
  if lower.isLower ∨ lower.isDigit then some lower else none

/-- The show's part of `EpisodeKey`. -/
def keyOfTitle (title : String) : String := String.ofList (title.toList.filterMap keyChar)

/-- The characters of `reShowUnsafe`. -/
def showUnsafe : List Char := ['<', '>', ':', '\x22', '/', '\\', '|', '?', '*', '\x27', '&']

/-- The class `\s` of the regular expressions. -/
def regexSpace (c : Char) : Bool := c ∈ ['\t', '\n', '\x0c', '\r', ' ']

/-- One underscore for every run of characters in `p`. -/
def squeeze (p : Char → Bool) : Bool → List Char → List Char
  | _, [] => []
  | inRun, c :: cs =>
    if p c then
      if inRun then squeeze p true cs else '_' :: squeeze p true cs
    else c :: squeeze p false cs

def sanitizeShowName (name : String) : List Char :=
  let clean := name.toList.filter fun c => c ∉ showUnsafe
  let clean := squeeze regexSpace false clean
  let clean := squeeze (· = '_') false clean
  let clean := ((clean.dropWhile (· = '_')).reverse.dropWhile (· = '_')).reverse
  let clean := clean.dropWhile (· = '.')
  if clean = [] then "untitled".toList else clean

/-- A name on disk is a string of bytes, written here with one character for
each of them. -/
def byteText (cs : List Char) : List Char :=
  (cs.flatMap String.utf8EncodeChar).map fun b => Char.ofNat b.toNat

/-- The year is the first four bytes of the air date, whatever they are. -/
def showFolderName (showName firstAirDate : String) : List Char :=
  let clean := byteText (sanitizeShowName showName)
  let date := byteText firstAirDate.toList
  if 4 ≤ date.length then clean ++ [' ', '('] ++ date.take 4 ++ [')'] else clean

/-- One component of a path that `filepath.Join` cleans.  The title stands
before the date, so a `..` in the date finds a component to take away. -/
def joinComponent (path : Path) (component : List Char) : Path :=
  if component = [] ∨ component = ['.'] then path
  else if component = ['.', '.'] then path.dropLast
  else path ++ [String.ofList component]

structure TvShow where
  title : String
  firstAirDate : String
  deriving DecidableEq, Repr

namespace TvShow

/-- The folder of the show below the TV directory. -/
def folder (a : TvShow) : Path :=
  ((showFolderName a.title a.firstAirDate).splitOn '/').foldl joinComponent []

/-- `EpisodeKey`. -/
def key (a : TvShow) (season episode : ℕ) : String :=
  episodeKey (keyOfTitle a.title) season episode

/-- A path that holds a stub of the show: a file in one of its season folders. -/
def Stub (a : TvShow) (cfg : LibraryConfig) (p : Path) : Prop :=
  ∃ seasonDir file, p = cfg.tvDir ++ a.folder ++ [seasonDir, file]

/-- A request for episodes of the show. -/
def request (a : TvShow) (req : VideoRequest) : VideoRequest :=
  { req with
    showFolder := a.folder
    cleanShow := String.ofList (byteText (sanitizeShowName a.title))
    showKey := keyOfTitle a.title }

end TvShow

example : (TvShow.mk "Marvel's  Agents: S.H.I.E.L.D." "2013-09-24").folder
    = ["Marvels_Agents_S.H.I.E.L.D. (2013)"] := by decide

example : (TvShow.mk "Marvel's  Agents: S.H.I.E.L.D." "2013-09-24").key 1 10
    = "marvelsagentsshield_s01e10" := by decide

/-! ### A key determines the reduced title, the season and the episode -/

lemma isDigit_of_mem_pad2 {n : ℕ} {c : Char} (h : c ∈ (pad2 n).toList) : c.isDigit = true := by
  have hdigits : ∀ c ∈ (toString n).toList, c.isDigit = true := by
    intro c hc
    rw [Nat.toString_eq_ofList_toDigits, String.toList_ofList] at hc
    exact Nat.isDigit_of_mem_toDigits (by decide) (by decide) hc
  unfold pad2 at h
  split_ifs at h
  · rw [String.toList_append, mem_append] at h
    rcases h with h | h
    · obtain rfl : c = '0' := by simpa using h
      rfl
    · exact hdigits c h
  · exact hdigits c h

lemma ofDigitChars_pad2 (n : ℕ) : Nat.ofDigitChars 10 (pad2 n).toList 0 = n := by
  have hdigits : Nat.ofDigitChars 10 (toString n).toList 0 = n := by
    rw [Nat.toString_eq_ofList_toDigits, String.toList_ofList]
    exact Nat.ofDigitChars_ten_toDigits
  unfold pad2
  split_ifs
  · rw [String.toList_append]
    exact hdigits
  · exact hdigits

lemma pad2_injective {m n : ℕ} (h : (pad2 m).toList = (pad2 n).toList) : m = n := by
  rw [← ofDigitChars_pad2 m, h, ofDigitChars_pad2]

lemma keyChar_ne_underscore {c d : Char} (h : keyChar c = some d) : d ≠ '_' := by
  rintro rfl
  obtain ⟨hword, hd⟩ := Option.ite_none_right_eq_some.mp h
  rw [Option.some.inj hd] at hword
  exact absurd hword (by decide)

lemma episodeKey_text (showKey : String) (season episode : ℕ) :
    (episodeKey showKey season episode).toList = showKey.toList ++
      '_' :: ('s' :: ((pad2 season).toList ++ 'e' :: (pad2 episode).toList)) := by
  simp [episodeKey, String.toList_append]

lemma notMem_pad2 {n : ℕ} {c : Char} (h : c.isDigit = false) : c ∉ (pad2 n).toList := by
  intro hc
  rw [isDigit_of_mem_pad2 hc] at h
  cases h

lemma key_inj {a b : TvShow} {s e s' e' : ℕ} (h : a.key s e = b.key s' e') :
    keyOfTitle a.title = keyOfTitle b.title ∧ s = s' ∧ e = e' := by
  have htext := congrArg String.toList h
  rw [TvShow.key, TvShow.key, episodeKey_text, episodeKey_text] at htext
  have hword : '_' ∉ (keyOfTitle a.title).toList := by
    intro hmem
    rw [keyOfTitle, String.toList_ofList] at hmem
    obtain ⟨c, -, hc⟩ := mem_filterMap.mp hmem
    exact keyChar_ne_underscore hc rfl
  have hnumbers : '_' ∉ 's' :: ((pad2 s).toList ++ 'e' :: (pad2 e).toList) := by
    simp [notMem_pad2 (show Char.isDigit '_' = false from rfl)]
  obtain ⟨htitle, -, hrest⟩ := (append_cons_inj_of_notMem hword hnumbers).mp htext
  have hletter : Char.isDigit 'e' = false := rfl
  obtain ⟨hseason, -, hepisode⟩ := (append_cons_inj_of_notMem (notMem_pad2 hletter)
    (notMem_pad2 hletter)).mp (cons.inj hrest).2
  exact ⟨String.toList_inj.mp htitle, pad2_injective hseason, pad2_injective hepisode⟩

/-! ### The registry and the folders -/

/-- No two shows with the same letters and digits in their titles are kept in
different folders. -/
def Separate (shows : Set TvShow) : Prop :=
  ∀ a ∈ shows, ∀ b ∈ shows, keyOfTitle a.title = keyOfTitle b.title → a.folder = b.folder

/-- Every row points into the folder of a show that has its key. -/
def Filed (cfg : LibraryConfig) (shows : Set TvShow) (s : Store) : Prop :=
  ∀ k entry, s.episodes.lookup k = some entry → entry.filePath ≠ [] →
    ∃ a ∈ shows, (∃ season episode, k = a.key season episode) ∧ a.Stub cfg entry.filePath

/-- The rows of a show and its stubs are what they were. -/
structure Untouched (cfg : LibraryConfig) (b : TvShow) (s s' : Store) : Prop where
  rows : ∀ season episode, s'.episodes.lookup (b.key season episode)
    = s.episodes.lookup (b.key season episode)
  stubs : ∀ p n, b.Stub cfg p → s.media.node p = some n → s'.media.node p = some n

lemma Untouched.refl (cfg : LibraryConfig) (b : TvShow) (s : Store) : Untouched cfg b s s :=
  ⟨fun _ _ => rfl, fun _ _ _ h => h⟩

/-- An entry that the show may have left. -/
def TvShow.Left (a : TvShow) (cfg : LibraryConfig) (entry : EpisodeEntry) : Prop :=
  entry.filePath = [] ∨ a.Stub cfg entry.filePath

/-- The calls of an add for the show: it writes and removes its own stubs and
rows only. -/
def TvShow.Own (a : TvShow) (cfg : LibraryConfig) : StoreCall → Prop
  | .stat _ | .lstat _ _ | .mkdir _ => True
  | .getEpisode key | .deleteEpisode key => ∃ season episode, key = a.key season episode
  | .writeFile p _ | .remove p => a.Stub cfg p
  | .upsertEpisode key entry =>
    (∃ season episode, key = a.key season episode) ∧ a.Left cfg entry
  | _ => False

/-- What an add learns about the rows under its keys. -/
def TvShow.Told (a : TvShow) (cfg : LibraryConfig) : (o : StoreCall) → o.Res → Prop
  | .getEpisode _, some (some entry) => a.Left cfg entry
  | _, _ => True

variable {cfg : LibraryConfig} {shows : Set TvShow} {a b : TvShow} {s s' : Store}

lemma folder_eq_of_key (hsep : Separate shows) (ha : a ∈ shows) (hb : b ∈ shows) {i j i' j' : ℕ}
    (h : a.key i j = b.key i' j') : a.folder = b.folder :=
  hsep a ha b hb (key_inj h).1

lemma stub_of_folder_eq {p : Path} (h : a.folder = b.folder) (hp : a.Stub cfg p) :
    b.Stub cfg p := by
  obtain ⟨seasonDir, file, rfl⟩ := hp
  exact ⟨seasonDir, file, by rw [h]⟩

/-- Stubs of different folders are different files. -/
lemma ne_of_stub {p q : Path} (hfolder : b.folder ≠ a.folder) (hp : b.Stub cfg p)
    (hq : a.Stub cfg q) : p ≠ q := by
  rintro rfl
  obtain ⟨d, f, rfl⟩ := hp
  obtain ⟨d', f', h⟩ := hq
  rw [append_assoc, append_assoc] at h
  have hlen : b.folder.length = a.folder.length := by
    have hl := congrArg length h
    simp only [length_append, length_cons, length_nil] at hl
    omega
  exact hfolder (append_inj (append_cancel_left h) hlen).1

lemma key_ne_of_folder_ne (hsep : Separate shows) (ha : a ∈ shows) (hb : b ∈ shows)
    (hfolder : b.folder ≠ a.folder) {i j i' j' : ℕ} : b.key i j ≠ a.key i' j' :=
  fun h => hfolder (folder_eq_of_key hsep hb ha h)

/-- A row under a key of the show points into its folder. -/
lemma left_of_filed (hsep : Separate shows) (ha : a ∈ shows) (hs : Filed cfg shows s)
    {season episode : ℕ} {entry : EpisodeEntry}
    (h : s.episodes.lookup (a.key season episode) = some entry) : a.Left cfg entry := by
  by_cases hpath : entry.filePath = []
  · exact .inl hpath
  · obtain ⟨b, hb, ⟨i, j, hk⟩, hstub⟩ := hs _ entry h hpath
    exact .inr (stub_of_folder_eq (folder_eq_of_key hsep hb ha hk.symm) hstub)

lemma filed_insert (ha : a ∈ shows) (hs : Filed cfg shows s) {season episode : ℕ}
    {entry : EpisodeEntry} (hentry : a.Left cfg entry) :
    Filed cfg shows { s with episodes := s.episodes.insert (a.key season episode) entry } := by
  intro k e hk hpath
  rcases Writes.of_insert hk with ⟨rfl, rfl⟩ | ⟨-, hk⟩
  · exact ⟨a, ha, ⟨season, episode, rfl⟩, hentry.resolve_left hpath⟩
  · exact hs k e hk hpath

/-- One call of an add for the show, while everybody keeps to the registry. -/
lemma own_step (hsep : Separate shows) (ha : a ∈ shows) {o : StoreCall} {c : StoreChoice}
    {r : o.Res} (hown : a.Own cfg o) (hs : Filed cfg shows s)
    (hex : o.exec c s = some (r, s')) :
    Filed cfg shows s' ∧ a.Told cfg o r ∧
      ∀ b ∈ shows, b.folder ≠ a.folder → Untouched cfg b s s' := by
  have hsame : ∀ b ∈ shows, b.folder ≠ a.folder → Untouched cfg b s s :=
    fun b _ _ => .refl cfg b s
  cases o with
  | stat p =>
    cases hex
    exact ⟨hs, trivial, hsame⟩
  | lstat listed p =>
    cases hex
    exact ⟨hs, trivial, hsame⟩
  | mkdir p =>
    rw [StoreCall.exec] at hex
    split_ifs at hex
    · cases hex
      exact ⟨hs, trivial, hsame⟩
    obtain ⟨⟨r1, d⟩, hd, heq⟩ := Option.map_eq_some_iff.mp hex
    cases heq
    refine ⟨hs, trivial, fun b _ _ => ⟨fun _ _ => rfl, fun q n _ hq => ?_⟩⟩
    rcases Disk.mkdir_eq_some hd with ⟨-, hcreate⟩ | ⟨e, -, rfl⟩
    · -- a directory is made only where nothing stands
      obtain ⟨-, hnone, -, -, hall⟩ := Disk.create_eq_some hcreate
      have hne : q ≠ p := by
        rintro rfl
        rw [hnone] at hq
        cases hq
      simpa [hall q, hne] using hq
    · exact hq
  | writeFile p data =>
    rw [StoreCall.exec] at hex
    split_ifs at hex
    · cases hex
      exact ⟨hs, trivial, hsame⟩
    all_goals
      obtain ⟨⟨r1, d⟩, hd, heq⟩ := Option.map_eq_some_iff.mp hex
      cases heq
      refine ⟨hs, trivial, fun b _ hfolder => ⟨fun _ _ => rfl, fun q n hq hn => ?_⟩⟩
      rcases Disk.writeFile_eq_some hd with ⟨-, -, i, hall⟩ | ⟨e, -, rfl⟩
      · simpa [hall q, ne_of_stub hfolder hq hown] using hn
      · exact hn
  | remove p =>
    rw [StoreCall.exec] at hex
    split_ifs at hex
    · cases hex
      exact ⟨hs, trivial, hsame⟩
    cases hex
    refine ⟨hs, trivial, fun b _ hfolder => ⟨fun _ _ => rfl, fun q n hq hn => ?_⟩⟩
    rcases Disk.remove_cases s.media p with ⟨-, -, hall⟩ | ⟨e, heq, -⟩
    · simpa [hall q, ne_of_stub hfolder hq hown] using hn
    · rw [heq]
      exact hn
  | getEpisode key =>
    obtain ⟨season, episode, rfl⟩ := hown
    cases hex
    refine ⟨hs, ?_, hsame⟩
    cases c.fail with
    | true => exact trivial
    | false =>
      cases hrow : s.episodes.lookup (a.key season episode) with
      | none => simp [TvShow.Told, Metadb.EpisodeTable.getEpisode, hrow]
      | some entry =>
        simpa [TvShow.Told, Metadb.EpisodeTable.getEpisode, hrow] using
          left_of_filed hsep ha hs hrow
  | upsertEpisode key entry =>
    obtain ⟨⟨season, episode, rfl⟩, hleft⟩ := hown
    cases hex
    cases c.fail with
    | true => exact ⟨hs, trivial, hsame⟩
    | false =>
      refine ⟨filed_insert ha hs hleft, trivial, fun b hb hfolder => ⟨fun i j => ?_, ?_⟩⟩
      · exact AList.lookup_insert_ne (key_ne_of_folder_ne hsep ha hb hfolder)
      · exact fun _ _ _ h => h
  | deleteEpisode key =>
    obtain ⟨season, episode, rfl⟩ := hown
    cases hex
    cases c.fail with
    | true => exact ⟨hs, trivial, hsame⟩
    | false =>
      refine ⟨fun k e hk => hs k e (Writes.of_erase hk).2, trivial,
        fun b hb hfolder => ⟨fun i j => ?_, fun _ _ _ h => h⟩⟩
      exact AList.lookup_erase_ne (key_ne_of_folder_ne hsep ha hb hfolder)
  | readDir _ _ | readFile _ | episodesByFilePath _ | uploadTorrent _ | addTorrent _
  | getTorrentInfo _ | removeTorrent _ | listTorrents | blacklist _ _ => exact hown.elim

/-! ### An add keeps to its show -/

section Programs

variable {req : VideoRequest} {hash : String}

lemma stub_episodePath (season episode : ℕ) :
    a.Stub cfg (episodePath cfg (a.request req) season episode hash) :=
  ⟨_, _, rfl⟩

lemma told_mkdirAllRev {names : List String} :
    (mkdirAllRev names).UsesTold (a.Own cfg) (a.Told cfg) fun _ => True := by
  induction names with
  | nil => exact told_done
  | cons name above ih =>
    refine told_op_bind trivial fun r _ => ?_
    rcases r with e | _ | _
    · refine ih.bind fun r _ => ?_
      cases r with
      | error e => exact told_done
      | ok _ =>
        refine told_op_bind trivial fun r _ => ?_
        cases r with
        | error e =>
          refine told_op_bind trivial fun r _ => ?_
          rcases r with e | _ | _ <;> exact told_done
        | ok _ => exact told_done
    · exact told_done
    · exact told_done

lemma told_writeStub {path : Path} {url magnet imdb : String} {size : ℤ} (h : a.Stub cfg path) :
    (writeStub path url size magnet imdb).UsesTold (a.Own cfg) (a.Told cfg) fun _ => True := by
  refine UsesTold.bind told_mkdirAllRev fun r _ => ?_
  cases r with
  | error e => exact told_done
  | ok _ => exact ⟨h, fun _ _ => trivial⟩

lemma told_deleteStub {path : Path} (h : a.Stub cfg path) :
    (deleteStub path).UsesTold (a.Own cfg) (a.Told cfg) fun _ => True := by
  refine told_op_bind h fun r _ => ?_
  cases r <;> exact told_done

/-- What the add found in place of one of its episodes. -/
def TvShow.Replaces (a : TvShow) (cfg : LibraryConfig) (p : Previous) : Prop :=
  a.Stub cfg p.path ∧ ∀ entry, p.entry = some entry → a.Left cfg entry

lemma told_rollbackEpisodes {prior : List Previous} (h : ∀ p ∈ prior, a.Replaces cfg p) :
    (rollbackEpisodes (a.request req) prior).UsesTold (a.Own cfg) (a.Told cfg)
      fun _ => True := by
  induction prior with
  | nil => exact told_done
  | cons p prior ih =>
    obtain ⟨hstub, hentry⟩ := h p (by simp)
    have hundo : (undoStub p).UsesTold (a.Own cfg) (a.Told cfg) fun _ => True := by
      unfold undoStub
      split_ifs
      · exact told_done
      · exact told_deleteStub hstub
    have hrestore : (restoreEntry (a.request req) p).UsesTold (a.Own cfg) (a.Told cfg)
        fun _ => True := by
      unfold restoreEntry
      cases hold : p.entry with
      | none => exact ⟨⟨p.season, p.episode, rfl⟩, fun _ _ => trivial⟩
      | some entry =>
        exact ⟨⟨⟨p.season, p.episode, rfl⟩, hentry entry hold⟩, fun _ _ => trivial⟩
    refine hundo.bind fun _ _ => hrestore.bind fun _ _ => ?_
    exact ih fun q hq => h q (by simp [hq])

lemma told_fileEpisodes {prior : List Previous} {wanted : List EpisodeFile}
    (h : ∀ p ∈ prior, a.Replaces cfg p) :
    (fileEpisodes cfg (a.request req) hash prior wanted).UsesTold (a.Own cfg) (a.Told cfg)
      fun r => ∀ found, r = some found → ∀ p ∈ found, a.Replaces cfg p := by
  induction wanted generalizing prior with
  | nil =>
    refine told_ret fun found hfound => ?_
    cases hfound
    exact h
  | cons w wanted ih =>
    have hstub : a.Stub cfg (episodePath cfg (a.request req) w.season w.episode hash) :=
      stub_episodePath w.season w.episode
    have hback : ∀ prior : List Previous, (∀ p ∈ prior, a.Replaces cfg p) →
        (do rollbackEpisodes (a.request req) prior
            return none : StoreProg (Option (List Previous))).UsesTold (a.Own cfg) (a.Told cfg)
          fun r => ∀ found, r = some found → ∀ p ∈ found, a.Replaces cfg p := by
      intro prior hprior
      exact (told_rollbackEpisodes hprior).bind fun _ _ => told_ret (by simp)
    refine told_op_bind ⟨w.season, w.episode, rfl⟩ fun prev hprev => ?_
    cases prev with
    | none => exact hback prior h
    | some prev =>
      refine told_op_bind trivial fun had _ => ?_
      refine (told_writeStub hstub).bind fun r _ => ?_
      cases r with
      | error e => exact hback prior h
      | ok _ =>
        have hnow : ∀ p ∈ prior ++ [⟨prev, had.isOk, episodePath cfg (a.request req) w.season
            w.episode hash, w.season, w.episode⟩], a.Replaces cfg p := by
          refine Places.forall_join h ⟨hstub, fun entry hentry => ?_⟩
          obtain rfl : prev = some entry := hentry
          exact hprev
        refine told_op_bind ⟨⟨w.season, w.episode, rfl⟩, .inr hstub⟩ fun ok _ => ?_
        cases ok with
        | true => exact ih hnow
        | false => exact hback _ hnow

lemma told_retireReplaced {prior : List Previous} (h : ∀ p ∈ prior, a.Replaces cfg p) :
    (retireReplaced hash prior).UsesTold (a.Own cfg) (a.Told cfg) fun _ => True := by
  induction prior with
  | nil => exact told_done
  | cons p prior ih =>
    have hone : (retireEpisode hash p).UsesTold (a.Own cfg) (a.Told cfg) fun _ => True := by
      unfold retireEpisode
      cases hold : p.entry with
      | none => exact told_done
      | some entry =>
        dsimp only
        split_ifs with hpath
        · exact told_done
        · -- the row's stub, which the registry says is the show's own
          have hstub := ((h p (by simp)).2 entry hold).resolve_left fun he => hpath (.inl he)
          exact (told_deleteStub hstub).bind fun _ _ => told_done
    refine hone.bind fun _ _ => ?_
    exact (ih fun q hq => h q (by simp [hq])).bind fun _ _ => told_done

lemma told_addEpisodes {files : List FileStat} :
    (addEpisodes cfg (a.request req) hash files).UsesTold (a.Own cfg) (a.Told cfg)
      fun _ => True := by
  unfold addEpisodes
  cases wantedFiles (a.request req) files with
  | none => exact told_done
  | some wanted =>
    refine UsesTold.bind (told_fileEpisodes (by simp)) fun r hr => ?_
    cases r with
    | none => exact told_done
    | some prior =>
      exact (told_retireReplaced (hr prior rfl)).bind fun _ _ => told_done

end Programs

/-! ### Adds side by side -/

/-- One call of `addEpisodes`: the show, the request for it, the torrent and the
files it holds. -/
structure EpisodeAdd where
  tvShow : TvShow
  req : VideoRequest
  hash : String
  files : List FileStat

def EpisodeAdd.program (cfg : LibraryConfig) (x : EpisodeAdd) :
    StoreProg (Option (List Path) × List String) :=
  addEpisodes cfg (x.tvShow.request x.req) x.hash x.files

def addSystem : System StoreCall StoreCall.Res StoreChoice Store where
  machine _ := storeMachine
  leave _ s := s

def addsTogether (cfg : LibraryConfig) (adds : List EpisodeAdd) (s : Store) :
    Config StoreCall StoreCall.Res (Option (List Path) × List String) Store :=
  ⟨adds.map (EpisodeAdd.program cfg), s⟩

/-- An add keeps its calls to its show, and with them the others' rows and stubs. -/
def addManners (cfg : LibraryConfig) (hsep : Separate shows) (adds : List EpisodeAdd)
    (hadds : ∀ x ∈ adds, x.tvShow ∈ shows) : Manners addSystem where
  inv := Filed cfg shows
  own i o := ∃ x, adds[i]? = some x ∧ x.tvShow.Own cfg o
  told i o r := ∀ x, adds[i]? = some x → x.tvShow.Told cfg o r
  does i s s' := ∀ x, adds[i]? = some x → ∀ b ∈ shows, b.folder ≠ x.tvShow.folder →
    Untouched cfg b s s'
  act := by
    rintro i o c s r s' ⟨x, hx, hown⟩ hs hex
    obtain ⟨hs', htold, hdoes⟩ :=
      own_step hsep (hadds x (mem_of_getElem? hx)) hown hs hex
    refine ⟨hs', fun y hy => ?_, fun y hy => ?_⟩
    · cases hx.symm.trans hy
      exact htold
    · cases hx.symm.trans hy
      exact hdoes
  leave := fun hs => ⟨hs, fun _ _ b _ _ => .refl cfg b _⟩

lemma UsesTold.attributed {α : Type} {p : StoreProg α} {adds : List EpisodeAdd} {i : ℕ}
    {x : EpisodeAdd} (hx : adds[i]? = some x)
    (hp : p.UsesTold (x.tvShow.Own cfg) (x.tvShow.Told cfg) fun _ => True) :
    p.UsesTold (fun o => ∃ x, adds[i]? = some x ∧ x.tvShow.Own cfg o)
      (fun o r => ∀ x, adds[i]? = some x → x.tvShow.Told cfg o r) fun _ => True := by
  induction p with
  | ret a => exact trivial
  | perform o k ih => exact ⟨⟨x, hx, hp.1⟩, fun r hr => ih r (hp.2 r (hr x hx))⟩

/-- A key belongs to one folder, one season and one episode exactly while shows
with the same letters and digits in their titles share their folder. Then no
step of an add changes a row or a stub of a show in another folder, however
many adds run side by side. -/
theorem adds_leave_other_folders_alone :
    (Separate shows ↔ ∀ a ∈ shows, ∀ b ∈ shows, ∀ season episode season' episode',
      a.key season episode = b.key season' episode' →
        a.folder = b.folder ∧ season = season' ∧ episode = episode') ∧
    (Separate shows → ∀ (cfg : LibraryConfig) (adds : List EpisodeAdd) (s : Store)
      (ls : List (ℕ × Move StoreChoice))
      (c c' : Config StoreCall StoreCall.Res (Option (List Path) × List String) Store) (i : ℕ)
      (m : Move StoreChoice) (x : EpisodeAdd), (∀ y ∈ adds, y.tvShow ∈ shows) →
      Filed cfg shows s → Run addSystem.Step (addsTogether cfg adds s) ls c →
      addSystem.Step c (i, m) c' → adds[i]? = some x →
      ∀ b ∈ shows, b.folder ≠ x.tvShow.folder → Untouched cfg b c.state c'.state) := by
  refine ⟨⟨fun hsep a ha b hb season episode season' episode' hkey => ?_,
    fun h a ha b hb htitle => ?_⟩, ?_⟩
  · exact ⟨folder_eq_of_key hsep ha hb hkey, (key_inj hkey).2⟩
  · have hkey : a.key 1 1 = b.key 1 1 := by rw [TvShow.key, TvShow.key, htitle]
    exact (h a ha b hb 1 1 1 1 hkey).1
  intro hsep cfg adds s ls c c' i m x hadds hs hrun hstep hx b hb hfolder
  have hstart : (addManners cfg hsep adds hadds).Kept (addsTogether cfg adds s) := by
    refine ⟨hs, fun j p hp => ?_⟩
    obtain ⟨y, hy, rfl⟩ : ∃ y, adds[j]? = some y ∧ y.program cfg = p := by
      simpa [addsTogether] using hp
    exact UsesTold.attributed hy told_addEpisodes
  exact ((hstart.run hrun).step hstep).2 x hx b hb hfolder

/-! ### Two shows of one title, and two of different ones -/

def episodeAdd (tvShow : TvShow) (hash : String) (valid : InfoHash hash) : EpisodeAdd :=
  ⟨tvShow, showRequest hash "" 1 valid, hash, [⟨1, "pack/S01E01.mkv", 5⟩]⟩

/-- One add makes a number of calls, all of which succeed. -/
def addSpell (i count ino : ℕ) : List (ℕ × Move StoreChoice) :=
  (range count).map fun k => (i, .act ⟨false, false, true, ino + k, .keyed, []⟩)

def classicWho : TvShow := ⟨"Doctor Who", "1963-11-23"⟩

def modernWho : TvShow := ⟨"Doctor Who", "2005-03-26"⟩

def torchwood : TvShow := ⟨"Torchwood", "2006-10-22"⟩

def classicStub : Path :=
  ["tv", "Doctor_Who (1963)", "Season.01", "Doctor_Who_S01E01_00112233.mkv"]

def modernStub : Path :=
  ["tv", "Doctor_Who (2005)", "Season.01", "Doctor_Who_S01E01_ffeeddcc.mkv"]

/-- Both add their first episode, the second after the first has ended. -/
def whoAdds : List EpisodeAdd :=
  [episodeAdd classicWho packHash packHash_valid, episodeAdd modernWho alphaHash alphaHash_valid]

theorem same_title_loses_row_and_stub :
    classicWho.folder ≠ modernWho.folder ∧
    ∃ c c', Run addSystem.Step (addsTogether mediaServer whoAdds emptyLibrary.store)
        (addSpell 0 9 10) c ∧
      (c.state.episodes.lookup (classicWho.key 1 1)).map (·.filePath) = some classicStub ∧
      (c.state.media.node classicStub).isSome = true ∧
      Run addSystem.Step c (addSpell 1 10 100) c' ∧
      (c'.state.episodes.lookup (classicWho.key 1 1)).map (·.filePath) = some modernStub ∧
      c'.state.media.node classicStub = none := by
  obtain ⟨c, hc, hrow, hstub, c', hc', hrow', hgone⟩ : ∃ c ∈ runSchedule addSystem
      (fun _ _ _ => True) (addsTogether mediaServer whoAdds emptyLibrary.store) (addSpell 0 9 10),
      (c.state.episodes.lookup (classicWho.key 1 1)).map (·.filePath) = some classicStub ∧
      (c.state.media.node classicStub).isSome = true ∧
      ∃ c' ∈ runSchedule addSystem (fun _ _ _ => True) c (addSpell 1 10 100),
        (c'.state.episodes.lookup (classicWho.key 1 1)).map (·.filePath) = some modernStub ∧
        (c'.state.media.node classicStub).isNone = true := by decide +kernel
  refine ⟨by decide, c, c', (run_of_runSchedule hc).mono fun _ _ _ h => h.2, hrow, hstub,
    (run_of_runSchedule hc').mono fun _ _ _ h => h.2, hrow', ?_⟩
  exact Option.isNone_iff_eq_none.mp hgone

def otherAdds : List EpisodeAdd :=
  [episodeAdd classicWho packHash packHash_valid, episodeAdd torchwood alphaHash alphaHash_valid]

/-- The other show's last call leaves the first one's stub where it is. -/
theorem other_title_keeps_row_and_stub :
    ∃ c c', Run addSystem.Step (addsTogether mediaServer otherAdds emptyLibrary.store)
        (addSpell 0 9 10 ++ addSpell 1 8 100) c ∧
      (c.state.media.node classicStub).isSome = true ∧
      addSystem.Step c (1, .act ⟨false, false, true, 108, .keyed, []⟩) c' ∧
      Untouched mediaServer classicWho c.state c'.state := by
  obtain ⟨c, hc, hstub, c', hc', -⟩ : ∃ c ∈ runSchedule addSystem (fun _ _ _ => True)
      (addsTogether mediaServer otherAdds emptyLibrary.store) (addSpell 0 9 10 ++ addSpell 1 8 100),
      (c.state.media.node classicStub).isSome = true ∧
      ∃ c' ∈ addSystem.step c (1, .act ⟨false, false, true, 108, .keyed, []⟩), True := by
    decide +kernel
  have hrun := (run_of_runSchedule hc).mono fun _ _ _ h => h.2
  have hsep : Separate ({classicWho, torchwood} : Set TvShow) := by
    rintro a (rfl | rfl) b (rfl | rfl) hkey
    · rfl
    · exact absurd hkey (by decide)
    · exact absurd hkey (by decide)
    · rfl
  refine ⟨c, c', hrun, hstub, hc', ?_⟩
  refine adds_leave_other_folders_alone.2 hsep mediaServer otherAdds _ _ c c' 1 _ _ ?_ ?_ hrun
    hc' rfl classicWho (.inl rfl) (by decide)
  · intro y hy
    rcases mem_cons.mp hy with rfl | hy
    · exact .inl rfl
    · rw [mem_singleton.mp hy]
      exact .inr rfl
  · intro k entry hk
    cases hk

end Tiramisu.Library
