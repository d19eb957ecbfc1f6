import Tiramisu.Library.SectionWriter

/-!
# Info hashes and stub names

The two spellings of an info hash, the names and links that carry one, and how
it is read back from a stub.  The sanitised titles in a name do not depend on
the hash and are taken as given.
-/

namespace Tiramisu.Library

open List
open Go

/-! ### Spellings -/

def hexAlphabet : List Char :=
  ['0', '1', '2', '3', '4', '5', '6', '7', '8', '9', 'a', 'b', 'c', 'd', 'e', 'f']

def base32Alphabet : List Char :=
  ['a', 'b', 'c', 'd', 'e', 'f', 'g', 'h', 'i', 'j', 'k', 'l', 'm', 'n', 'o', 'p', 'q', 'r', 's',
    't', 'u', 'v', 'w', 'x', 'y', 'z', '2', '3', '4', '5', '6', '7']

/-- Forty hexadecimal digits, as the engine keys its torrents. -/
def HexHash (hash : String) : Prop := hash.toList.length = 40 ∧ ∀ c ∈ hash.toList, c ∈ hexAlphabet

instance (hash : String) : Decidable (HexHash hash) :=
  haveI := decidableBAll (· ∈ hexAlphabet) hash.toList
  instDecidableAnd

/-- `reInfoHash`: the hexadecimal or the base32 spelling. -/
def InfoHash (hash : String) : Prop :=
  HexHash hash ∨ hash.toList.length = 32 ∧ ∀ c ∈ hash.toList, c ∈ base32Alphabet

instance (hash : String) : Decidable (InfoHash hash) :=
  haveI := decidableBAll (· ∈ base32Alphabet) hash.toList
  instDecidableOr

/-- The last `k` hexadecimal digits of a number, leading zeros kept. -/
def hexText : ℕ → ℕ → List Char
  | 0, _ => []
  | k + 1, n => hexText k (n / 16) ++ [hexAlphabet.get ⟨n % 16, Nat.mod_lt n (by decide)⟩]

/-- The number a base32 text stands for, five bits a character. -/
def base32Number (cs : List Char) : Option ℕ :=
  if cs.all fun c => c ∈ base32Alphabet then
    some (cs.foldl (fun n c => n * 32 + base32Alphabet.idxOf c) 0)
  else none

/-- The spelling the engine uses: 32 base32 characters are 160 bits are 40
hexadecimal digits. -/
def canonicalHashKey (hash : String) : String :=
  let h := toLowerASCII (trimSpaceASCII hash)
  if h.toList.length ≠ 32 then h else
  match base32Number h.toList with
  | none => h
  | some n => String.ofList (hexText 40 n)

lemma hexHash_hexText (n : ℕ) : HexHash (String.ofList (hexText 40 n)) := by
  have hboth : ∀ k n, (hexText k n).length = k ∧ ∀ c ∈ hexText k n, c ∈ hexAlphabet := by
    intro k
    induction k with
    | zero => exact fun n => ⟨rfl, by simp [hexText]⟩
    | succ k ih =>
      intro n
      obtain ⟨hlen, hmem⟩ := ih (n / 16)
      refine ⟨by rw [hexText, length_append, hlen]; rfl, ?_⟩
      exact forall_mem_append.mpr ⟨hmem, forall_mem_singleton.mpr (get_mem _ _)⟩
  rw [HexHash, String.toList_ofList]
  exact hboth 40 n

lemma hex_lower_trim {hash : String}
    (h : ∀ c ∈ hash.toList, c ∈ hexAlphabet ∨ c ∈ base32Alphabet) :
    toLowerASCII (trimSpaceASCII hash) = hash := by
  have hhex : ∀ c ∈ hexAlphabet, isSpaceASCII c = false ∧ c.toLower = c :=
    forall_mem_of_all (by decide)
  have hbase : ∀ c ∈ base32Alphabet, isSpaceASCII c = false ∧ c.toLower = c :=
    forall_mem_of_all (by decide)
  have hboth : ∀ c ∈ hash.toList, isSpaceASCII c = false ∧ c.toLower = c := fun c hc =>
    (h c hc).elim (hhex c) (hbase c)
  rw [trimSpaceASCII_eq_self fun c hc => (hboth c hc).1,
    toLowerASCII_eq_self fun c hc => (hboth c hc).2]

lemma canonicalHashKey_of_hex {hash : String} (h : HexHash hash) : canonicalHashKey hash = hash := by
  have htext := hex_lower_trim fun c hc => Or.inl (h.2 c hc)
  simp [canonicalHashKey, htext, h.1]

lemma hexHash_canonicalHashKey {hash : String} (h : InfoHash hash) :
    HexHash (canonicalHashKey hash) := by
  rcases h with h | ⟨hlen, hchars⟩
  · rwa [canonicalHashKey_of_hex h]
  have htext := hex_lower_trim fun c hc => Or.inr (hchars c hc)
  have hall : (hash.toList.all fun c => c ∈ base32Alphabet) = true := by simpa using hchars
  simp only [canonicalHashKey, htext, hlen, ne_eq, not_true_eq_false, if_false, base32Number,
    hall, if_true]
  exact hexHash_hexText _

example : canonicalHashKey "aaaqeayeaudaocajbifqydiob4ibceqt"
    = "000102030405060708090a0b0c0d0e0f10111213" := by decide

/-! ### Names -/

/-- `HashSuffix`: the last eight characters. -/
def hashSuffix (hash : String) : String :=
  String.ofList (hash.toList.drop (hash.toList.length - 8))

/-- `HashPrefix`: the first eight characters. -/
def hashPrefix (hash : String) : String := String.ofList (hash.toList.take 8)

/-- `BuildMovieFilename` on the part of the name that comes from the titles. -/
def movieFilename (base hash : String) : String := base ++ "_" ++ hashSuffix hash ++ ".mkv"

/-- `EpisodeFilename` on a sanitised show name. -/
def episodeFilename (cleanShow : String) (season episode : ℕ) (hash8 : String) : String :=
  cleanShow ++ "_S" ++ pad2 season ++ "E" ++ pad2 episode ++ "_" ++ hash8 ++ ".mkv"

/-- `EpisodeKey` on a show name reduced to its lower-case letters and digits. -/
def episodeKey (showKey : String) (season episode : ℕ) : String :=
  showKey ++ "_s" ++ pad2 season ++ "e" ++ pad2 episode

def seasonDirName (season : ℕ) : String := "Season." ++ pad2 season

/-- One file of a torrent; `id` is the index its stream URL uses. -/
structure FileStat where
  id : ℤ
  path : String
  length : ℤ
  deriving DecidableEq, Repr

def isVideoFile (path : String) : Bool :=
  toLowerASCII (filepathExt path) ∈ [".mkv", ".mp4", ".avi", ".mov", ".m4v"]

/-- `strconv.Atoi` on a run of digits; a number that does not fit is the largest. -/
def atoi (digits : List Char) : ℕ :=
  min (digits.foldl (fun n c => n * 10 + (c.toNat - '0'.toNat)) 0) (2 ^ 63 - 1)

/-- Digits, one of the separators, digits, at the start of the text. -/
def numberPair (separators : List Char) (cs : List Char) : Option (ℕ × ℕ) :=
  let first := cs.takeWhile Char.isDigit
  match first, cs.dropWhile Char.isDigit with
  | _ :: _, sep :: rest =>
    let second := rest.takeWhile Char.isDigit
    if sep ∈ separators ∧ second ≠ [] then some (atoi first, atoi second) else none
  | _, _ => none

/-- `reEpSxxExx`: the first place where `S`, digits, `E`, digits stand. -/
def epSxxExx : List Char → Option (ℕ × ℕ)
  | [] => none
  | c :: cs =>
    if c = 'S' ∨ c = 's' then numberPair ['E', 'e'] cs <|> epSxxExx cs else epSxxExx cs

/-- `reEpNxN`: the first place where digits, `x`, digits stand. -/
def epNxN : List Char → Option (ℕ × ℕ)
  | [] => none
  | c :: cs => numberPair ['x'] (c :: cs) <|> epNxN cs

/-- Season and episode named by a file, zero when there are none. -/
def parseSeasonEpisode (filename : String) : ℕ × ℕ :=
  (epSxxExx filename.toList <|> epNxN filename.toList).getD (0, 0)

example : parseSeasonEpisode "Show.s02E11.1x03.mkv" = (2, 11) := by decide

example : parseSeasonEpisode "Show 1x03 1080p.mkv" = (1, 3) := by decide

/-! ### Links -/

def isHexDigit (c : Char) : Bool := c.toLower ∈ hexAlphabet

/-- `link=` and forty hexadecimal digits at the start of the text. -/
def linkHere (anyCase : Bool) (cs : List Char) : Option String :=
  let word := if anyCase then (cs.take 5).map Char.toLower else cs.take 5
  let digits := (cs.drop 5).take 40
  if word = ['l', 'i', 'n', 'k', '='] ∧ digits.length = 40 ∧ digits.all isHexDigit then
    some (String.ofList (digits.map Char.toLower))
  else none

def linkIn (anyCase : Bool) : List Char → Option String
  | [] => none
  | c :: cs => linkHere anyCase (c :: cs) <|> linkIn anyCase cs

/-- `reStubHash`, and `reTVHashURL` with `anyCase`: the hash of the first link,
lower-cased. -/
def linkHash (anyCase : Bool) (url : String) : Option String := linkIn anyCase url.toList

/-- The hash `readStub` finds.  An object that does not decode carries none; any
other text is a line-based stub with the URL on its first line. -/
def readStubHash : Content → Option String
  | .stub s => linkHash false s.url
  | .bytes text =>
    let content := trimSpaceASCII text
    if hasPrefix content "\x7b" then none
    else linkHash false (trimSpaceASCII (String.ofList (content.toList.takeWhile (· ≠ '\n'))))

/-- No link starts inside the text. -/
def Linkless (cs : List Char) : Prop := ∀ t, t <:+ cs → t.take 5 ≠ ['l', 'i', 'n', 'k', '=']

instance (cs : List Char) : Decidable (Linkless cs) :=
  decidable_of_iff (∀ t ∈ cs.tails, t.take 5 ≠ ['l', 'i', 'n', 'k', '=']) (by simp [Linkless])

lemma linkHere_link {hash : String} (h : HexHash hash) (rest : List Char) :
    linkHere false ("link=".toList ++ hash.toList ++ rest) = some hash := by
  have hdigit : ∀ c ∈ hexAlphabet, isHexDigit c = true ∧ c.toLower = c :=
    forall_mem_of_all (by decide)
  have hdrop : (("link=".toList ++ hash.toList ++ rest).drop 5).take 40 = hash.toList := by
    rw [append_assoc, drop_left' (by decide), take_left' h.1]
  have hword : ("link=".toList ++ hash.toList ++ rest).take 5 = ['l', 'i', 'n', 'k', '='] := by
    rw [append_assoc, take_left' (by decide)]
    decide
  have hall : (hash.toList.all isHexDigit) = true :=
    all_eq_true.mpr fun c hc => (hdigit c (h.2 c hc)).1
  simp only [linkHere, hdrop, hword, Bool.false_eq_true, if_false, h.1, hall, and_self, if_true]
  rw [map_congr_left fun c hc => (hdigit c (h.2 c hc)).2, map_id', String.ofList_toList]

/-- The text before a slash that starts no link is passed over. -/
lemma linkIn_append {cs rest : List Char} (h : Linkless cs) :
    linkIn false (cs ++ '/' :: rest) = linkIn false ('/' :: rest) := by
  induction cs with
  | nil => rfl
  | cons c cs ih =>
    have htail : Linkless cs := fun t ht => h t (ht.trans (suffix_cons c cs))
    have hhere : linkHere false (c :: cs ++ '/' :: rest) = none := by
      have hword : (c :: cs ++ '/' :: rest).take 5 ≠ ['l', 'i', 'n', 'k', '='] := by
        intro heq
        by_cases hlen : 5 ≤ (c :: cs).length
        · rw [take_append_of_le_length hlen] at heq
          exact h _ (suffix_refl _) heq
        -- the slash would be one of the five characters
        have hmem : '/' ∈ (c :: cs ++ '/' :: rest).take 5 := by
          have hlt : (c :: cs).length < 5 := by omega
          rw [mem_take_iff_getElem]
          refine ⟨(c :: cs).length, by simp; omega, ?_⟩
          simp
        rw [heq] at hmem
        exact absurd hmem (by decide)
      exact if_neg fun hc => hword hc.1
    rw [cons_append] at hhere ⊢
    rw [linkIn, hhere]
    exact ih htail

/-- A stream URL leads back to its torrent. -/
lemma linkHash_streamURL {goStormURL hash : String} (hbase : Linkless goStormURL.toList)
    (h : HexHash hash) (fileID : ℤ) :
    linkHash false (Manager.streamURL goStormURL hash fileID) = some hash := by
  have htext : (Manager.streamURL goStormURL hash fileID).toList = goStormURL.toList ++
      '/' :: ("stream?".toList ++ ("link=".toList ++ hash.toList ++
        ("&index=" ++ toString fileID ++ "&play").toList)) := by
    simp [Manager.streamURL, String.toList_append]
  rw [linkHash, htext, linkIn_append hbase]
  have hstream : ∀ tail : List Char,
      linkIn false ('/' :: ("stream?".toList ++ ('l' :: tail))) = linkIn false ('l' :: tail) := by
    intro tail
    simp [linkIn, linkHere]
  have hlink : "link=".toList ++ hash.toList ++ ("&index=" ++ toString fileID ++ "&play").toList
      = 'l' :: ("ink=".toList ++ hash.toList ++
        ("&index=" ++ toString fileID ++ "&play").toList) := rfl
  rw [hlink, hstream, ← hlink, hlink, linkIn, ← hlink, linkHere_link h]
  rfl

end Tiramisu.Library
