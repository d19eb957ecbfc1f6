import Tiramisu.Go.Sort
import Tiramisu.MusicImport.CueMatching

/-!
# Which torrents an album may come from

`SelectCandidates` keeps the results whose title names a lossless release of the
album.  Artist and album are compared by their tokens, the words of the name
without short and common ones; for a self-titled album the two token lists have
to stand one after the other in the title.  The title keeps all its words, so
that is sure to be found only where the name has no word that is dropped.
-/

namespace Tiramisu.MusicImport

open Go List

structure ProwlarrResult where
  title : String
  infoHash : String
  downloadUrl : String
  seeders : ℤ
  size : ℤ
  deriving DecidableEq

structure Candidate where
  title : String
  hash : String
  downloadURL : String
  seeders : ℤ
  size : ℤ
  score : ℤ
  deriving DecidableEq

def minAlbumBytes : ℤ := 15 * 2 ^ 20

/-- `strings.Contains`. -/
def contains (s : List Char) (sub : String) : Bool := decide (sub.toList <:+: s)

/-! ### Tokens -/

/-- The loop of `strings.Fields`; `word` is the field it is in. -/
def fieldsFrom (word : List Char) : List Char → List (List Char)
  | [] => if word = [] then [] else [word]
  | c :: cs =>
    if c = ' ' then (if word = [] then [] else [word]) ++ fieldsFrom [] cs
    else fieldsFrom (word ++ [c]) cs

/-- `strings.Fields` of a normalized title, whose only white space is the blank. -/
def fields (s : String) : List (List Char) := fieldsFrom [] s.toList

def stop : List String :=
  ["the", "and", "a", "an", "of", "vol", "cd", "disc", "deluxe", "edition", "remastered"]

def comparable (token : List Char) : Bool := 3 ≤ token.length && String.ofList token ∉ stop

def normalizeTokens (names : Names) (s : String) : List (List Char) :=
  (fields (normalizeTitle names s)).filter comparable

/-- How many of `want` appear in the normalized title. -/
def tokenMatch (title : List Char) (want : List (List Char)) : ℕ :=
  want.countP fun token => contains title (String.ofList (' ' :: token ++ [' '])) ||
    (token ++ [' ']).isPrefixOf title || (' ' :: token).isSuffixOf title

def countOf (counts : GoMap (List Char) ℤ) (token : List Char) : ℤ := (counts.lookup token).getD 0

def sameTokens (a b : List (List Char)) : Bool :=
  if a.length = 0 ∨ a.length ≠ b.length then false
  else
    let counts := a.foldl (fun m token => m.insert token (countOf m token + 1)) ∅
    match b.foldlM (fun (m : GoMap (List Char) ℤ) token =>
      if countOf m token - 1 < 0 then none else some (m.insert token (countOf m token - 1))) counts with
    | none => false
    | some counts => counts.entries.all fun left => left.2 = 0

def selfTitledPhrase (tokens : List (List Char)) : String :=
  let joined := [' '].intercalate tokens
  String.ofList ([' '] ++ joined ++ [' '] ++ joined ++ [' '])

/-! ### Candidates -/

def losslessTitle (title : List Char) : Bool :=
  contains title " flac " || contains title " tr24 " &&
    [" ape ", " wv ", " wavpack ", " wav ", " alac ", " dsd ", " dsf ", " dff ", " mp3 ", " aac "].all
      fun format => !contains title format

/-- `strings.TrimSpace`. -/
def trimSpace (names : Names) (s : String) : String :=
  String.ofList ((s.toList.dropWhile names.isSpace).reverse.dropWhile names.isSpace).reverse

def scoreOf (artistTokens albumTokens : List (List Char)) (title : List Char) (seeders : ℤ) : ℤ :=
  min seeders 50
    + (if 0 < albumTokens.length ∧ tokenMatch title albumTokens = albumTokens.length then 40 else 0)
    + (if tokenMatch title artistTokens = artistTokens.length then 15 else 0)
    + (if contains title " eac " || " eac".toList.isSuffixOf title then 10 else 0)
    + (if contains title " 24 " || contains title "24bit" || contains title " tr24 " then 5 else 0)

/-- The loop of `SelectCandidates` for one result. -/
def candidateOf (names : Names) (artistTokens albumTokens : List (List Char))
    (minSeeders maxSizeBytes : ℤ) (result : ProwlarrResult) : Option Candidate :=
  let hash := String.ofList ((trimSpace names result.infoHash).toList.map names.toLower)
  let link := trimSpace names result.downloadUrl
  let title := (normalizeTitle names result.title).toList
  if hash = "" ∧ link = "" then none
  else if losslessTitle title = false then none
  else if result.seeders < minSeeders then none
  else if result.size < minAlbumBytes ∨ 0 < maxSizeBytes ∧ maxSizeBytes < result.size then none
  else if 0 < albumTokens.length ∧ tokenMatch title albumTokens = 0 then none
  else if 0 < artistTokens.length ∧ tokenMatch title artistTokens = 0 then none
  else if sameTokens artistTokens albumTokens
      && !contains title (selfTitledPhrase artistTokens) then none
  else some ⟨result.title, hash, link, result.seeders, result.size,
    scoreOf artistTokens albumTokens title result.seeders⟩

def better (a b : Candidate) : Bool :=
  if a.score ≠ b.score then b.score < a.score
  else if a.seeders ≠ b.seeders then b.seeders < a.seeders
  else a.size < b.size

def selectCandidates (names : Names) (sort : Sorter) (results : List ProwlarrResult)
    (artist album : String) (minSeeders maxSizeBytes limit : ℤ) : List Candidate :=
  let albumTokens := normalizeTokens names album
  let artistTokens := normalizeTokens names artist
  if trimSpace names album ≠ "" ∧ albumTokens = [] then []
  else
    let candidates := sort.slice better (results.filterMap
      (candidateOf names artistTokens albumTokens minSeeders maxSizeBytes))
    if 0 < limit ∧ limit < candidates.length then candidates.take limit.toNat else candidates

/-! ### The two normalisations -/

variable {names : Names}

lemma normalizeFrom_append {c : Char} (hc : isAlphanumeric c = false) (lastSpace : Bool)
    (cs ds : List Char) : normalizeFrom lastSpace (cs ++ c :: ds)
      = normalizeFrom lastSpace cs ++ normalizeFrom true ds := by
  induction cs generalizing lastSpace with
  | nil => cases lastSpace <;> simp [normalizeFrom, hc]
  | cons d cs ih =>
    simp only [cons_append, normalizeFrom]
    split_ifs <;> simp [ih]

/-- The fields of what is normalized, each followed by a blank, are all of it. -/
lemma flatMap_fieldsFrom {lastSpace : Bool} {word : List Char} (h : lastSpace = true ↔ word = [])
    (cs : List Char) : (fieldsFrom word (normalizeFrom lastSpace cs)).flatMap (· ++ [' '])
      = word ++ normalizeFrom lastSpace cs := by
  induction cs generalizing lastSpace word with
  | nil => cases lastSpace <;> simp_all [normalizeFrom, fieldsFrom]
  | cons c cs ih =>
    unfold normalizeFrom
    split_ifs with hc hlast
    · have hne : c ≠ ' ' := by
        rintro rfl
        exact absurd hc (by decide)
      rw [fieldsFrom, if_neg hne, ih (by simp)]
      simp
    · subst hlast
      exact ih h
    · have hword : word ≠ [] := fun heq => hlast (h.mpr heq)
      simp [fieldsFrom, hword, ih]

/-- A normalized name without its leading blank. -/
def spelled (names : Names) (s : String) : List Char := normalizeFrom true (s.toList.map names.toLower)

lemma toList_normalizeTitle (s : String) :
    (normalizeTitle names s).toList = ' ' :: spelled names s := by
  simp [normalizeTitle, spelled]

lemma spelled_eq (s : String) :
    (fields (normalizeTitle names s)).flatMap (· ++ [' ']) = spelled names s := by
  rw [fields, toList_normalizeTitle, fieldsFrom]
  exact flatMap_fieldsFrom (by simp) _

/-- The tables of `unicode` agree with those of ASCII on its characters. -/
def Names.ExtendsASCII (names : Names) : Prop :=
  ∀ c : Char, c.toNat < 128 → names.toLower c = c.toLower ∧ names.isSpace c = isSpaceASCII c

lemma spelled_self_titled (hnames : names.ExtendsASCII)
    {name tags : String} (hsep : ∀ c ∈ tags.toList.head?, isAlphanumeric (names.toLower c) = false) :
    spelled names (name ++ " - " ++ name ++ tags)
      = spelled names name ++ (spelled names name ++ spelled names tags) := by
  have hskip : ∀ cs, normalizeFrom true ('-' :: ' ' :: cs) = normalizeFrom true cs := fun _ => rfl
  have hlist : (name ++ " - " ++ name ++ tags).toList.map names.toLower
      = name.toList.map names.toLower ++ ' ' :: '-' :: ' ' :: (name.toList.map names.toLower
        ++ tags.toList.map names.toLower) := by
    have hblank : names.toLower ' ' = ' ' := (hnames ' ' (by decide)).1
    have hdash : names.toLower '-' = '-' := (hnames '-' (by decide)).1
    simp [hblank, hdash]
  rw [spelled, hlist, normalizeFrom_append (by decide), hskip]
  unfold spelled
  congr 1
  cases htags : tags.toList with
  | nil => simp [normalizeFrom]
  | cons c cs =>
    have hc := hsep c (by simp [htags])
    rw [map_cons, normalizeFrom_append hc]
    simp [normalizeFrom, hc]

lemma intercalate_append {tokens : List (List Char)} (h : tokens ≠ []) :
    [' '].intercalate tokens ++ [' '] = tokens.flatMap (· ++ [' ']) := by
  induction tokens with
  | nil => exact absurd rfl h
  | cons token tokens ih =>
    cases tokens with
    | nil => simp
    | cons t ts =>
      rw [flatMap_cons, ← ih (by simp)]
      simp [intercalate]

lemma prefix_of_spelled {l m : List (List Char)} (hl : ∀ w ∈ l, ' ' ∉ w) (hm : ∀ w ∈ m, ' ' ∉ w)
    (h : l.flatMap (· ++ [' ']) <+: m.flatMap (· ++ [' '])) : l <+: m := by
  induction l generalizing m with
  | nil => exact nil_prefix
  | cons w l ih =>
    obtain ⟨rest, hrest⟩ := h
    cases m with
    | nil => simp at hrest
    | cons x m =>
      rw [forall_mem_cons] at hl hm
      have hflat : w ++ ' ' :: (l.flatMap (· ++ [' ']) ++ rest)
          = x ++ ' ' :: m.flatMap (· ++ [' ']) := by simpa using hrest
      have hlen : w.length = x.length := by
        simpa [idxOf_append_of_notMem hl.1, idxOf_append_of_notMem hm.1] using
          congrArg (idxOf ' ') hflat
      obtain ⟨rfl, htail⟩ := append_inj hflat hlen
      exact (prefix_cons_inj w).mpr (ih hl.2 hm.2 ⟨rest, (cons.inj htail).2⟩)

/-- Words with blanks around them are found only where they stand one after the other. -/
lemma infix_of_spelled {l m : List (List Char)} (hl : ∀ w ∈ l, ' ' ∉ w) (hm : ∀ w ∈ m, ' ' ∉ w)
    (h : ' ' :: l.flatMap (· ++ [' ']) <:+: ' ' :: m.flatMap (· ++ [' '])) : l <:+: m := by
  -- the first blank is none of a word's characters
  have hskip : ∀ {p r w : List Char}, ' ' ∉ w → ' ' :: p <:+: w ++ r → ' ' :: p <:+: r := by
    intro p r w hw h
    induction w with
    | nil => exact h
    | cons c w ih =>
      rw [mem_cons, not_or] at hw
      rcases infix_cons_iff.mp h with h | h
      · exact absurd (prefix_cons_iff.mp h) (by simp [hw.1])
      · exact ih hw.2 h
  induction m with
  | nil =>
    rcases infix_cons_iff.mp h with h | h
    · exact (prefix_of_spelled hl hm ((prefix_cons_inj ' ').mp h)).isInfix
    · simp at h
  | cons x m ih =>
    rcases infix_cons_iff.mp h with h | h
    · exact (prefix_of_spelled hl hm ((prefix_cons_inj ' ').mp h)).isInfix
    · rw [forall_mem_cons] at hm
      rw [flatMap_cons, append_assoc] at h
      exact (ih hm.2 (hskip hm.1 h)).trans (suffix_cons x m).isInfix

lemma notMem_of_mem_fieldsFrom {word cs w : List Char} (hword : ' ' ∉ word)
    (h : w ∈ fieldsFrom word cs) : ' ' ∉ w := by
  induction cs generalizing word with
  | nil =>
    rw [fieldsFrom] at h
    split_ifs at h
    · cases h
    · rwa [mem_singleton.mp h]
  | cons c cs ih =>
    rw [fieldsFrom] at h
    split_ifs at h with hc hnil
    · exact ih not_mem_nil h
    · rcases mem_append.mp h with h | h
      · rwa [mem_singleton.mp h]
      · exact ih not_mem_nil h
    · exact ih (by simp [hword, Ne.symm hc]) h

/-- Comparable words that stand together in a text stand on one side of any other word. -/
lemma infix_of_infix_append_cons {l x y : List (List Char)} {w : List Char}
    (hl : ∀ token ∈ l, comparable token = true) (hw : comparable w = false) (h : l <:+: x ++ w :: y) :
    l <:+: x ∨ l <:+: y := by
  have hnot : w ∉ l := fun h => by simpa [hw] using hl w h
  obtain ⟨p, q, heq⟩ := h
  rcases append_eq_append_iff.mp heq with ⟨c, hx, -⟩ | ⟨c, hpl, hq⟩
  · exact .inl ⟨p, c, hx.symm⟩
  cases c with
  | nil => exact .inl ⟨p, [], by simpa using hpl⟩
  | cons d c =>
    obtain ⟨rfl, rfl⟩ := cons.inj hq
    rcases append_eq_append_iff.mp hpl with ⟨a, -, hl⟩ | ⟨a, -, hl⟩
    · exact absurd (hl ▸ mem_append_right a mem_cons_self) hnot
    · cases a with
      | nil => exact absurd (nil_append l ▸ hl ▸ mem_cons_self) hnot
      | cons b a =>
        obtain ⟨-, rfl⟩ := cons.inj hl
        exact .inr ⟨a, q, rfl⟩

/-- A name with a word that is dropped: its tokens do not stand twice in a row before a short tag. -/
lemma not_twice_in_title {words : List (List Char)} {w tag : List Char} (hmem : w ∈ words)
    (hw : comparable w = false) (htokens : words.filter comparable ≠ []) :
    ¬ words.filter comparable ++ words.filter comparable <:+: words ++ (words ++ [['a'], tag]) := by
  intro h
  have hall : ∀ token ∈ words.filter comparable ++ words.filter comparable,
      comparable token = true := by
    intro token htoken
    exact (mem_filter.mp ((mem_append.mp htoken).elim id id)).2
  have hcount : ∀ x, words.filter comparable ++ words.filter comparable <:+: x →
      2 * words.countP comparable ≤ x.countP comparable := by
    intro x hx
    have hle := hx.sublist.countP_le (p := comparable)
    rw [countP_append, ← two_mul, countP_filter] at hle
    simpa only [Bool.and_self] using hle
  have hpos : 0 < words.countP comparable := by
    rw [countP_eq_length_filter]
    exact length_pos_iff.mpr htokens
  obtain ⟨u, v, rfl⟩ := append_of_mem hmem
  have hparts : (u ++ w :: v).countP comparable = u.countP comparable + v.countP comparable := by
    simp [hw]
  rw [append_assoc, cons_append] at h
  rcases infix_of_infix_append_cons hall hw h with h | h
  · have := hcount _ h
    omega
  rw [append_assoc, ← append_assoc, cons_append] at h
  rcases infix_of_infix_append_cons hall hw h with h | h
  · have := (hcount _ h).trans_eq countP_append
    omega
  rcases infix_of_infix_append_cons hall rfl h with h | h
  · have := hcount _ h
    omega
  · have hone := (hcount _ h).trans countP_le_length
    rw [length_singleton] at hone
    omega

/-! ### Self-titled albums -/

lemma countOf_insert (m : GoMap (List Char) ℤ) (token t : List Char) (n : ℤ) :
    countOf (m.insert token n) t = if t = token then n else countOf m t := by
  unfold countOf
  split_ifs with h
  · rw [h, AList.lookup_insert]
    rfl
  · rw [AList.lookup_insert_ne h]

lemma countOf_foldl (tokens : List (List Char)) (m : GoMap (List Char) ℤ) (t : List Char) :
    countOf (tokens.foldl (fun m token => m.insert token (countOf m token + 1)) m) t
      = countOf m t + tokens.count t := by
  induction tokens generalizing m with
  | nil => simp
  | cons token tokens ih =>
    rw [foldl_cons, ih, countOf_insert]
    split_ifs with h
    · subst h
      rw [count_cons_self]
      omega
    · rw [count_cons_of_ne (Ne.symm h)]

lemma exists_of_counted {tokens : List (List Char)} {m : GoMap (List Char) ℤ}
    (h : ∀ t, countOf m t = tokens.count t) :
    ∃ m', tokens.foldlM (fun (m : GoMap (List Char) ℤ) token => if countOf m token - 1 < 0 then none
      else some (m.insert token (countOf m token - 1))) m = some m' ∧ ∀ t, countOf m' t = 0 := by
  induction tokens generalizing m with
  | nil => exact ⟨m, rfl, fun t => by simp [h]⟩
  | cons token tokens ih =>
    have hself : countOf m token = tokens.count token + 1 := by simp [h]
    rw [foldlM_cons, if_neg (by omega), Option.bind_eq_bind, Option.bind_some]
    apply ih
    intro t
    rw [countOf_insert]
    split_ifs with ht
    · rw [ht]
      omega
    · simp [h, Ne.symm ht]

lemma sameTokens_self {tokens : List (List Char)} (h : tokens ≠ []) :
    sameTokens tokens tokens = true := by
  obtain ⟨m, hm, hzero⟩ := @exists_of_counted tokens (tokens.foldl
    (fun m token => m.insert token (countOf m token + 1)) ∅) fun t => by
      rw [countOf_foldl]
      simp [countOf]
  unfold sameTokens
  rw [if_neg (by simpa using h)]
  simp only [hm, all_eq_true, decide_eq_true_eq]
  intro left hleft
  have hlookup : m.lookup left.1 = some left.2 := AList.mem_lookup_iff.mpr hleft
  have := hzero left.1
  rwa [countOf, hlookup] at this

lemma tokenMatch_ne_zero {tokens : List (List Char)} {rest : List Char} (h : tokens ≠ []) :
    tokenMatch (' ' :: (tokens.flatMap (· ++ [' ']) ++ rest)) tokens ≠ 0 := by
  cases tokens with
  | nil => exact absurd rfl h
  | cons t ts =>
    apply Nat.ne_of_gt
    apply countP_pos_iff.mpr
    refine ⟨t, mem_cons_self, ?_⟩
    have hwithin : contains (' ' :: ((t :: ts).flatMap (· ++ [' ']) ++ rest))
        (String.ofList (' ' :: t ++ [' '])) = true :=
      decide_eq_true ⟨[], ts.flatMap (· ++ [' ']) ++ rest, by simp⟩
    rw [hwithin, Bool.true_or, Bool.true_or]

section SelfTitled

variable {result : ProwlarrResult} {name tags : String} {minSeeders maxSizeBytes limit : ℤ}

/-- A title that spells the tokens out twice before its tags passes every check. -/
lemma candidateOf_self_titled {tokens : List (List Char)} (hsome : tokens ≠ [])
    (hnorm : (normalizeTitle names result.title).toList = ' ' :: (tokens.flatMap (· ++ [' '])
      ++ (tokens.flatMap (· ++ [' ']) ++ spelled names tags)))
    (hflac : contains (normalizeTitle names tags).toList " flac " = true)
    (hhash : trimSpace names result.infoHash ≠ "") (hseeders : minSeeders ≤ result.seeders)
    (hsize : minAlbumBytes ≤ result.size) (hmax : 0 < maxSizeBytes → result.size ≤ maxSizeBytes) :
    ∃ score, candidateOf names tokens tokens minSeeders maxSizeBytes result
      = some ⟨result.title, String.ofList ((trimSpace names result.infoHash).toList.map names.toLower),
        trimSpace names result.downloadUrl, result.seeders, result.size, score⟩ := by
  have hjoin := intercalate_append hsome
  have hmatch : tokenMatch (normalizeTitle names result.title).toList tokens ≠ 0 :=
    hnorm ▸ tokenMatch_ne_zero hsome
  have hphrase : contains (normalizeTitle names result.title).toList (selfTitledPhrase tokens)
      = true := by
    refine decide_eq_true ⟨[], spelled names tags, ?_⟩
    simp [selfTitledPhrase, hnorm, ← hjoin]
  -- what is spelled before the tags ends in a blank
  have hlossless : contains (normalizeTitle names result.title).toList " flac " = true := by
    rw [toList_normalizeTitle] at hflac
    apply decide_eq_true
    apply (of_decide_eq_true hflac).trans
    refine ⟨' ' :: (tokens.flatMap (· ++ [' ']) ++ [' '].intercalate tokens), [], ?_⟩
    simp [hnorm, ← hjoin]
  unfold candidateOf
  rw [if_neg, if_neg, if_neg (not_lt.mpr hseeders), if_neg, if_neg fun h => hmatch h.2,
    if_neg fun h => hmatch h.2, if_neg]
  · exact ⟨_, rfl⟩
  · simp [hphrase]
  · rw [not_or, not_lt, not_and, not_lt]
    exact ⟨hsize, hmax⟩
  · simp [losslessTitle, hlossless]
  · simpa using fun h => absurd h hhash

lemma separate_tags (hnames : names.ExtendsASCII) :
    ∀ c ∈ " a FLAC".toList.head?, isAlphanumeric (names.toLower c) = false := by
  intro c hc
  obtain rfl : c = ' ' := by simpa using hc.symm
  rw [(hnames ' ' (by decide)).1]
  rfl

lemma spelled_tags (hnames : names.ExtendsASCII) :
    spelled names " a FLAC" = [['a'], "flac".toList].flatMap (· ++ [' ']) := by
  have hascii : ∀ c ∈ " a FLAC".toList, c.toNat < 128 := forall_mem_of_all (by decide)
  have hlist : " a FLAC".toList.map names.toLower = " a flac".toList :=
    map_congr_left fun c hc => (hnames c (hascii c hc)).1
  rw [spelled, hlist]
  rfl

/-- With a word that is dropped, the phrase is not in the title before the tags ` a FLAC`. -/
lemma candidateOf_eq_none (hnames : names.ExtendsASCII)
    (htitle : result.title = name ++ " - " ++ name ++ " a FLAC")
    (hsome : normalizeTokens names name ≠ [])
    (hdropped : ¬ ∀ token ∈ fields (normalizeTitle names name), comparable token = true) :
    candidateOf names (normalizeTokens names name) (normalizeTokens names name)
      minSeeders maxSizeBytes result = none := by
  set words := fields (normalizeTitle names name)
  have hnorm : (normalizeTitle names result.title).toList
      = ' ' :: (words ++ (words ++ [['a'], "flac".toList])).flatMap (· ++ [' ']) := by
    rw [htitle, toList_normalizeTitle, spelled_self_titled hnames (separate_tags hnames),
      spelled_tags hnames,
      ← spelled_eq name, flatMap_append, flatMap_append]
  have hphrase : (selfTitledPhrase (normalizeTokens names name)).toList
      = ' ' :: (normalizeTokens names name ++ normalizeTokens names name).flatMap (· ++ [' ']) := by
    simp [selfTitledPhrase, ← intercalate_append hsome]
  have hwords : ∀ w ∈ words, ' ' ∉ w := fun w => notMem_of_mem_fieldsFrom not_mem_nil
  have hmissed : contains (normalizeTitle names result.title).toList
      (selfTitledPhrase (normalizeTokens names name)) = false := by
    refine decide_eq_false fun h => ?_
    rw [hphrase, hnorm] at h
    simp only [not_forall] at hdropped
    obtain ⟨w, hmem, hw⟩ := hdropped
    refine not_twice_in_title hmem (by simpa using hw) hsome (infix_of_spelled ?_ ?_ h)
    · exact fun t ht => hwords t (mem_filter.mp ((mem_append.mp ht).elim id id)).1
    · simp only [mem_append]
      rintro w (h | h | h)
      · exact hwords w h
      · exact hwords w h
      · revert w
        decide
  unfold candidateOf
  simp [hmissed, sameTokens_self hsome]

/-- A release of a self-titled album is selected whatever its tags exactly if no word of the name
is short or common: then the tokens are the words as the title spells them. -/
theorem self_titled_release_is_selected (hnames : names.ExtendsASCII)
    (hsome : normalizeTokens names name ≠ []) :
    (∀ (sort : Sorter) (results : List ProwlarrResult) (minSeeders maxSizeBytes limit : ℤ)
        (tags : String), ∀ result ∈ results, result.title = name ++ " - " ++ name ++ tags →
      (∀ c ∈ tags.toList.head?, isAlphanumeric (names.toLower c) = false) →
      contains (normalizeTitle names tags).toList " flac " = true →
      trimSpace names result.infoHash ≠ "" → minSeeders ≤ result.seeders →
      minAlbumBytes ≤ result.size → (0 < maxSizeBytes → result.size ≤ maxSizeBytes) → limit ≤ 0 →
      ∃ c ∈ selectCandidates names sort results name name minSeeders maxSizeBytes limit,
        c.title = result.title ∧ c.downloadURL = trimSpace names result.downloadUrl ∧
        c.hash = String.ofList ((trimSpace names result.infoHash).toList.map names.toLower)) ↔
    ∀ token ∈ fields (normalizeTitle names name), comparable token = true := by
  constructor
  · intro h
    by_contra hdropped
    have hhash : trimSpace names "0" ≠ "" := by
      simp [trimSpace, (hnames '0' (by decide)).2, isSpaceASCII]
    have hflac : contains (normalizeTitle names " a FLAC").toList " flac " = true := by
      rw [toList_normalizeTitle, spelled_tags hnames]
      decide
    obtain ⟨c, hc, -⟩ := h .insertion [⟨name ++ " - " ++ name ++ " a FLAC", "0", "", 0, minAlbumBytes⟩]
      0 0 0 " a FLAC" _ mem_cons_self rfl (separate_tags hnames) hflac hhash le_rfl le_rfl
      (fun h => absurd h (lt_irrefl 0)) le_rfl
    unfold selectCandidates at hc
    rw [if_neg fun h => hsome h.2, if_neg fun h => absurd h.1 (lt_irrefl 0), filterMap_cons_none
      (candidateOf_eq_none hnames rfl hsome hdropped)] at hc
    exact absurd ((Sorter.perm _ _ _).mem_iff.mp hc) not_mem_nil
  · intro hall sort results minSeeders maxSizeBytes limit tags result hmem htitle hsep hflac hhash
      hseeders hsize hmax hlimit
    have hspelled : (normalizeTokens names name).flatMap (· ++ [' ']) = spelled names name := by
      rw [normalizeTokens, filter_eq_self.mpr hall]
      exact spelled_eq name
    have hnorm : (normalizeTitle names result.title).toList
        = ' ' :: ((normalizeTokens names name).flatMap (· ++ [' '])
          ++ ((normalizeTokens names name).flatMap (· ++ [' ']) ++ spelled names tags)) := by
      rw [htitle, toList_normalizeTitle, spelled_self_titled hnames hsep, hspelled]
    obtain ⟨score, hcand⟩ := candidateOf_self_titled hsome hnorm hflac hhash hseeders hsize hmax
    unfold selectCandidates
    rw [if_neg fun h => hsome h.2]
    rw [if_neg fun h => absurd h.1 (not_lt.mpr hlimit)]
    exact ⟨_, (sort.perm _ _).mem_iff.mpr (mem_filterMap.mpr ⟨result, hmem, hcand⟩), rfl, rfl, rfl⟩

end SelfTitled

def karate : ProwlarrResult :=
  ⟨"Karate - Karate (1996) [FLAC]", "0123456789abcdef0123456789abcdef01234567", "", 3, 2 ^ 28⟩

theorem karate_is_selected :
    ∃ c ∈ selectCandidates asciiNames .insertion [karate] "Karate" "Karate" 1 0 0,
      c.title = karate.title := by
  obtain ⟨c, hc, htitle, -⟩ := (@self_titled_release_is_selected asciiNames "Karate"
    (fun _ _ => ⟨rfl, rfl⟩) (by decide +kernel)).mpr (by decide +kernel) .insertion [karate] 1 0 0
    " (1996) [FLAC]" karate (mem_singleton_self karate) (by decide +kernel) (by simpa using by decide)
    (by decide +kernel) (by decide +kernel) (by decide) (by decide) (by decide) le_rfl
  exact ⟨c, hc, htitle⟩

/-- The phrase is looked for without the article that stands between. -/
theorem self_titled_band_is_missed :
    normalizeTokens asciiNames "The Band" = ["band".toList] ∧
    selectCandidates asciiNames .insertion
      [⟨"The Band - The Band (1969) [FLAC]", "0123456789abcdef0123456789abcdef01234567", "", 9, 2 ^ 28⟩]
      "The Band" "The Band" 1 0 0 = [] := by
  decide +kernel

end Tiramisu.MusicImport
