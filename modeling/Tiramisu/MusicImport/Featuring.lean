import Mathlib.Data.List.DropRight
import Tiramisu.MusicImport.Select

/-!
# Featuring credits

`stripFeaturing` looks for a credit in the lower-cased name and cuts the name
itself at the byte where it stands there.  The two agree as long as the lower
case of what stands before takes up as many bytes, and a credit at the very
start is left.
-/

namespace Tiramisu.MusicImport

open Go List

/-- What a `range` loop finds in a string: a character, or a byte that belongs to none. -/
inductive Piece
  | rune (c : Char)
  | stray (b : UInt8)
  deriving DecidableEq

namespace Piece

def char : Piece → Char
  | rune c => c
  | stray _ => '�'

def bytes : Piece → List UInt8
  | rune c => String.utf8EncodeChar c
  | stray b => [b]

end Piece

abbrev GoString := List Piece

namespace GoString

def of (s : String) : GoString := s.toList.map .rune

/-- The characters of a string, `U+FFFD` for a stray byte. -/
def text (s : GoString) : String := String.ofList (s.map Piece.char)

/-- `strings.ToLower`. -/
def toLower (s : GoString) (names : Names) : GoString := s.map fun p => .rune (names.toLower p.char)

/-- `strings.TrimSpace`. -/
def trimSpace (s : GoString) (names : Names) : GoString :=
  (s.dropWhile fun p => names.isSpace p.char).rdropWhile fun p => names.isSpace p.char

end GoString

/-- The bytes of a string. -/
def bytes (s : GoString) : List UInt8 := s.flatMap Piece.bytes

/-- `len`. -/
def byteLength (s : GoString) : ℕ := (bytes s).length

/-- The first bytes of a string; those of a character that is cut are stray. -/
def takeBytes : GoString → ℕ → GoString
  | [], _ => []
  | p :: ps, i =>
    if i < p.bytes.length then (p.bytes.take i).map .stray
    else p :: takeBytes ps (i - p.bytes.length)

inductive SliceError
  | outOfRange
  deriving DecidableEq

/-- The slice `s[:i]`. -/
def sliceTo (s : GoString) (i : ℕ) : Except SliceError GoString :=
  if i ≤ byteLength s then pure (takeBytes s i) else throw .outOfRange

/-- `strings.Index`: the byte at which `sub` first stands. -/
def index (sub : GoString) : GoString → Option ℕ
  | [] => if sub = [] then some 0 else none
  | p :: ps =>
    if sub <+: p :: ps then some 0 else (index sub ps).map (p.bytes.length + ·)

def featuring : List GoString :=
  [" feat.", " feat ", " ft.", " ft ", " featuring "].map GoString.of

/-- One round of the loop, on the name and its lower case. -/
def cutAt (s : GoString × GoString) (cut : GoString) : Except SliceError (GoString × GoString) :=
  match index cut s.2 with
  | none => pure s
  | some i =>
    if 0 < i then do
      let name ← sliceTo s.1 i
      let lower ← sliceTo s.2 i
      pure (name, lower)
    else pure s

def stripFeaturing (names : Names) (name : GoString) : Except SliceError GoString := do
  let s ← featuring.foldlM cutAt (name, name.toLower names)
  pure (s.1.trimSpace names)

def nameKey (names : Names) (name : String) : String :=
  let tokens := normalizeTokens names name
  if 0 < tokens.length then String.ofList ([' '].intercalate tokens)
  else
    let words := String.ofList ([' '].intercalate (fields (normalizeTitle names name)))
    if words = "" then "" else "\x00words\x00" ++ words

def artistIdentity (names : Names) (name : GoString) : Except SliceError String := do
  let stripped ← stripFeaturing names name
  pure (nameKey names stripped.text)

/-- The part before the first place of `sub`. -/
def before (sub : GoString) : GoString → GoString
  | [] => []
  | p :: ps => if sub <+: p :: ps then [] else p :: before sub ps

/-- The bytes at which the loop finds a credit behind the start of the lower case. -/
def places : List GoString → GoString → List ℕ
  | [], _ => []
  | cut :: cuts, lower =>
    if cut <+: lower ∨ ¬ cut <:+: lower then places cuts lower
    else byteLength (before cut lower) :: places cuts (before cut lower)

/-- What is left of the name: its bytes up to the last of these places. -/
def kept (name : GoString) (found : List ℕ) : GoString := found.getLast?.elim name (takeBytes name)

/-- Every such place is within the name, and no credit is among what is left. -/
def Strippable (names : Names) (name : GoString) : Prop :=
  (∀ i ∈ places featuring (name.toLower names), i ≤ byteLength name) ∧
    ∀ cut ∈ featuring,
      ¬ cut <:+: ((kept name (places featuring (name.toLower names))).trimSpace names).toLower names

instance (names : Names) (name : GoString) : Decidable (Strippable names name) :=
  inferInstanceAs (Decidable (_ ∧ _))

/-- No character before a credit that is found changes its number of bytes in lower case, and a
name that starts with a credit has no further one. -/
def Plain (names : Names) (name : GoString) : Prop :=
  (∀ pre : GoString, pre <+: name →
    byteLength (pre.toLower names) ∈ places featuring (name.toLower names) →
    ∀ p ∈ pre, (names.toLower p.char).utf8Size = p.bytes.length) ∧
  ∀ cut ∈ featuring, cut <+: name.toLower names →
    (∀ p ∈ name.head?, names.isSpace p.char) ∧ ¬ cut <:+: (name.toLower names).tail

/-! ### Slices -/

section Slices

variable {s pre post : GoString} {i j : ℕ}

@[simp] lemma byteLength_nil : byteLength [] = 0 := rfl

@[simp] lemma byteLength_append : byteLength (pre ++ post) = byteLength pre + byteLength post := by
  simp [byteLength, bytes]

@[simp] lemma byteLength_cons (p : Piece) : byteLength (p :: s) = p.bytes.length + byteLength s :=
  length_append

lemma bytes_length_pos (p : Piece) : 0 < p.bytes.length := by
  cases p with
  | rune c =>
    rw [Piece.bytes, String.length_utf8EncodeChar]
    exact c.utf8Size_pos
  | stray b => exact Nat.one_pos

lemma bytes_takeBytes : bytes (takeBytes s i) = (bytes s).take i := by
  have hstray : ∀ l : List UInt8, bytes (l.map .stray) = l := by
    intro l
    induction l with
    | nil => rfl
    | cons b l ih => exact congrArg (b :: ·) ih
  induction s generalizing i with
  | nil => exact take_nil.symm
  | cons p ps ih =>
    have hcons : ∀ s, bytes (p :: s) = p.bytes ++ bytes s := fun _ => rfl
    rw [takeBytes, hcons, take_append]
    split_ifs with hi
    · rw [hstray, Nat.sub_eq_zero_of_le hi.le, take_zero, append_nil]
    · rw [hcons, ih, take_of_length_le (Nat.le_of_not_lt hi)]

lemma byteLength_takeBytes (h : i ≤ byteLength s) : byteLength (takeBytes s i) = i := by
  rw [byteLength, bytes_takeBytes, length_take]
  exact min_eq_left h

lemma takeBytes_stray (l : List UInt8) : takeBytes (l.map .stray) i = (l.take i).map .stray := by
  induction l generalizing i with
  | nil => rw [take_nil]; rfl
  | cons b l ih =>
    cases i with
    | zero => rfl
    | succ i => simpa [takeBytes, Piece.bytes] using ih

lemma takeBytes_takeBytes (h : j ≤ i) : takeBytes (takeBytes s i) j = takeBytes s j := by
  induction s generalizing i j with
  | nil => rfl
  | cons p ps ih =>
    by_cases hi : i < p.bytes.length
    · rw [takeBytes, takeBytes, if_pos hi, if_pos (by omega), takeBytes_stray, take_take,
        min_eq_left h]
    · rw [takeBytes, if_neg hi, takeBytes, takeBytes]
      split_ifs with hj
      · rfl
      · rw [ih (by omega)]

@[simp] lemma takeBytes_append : takeBytes (pre ++ post) (byteLength pre) = pre := by
  induction pre with
  | nil =>
    cases post with
    | nil => rfl
    | cons p ps => simp [takeBytes, bytes_length_pos]
  | cons p pre ih => simp [takeBytes, ih]

end Slices

/-! ### The loop -/

section Loop

variable {names : Names} {sub cut s lower name : GoString} {cuts : List GoString}

lemma before_isPrefix : before sub s <+: s := by
  induction s with
  | nil => exact prefix_rfl
  | cons p ps ih =>
    rw [before]
    split_ifs
    · exact nil_prefix
    · exact (prefix_cons_inj p).mpr ih

lemma not_infix_before (hsub : sub ≠ []) : ¬ sub <:+: before sub s := by
  induction s with
  | nil => simpa [before] using hsub
  | cons p ps ih =>
    rw [before]
    split_ifs with h
    · simpa using hsub
    · rw [infix_cons_iff, not_or]
      exact ⟨fun hpre => h (hpre.trans ((prefix_cons_inj p).mpr before_isPrefix)), ih⟩

lemma byteLength_before_pos (hin : sub <:+: s) :
    0 < byteLength (before sub s) ↔ ¬ sub <+: s := by
  cases s with
  | nil => simp [before, infix_nil.mp hin]
  | cons p ps =>
    rw [before]
    split_ifs with h <;> simp [h, bytes_length_pos]

lemma index_eq (hsub : sub ≠ []) :
    index sub s = if sub <:+: s then some (byteLength (before sub s)) else none := by
  induction s with
  | nil => simp [index, hsub]
  | cons p ps ih =>
    simp only [index, before, infix_cons_iff, ih]
    by_cases hpre : sub <+: p :: ps
    · simp [hpre]
    · by_cases hin : sub <:+: ps <;> simp [hpre, hin]

/-- A round of the loop. -/
lemma cutAt_eq (hcut : cut ≠ []) :
    cutAt (name, lower) cut = if cut <+: lower ∨ ¬ cut <:+: lower then .ok (name, lower)
      else if byteLength (before cut lower) ≤ byteLength name then
        .ok (takeBytes name (byteLength (before cut lower)), before cut lower)
      else .error .outOfRange := by
  unfold cutAt
  rw [index_eq hcut]
  by_cases hin : cut <:+: lower
  · obtain ⟨post, hpost⟩ : before cut lower <+: lower := before_isPrefix
    have hlower : sliceTo lower (byteLength (before cut lower)) = .ok (before cut lower) := by
      nth_rewrite 1 [← hpost]
      rw [sliceTo, takeBytes_append, ← hpost, if_pos (by simp)]
      rfl
    simp only [hin, if_true, byteLength_before_pos hin, hlower, not_true, or_false]
    by_cases hpre : cut <+: lower
    · rw [if_neg (not_not.mpr hpre), if_pos hpre]
      rfl
    · rw [if_pos hpre, if_neg hpre, sliceTo]
      split_ifs <;> rfl
  · rw [if_neg hin, if_pos (.inr hin)]
    rfl

lemma exists_of_mem_places {i : ℕ} (h : i ∈ places cuts lower) :
    ∃ pre, pre <+: lower ∧ byteLength pre = i := by
  induction cuts generalizing lower with
  | nil => cases h
  | cons cut cuts ih =>
    rw [places] at h
    split_ifs at h
    · exact ih h
    · rcases mem_cons.mp h with rfl | h
      · exact ⟨_, before_isPrefix, rfl⟩
      · obtain ⟨pre, hpre, hi⟩ := ih h
        exact ⟨pre, hpre.trans before_isPrefix, hi⟩

lemma byteLength_mono {pre : GoString} (h : pre <+: s) : byteLength pre ≤ byteLength s := by
  obtain ⟨post, rfl⟩ := h
  simp

/-- The loop slices the name at the places it finds. -/
lemma cuts_eq (hcuts : ∀ cut ∈ cuts, cut ≠ []) :
    (cuts.foldlM cutAt (name, lower)).map Prod.fst =
      if ∀ i ∈ places cuts lower, i ≤ byteLength name then .ok (kept name (places cuts lower))
      else .error .outOfRange := by
  induction cuts generalizing name lower with
  | nil => rfl
  | cons cut cuts ih =>
    rw [forall_mem_cons] at hcuts
    rw [foldlM_cons, cutAt_eq hcuts.1, places]
    by_cases hskip : cut <+: lower ∨ ¬ cut <:+: lower
    · rw [if_pos hskip, if_pos hskip]
      exact ih hcuts.2
    rw [if_neg hskip, if_neg hskip]
    by_cases hfits : byteLength (before cut lower) ≤ byteLength name
    · have hlater : ∀ i ∈ places cuts (before cut lower), i ≤ byteLength (before cut lower) := by
        intro i hi
        obtain ⟨pre, hpre, rfl⟩ := exists_of_mem_places hi
        exact byteLength_mono hpre
      have hall : ∀ i ∈ byteLength (before cut lower) :: places cuts (before cut lower),
          i ≤ byteLength name :=
        forall_mem_cons.mpr ⟨hfits, fun i hi => (hlater i hi).trans hfits⟩
      rw [if_pos hfits, if_pos hall]
      refine (ih hcuts.2).trans ?_
      rw [byteLength_takeBytes hfits, if_pos hlater, kept, kept, getLast?_cons]
      cases hlast : (places cuts (before cut lower)).getLast? with
      | none => rfl
      | some i => exact congrArg _ (takeBytes_takeBytes (hlater i (mem_of_getLast? hlast)))
    · rw [if_neg hfits, if_neg fun h => hfits (h _ mem_cons_self)]
      rfl

/-- What the loop leaves of the lower case has a credit only if it starts with it. -/
lemma exists_left (hcuts : ∀ cut ∈ cuts, cut ≠ []) : ∃ left, left <+: lower ∧
    (places cuts lower).getLast?.elim (left = lower) (· = byteLength left) ∧
    ∀ cut ∈ cuts, cut <:+: left → cut <+: lower := by
  induction cuts generalizing lower with
  | nil => exact ⟨lower, prefix_rfl, rfl, forall_mem_nil _⟩
  | cons cut cuts ih =>
    rw [forall_mem_cons] at hcuts
    rw [places]
    split_ifs with hskip
    · obtain ⟨left, hleft, hplace, hnone⟩ := @ih lower hcuts.2
      refine ⟨left, hleft, hplace, forall_mem_cons.mpr ⟨fun h => ?_, hnone⟩⟩
      exact hskip.resolve_right (not_not.mpr (h.trans hleft.isInfix))
    · obtain ⟨left, hleft, hplace, hnone⟩ := @ih (before cut lower) hcuts.2
      refine ⟨left, hleft.trans before_isPrefix, ?_, forall_mem_cons.mpr ⟨fun h => ?_, ?_⟩⟩
      · rw [getLast?_cons]
        cases hlast : (places cuts (before cut lower)).getLast? with
        | none =>
          rw [hlast] at hplace
          exact congrArg byteLength hplace.symm
        | some i =>
          rw [hlast] at hplace
          exact hplace
      · exact absurd (h.trans hleft.isInfix) (not_infix_before hcuts.1)
      · exact fun other hother h => (hnone other hother h).trans before_isPrefix

end Loop

/-! ### The trimmed name -/

section Trim

variable {names : Names} {s : GoString}

lemma trimSpace_within : s.trimSpace names <:+: s := by
  have hright := rdropWhile_prefix (fun p => names.isSpace p.char)
    (s.dropWhile fun p => names.isSpace p.char)
  exact hright.isInfix.trans (dropWhile_suffix _).isInfix

lemma trimSpace_trimSpace : (s.trimSpace names).trimSpace names = s.trimSpace names := by
  set space : Piece → Bool := fun p => names.isSpace p.char
  have hfront : (s.trimSpace names).dropWhile space = s.trimSpace names := by
    rw [dropWhile_eq_self_iff]
    intro hpos
    have hpre := rdropWhile_prefix space (s.dropWhile space)
    have hnot := dropWhile_get_zero_not space s (hpos.trans_le hpre.length_le)
    rwa [get_eq_getElem, ← hpre.getElem hpos] at hnot
  have hagain : ∀ t : GoString, t.trimSpace names = (t.dropWhile space).rdropWhile space :=
    fun _ => rfl
  rw [hagain (s.trimSpace names), hfront, hagain, rdropWhile_idempotent]

lemma toLower_mono {t : GoString} (h : s <:+: t) : s.toLower names <:+: t.toLower names :=
  h.map _

end Trim

lemma featuring_ne_nil : ∀ cut ∈ featuring, cut ≠ [] := by decide

section Strip

variable {names : Names} {name : GoString}

lemma stripFeaturing_eq : stripFeaturing names name =
    if ∀ i ∈ places featuring (name.toLower names), i ≤ byteLength name then
      .ok ((kept name (places featuring (name.toLower names))).trimSpace names)
    else .error .outOfRange := by
  have hloop : stripFeaturing names name = ((featuring.foldlM cutAt (name, name.toLower names)).map
      Prod.fst).map fun left => left.trimSpace names := by
    rw [stripFeaturing]
    cases featuring.foldlM cutAt (name, name.toLower names) <;> rfl
  rw [hloop, cuts_eq featuring_ne_nil]
  split_ifs <;> rfl

lemma identity_of_strip {s : GoString} (h : stripFeaturing names name = .ok s) :
    artistIdentity names name = .ok (nameKey names s.text) := by
  rw [artistIdentity, h]
  rfl

/-- A name without a credit is only trimmed. -/
lemma stripFeaturing_of_none (h : ∀ cut ∈ featuring, ¬ cut <:+: name.toLower names) :
    stripFeaturing names name = .ok (name.trimSpace names) := by
  have hplaces : ∀ cuts ⊆ featuring, places cuts (name.toLower names) = [] := by
    intro cuts hcuts
    induction cuts with
    | nil => rfl
    | cons cut cuts ih =>
      rw [cons_subset] at hcuts
      rw [places, if_pos (.inr (h cut hcuts.1)), ih hcuts.2]
  rw [stripFeaturing_eq, hplaces featuring (Subset.refl _), if_pos (forall_mem_nil _)]
  rfl

lemma Plain.strippable (h : Plain names name) : Strippable names name := by
  obtain ⟨hbytes, hstart⟩ := h
  have hsame : ∀ pre : GoString, pre <+: name →
      byteLength (pre.toLower names) ∈ places featuring (name.toLower names) →
      byteLength (pre.toLower names) = byteLength pre := by
    intro pre hpre hplace
    unfold byteLength bytes GoString.toLower
    rw [flatMap_map, length_flatMap, length_flatMap]
    refine congrArg sum (map_congr_left fun p hp => ?_)
    rw [← hbytes pre hpre hplace p hp]
    exact String.length_utf8EncodeChar _
  refine ⟨fun i hi => ?_, fun cut hcut hin => ?_⟩
  · obtain ⟨lower, hlower, rfl⟩ := exists_of_mem_places hi
    obtain ⟨pre, hpre, rfl⟩ := prefix_map_iff.mp hlower
    exact (hsame pre hpre hi).trans_le (byteLength_mono hpre)
  · obtain ⟨left, hleft, hplace, hnone⟩ := @exists_left (name.toLower names) featuring
      featuring_ne_nil
    obtain ⟨pre, hpre, rfl⟩ := prefix_map_iff.mp hleft
    have hkept : kept name (places featuring (name.toLower names)) = pre := by
      rw [kept]
      cases hlast : (places featuring (name.toLower names)).getLast? with
      | none =>
        rw [hlast] at hplace
        have hlen : pre.length = name.length := by simpa [GoString.toLower] using congrArg length hplace
        exact (hpre.eq_of_length hlen).symm
      | some i =>
        rw [hlast] at hplace
        obtain rfl : i = byteLength (GoString.toLower pre names) := hplace
        rw [Option.elim_some, hsame pre hpre (mem_of_getLast? hlast)]
        obtain ⟨rest, rfl⟩ := hpre
        exact takeBytes_append
    rw [hkept] at hin
    obtain ⟨hspace, hfurther⟩ := hstart cut hcut
      (hnone cut hcut (hin.trans (toLower_mono trimSpace_within)))
    cases pre with
    | nil => exact featuring_ne_nil cut hcut (infix_nil.mp hin)
    | cons p pre =>
      obtain ⟨rest, rfl⟩ := hpre
      have hdrop : GoString.trimSpace (p :: pre) names = GoString.trimSpace pre names := by
        simp only [GoString.trimSpace, dropWhile_cons, hspace p rfl, if_true]
      rw [hdrop] at hin
      exact hfurther (hin.trans ((toLower_mono trimSpace_within).trans
        (toLower_mono (prefix_append pre rest).isInfix)))

end Strip

/-- The lower case of `Ⱥ` has three bytes, one more than the letter. -/
def strokeNames : Names :=
  { asciiNames with toLower := fun c => if c = 'Ⱥ' then 'ⱥ' else c.toLower }

end Tiramisu.MusicImport
