import Mathlib

/-!
# Text operations of the Go standard library

Strings are taken apart through their lists of characters, so that every
operation reduces on a literal.  Only what the modelled functions call is
defined here, under the names of the Go packages.
-/

namespace Tiramisu.Go

/-- `strings.HasPrefix`. -/
def hasPrefix (s t : String) : Bool := t.toList.isPrefixOf s.toList

/-- `strings.HasSuffix`. -/
def hasSuffix (s t : String) : Bool := t.toList.isSuffixOf s.toList

/-- `%02d`. -/
def pad2 (n : ℤ) : String := if 0 ≤ n ∧ n < 10 then "0" ++ toString n else toString n

/-- `strings.ToLower` on text whose letters are ASCII. -/
def toLowerASCII (s : String) : String := String.ofList (s.toList.map Char.toLower)

def isSpaceASCII (c : Char) : Bool := c ∈ [' ', '\t', '\n', '\x0b', '\x0c', '\r']

/-- `strings.TrimSpace` on text whose blanks are ASCII. -/
def trimSpaceASCII (s : String) : String :=
  String.ofList ((s.toList.dropWhile isSpaceASCII).reverse.dropWhile isSpaceASCII).reverse

/-- The characters after the last slash. -/
def afterLastSlash (cs : List Char) : List Char :=
  (cs.reverse.takeWhile (· ≠ '/')).reverse

/-- `filepath.Base` on a Unix path: trailing slashes are dropped, an empty
path is `.` and a path made of slashes is `/`. -/
def filepathBase (path : String) : String :=
  if path = "" then "." else
  let trimmed := (path.toList.reverse.dropWhile (· = '/')).reverse
  if trimmed = [] then "/" else String.ofList (afterLastSlash trimmed)

/-- `filepath.Ext`: from the last period of the last component on. -/
def filepathExt (path : String) : String :=
  let base := afterLastSlash path.toList
  if '.' ∈ base then String.ofList ('.' :: (base.reverse.takeWhile (· ≠ '.')).reverse) else ""

example : filepathBase "/mnt/tv/Show/E01.mkv" = "E01.mkv" := by decide

example : filepathBase "//" = "/" := by decide

example : filepathExt "Pack/Show.S01E01.MKV" = ".MKV" := by decide

lemma hasSuffix_append (s t : String) : hasSuffix (s ++ t) t = true := by
  simp [hasSuffix, String.toList_append]

lemma toLowerASCII_append (s t : String) :
    toLowerASCII (s ++ t) = toLowerASCII s ++ toLowerASCII t := by
  simp [toLowerASCII, String.toList_append, String.ofList_append]

lemma toLowerASCII_eq_self {s : String} (h : ∀ c ∈ s.toList, c.toLower = c) :
    toLowerASCII s = s := by
  rw [toLowerASCII, List.map_congr_left h, List.map_id', String.ofList_toList]

lemma trimSpaceASCII_eq_self {s : String} (h : ∀ c ∈ s.toList, isSpaceASCII c = false) :
    trimSpaceASCII s = s := by
  have hdrop : ∀ l : List Char, (∀ c ∈ l, isSpaceASCII c = false) → l.dropWhile isSpaceASCII = l := by
    intro l hl
    cases l with
    | nil => rfl
    | cons c l => rw [List.dropWhile_cons_of_neg (by simp [hl c])]
  rw [trimSpaceASCII, hdrop _ h, hdrop _ (by simpa using h), List.reverse_reverse,
    String.ofList_toList]

/-- A check made character by character. -/
lemma forall_mem_of_all {p : Char → Prop} [DecidablePred p] {cs : List Char}
    (h : (cs.all fun c => decide (p c)) = true) : ∀ c ∈ cs, p c := by
  simpa only [List.all_eq_true, decide_eq_true_eq] using h

end Tiramisu.Go
