import Mathlib.Data.Int.Notation
import Mathlib.Data.Nat.Digits.Defs

/-!
# Decimal numbers of the package `strconv`
-/

namespace Tiramisu.Go

/-- A non-empty run of decimal digits. -/
def parseDigits (cs : List Char) : Option ℕ :=
  if cs ≠ [] ∧ cs.all Char.isDigit then some (Nat.ofDigitChars 10 cs 0) else none

/-- The values of a Go `int` on a 64-bit machine. -/
def IsInt (n : ℤ) : Prop := -2 ^ 63 ≤ n ∧ n < 2 ^ 63

instance (n : ℤ) : Decidable (IsInt n) := inferInstanceAs (Decidable (_ ∧ _))

/-- What an `int64` holds of a number. -/
@[irreducible] def int64 (n : ℤ) : ℤ := n.bmod (2 ^ 64)

lemma int64_eq {n : ℤ} (h : IsInt n) : int64 n = n := by
  unfold IsInt at h
  unfold int64
  apply Int.bmod_eq_of_le <;> omega

@[simp] lemma int64_int64_add (a b : ℤ) : int64 (int64 a + b) = int64 (a + b) := by
  unfold int64
  exact Int.bmod_add_bmod

@[simp] lemma int64_int64_sub (a b : ℤ) : int64 (int64 a - b) = int64 (a - b) := by
  unfold int64
  exact Int.bmod_sub_bmod

/-- `strconv.Atoi`; `none` stands for its error. -/
def atoi (s : String) : Option ℤ :=
  let value : Option ℤ := match s.toList with
    | '-' :: cs => (parseDigits cs).map fun n => -(n : ℤ)
    | '+' :: cs => (parseDigits cs).map fun n => (n : ℤ)
    | cs => (parseDigits cs).map fun n => (n : ℤ)
  value.filter fun n => decide (IsInt n)

/-- `strconv.FormatUint(v, 10)`. -/
def formatUint (v : UInt64) : String := toString v.toNat

/-- `strconv.ParseUint(s, 10, 64)`; `none` stands for its error. -/
def parseUint (s : String) : Option UInt64 :=
  (parseDigits s.toList).bind fun n => if n < 2 ^ 64 then some (UInt64.ofNat n) else none

example : atoi "-12" = some (-12) := by decide

example : atoi "1:2" = none := by decide

lemma parseDigits_toDigits (n : ℕ) : parseDigits (Nat.toDigits 10 n) = some n := by
  have hdigits : (Nat.toDigits 10 n).all Char.isDigit = true :=
    List.all_eq_true.mpr fun c hc => Nat.isDigit_of_mem_toDigits (by omega) (by omega) hc
  rw [parseDigits, if_pos ⟨Nat.toDigits_ne_nil, hdigits⟩, Nat.ofDigitChars_ten_toDigits]

lemma toList_toString (n : ℕ) : (toString n).toList = Nat.toDigits 10 n := by
  rw [Nat.toString_eq_ofList_toDigits, String.toList_ofList]

lemma parseUint_formatUint (v : UInt64) : parseUint (formatUint v) = some v := by
  have hlt : v.toNat < 2 ^ 64 := v.toNat_lt
  rw [parseUint, formatUint, toList_toString, parseDigits_toDigits, Option.bind_some, if_pos hlt,
    UInt64.ofNat_toNat]

lemma head_toDigits_ne (n : ℕ) (c : Char) (hc : c.isDigit = false) (cs : List Char) :
    Nat.toDigits 10 n ≠ c :: cs := by
  intro h
  have hmem : c ∈ Nat.toDigits 10 n := by rw [h]; simp
  rw [Nat.isDigit_of_mem_toDigits (by omega) (by omega) hmem] at hc
  cases hc

/-- `Atoi` reads what `%d` wrote. -/
lemma atoi_toString {n : ℤ} (h : IsInt n) : atoi (toString n) = some n := by
  have hfilter : (some n).filter (fun n => decide (IsInt n)) = some n := by simp [h]
  rw [← hfilter, atoi]
  congr 1
  cases n with
  | ofNat n =>
    have hs : (toString (Int.ofNat n)).toList = Nat.toDigits 10 n := toList_toString n
    rw [hs]
    have hd := parseDigits_toDigits n
    split
    · rename_i cs heq
      exact absurd heq (head_toDigits_ne n '-' (by decide) cs)
    · rename_i cs heq
      exact absurd heq (head_toDigits_ne n '+' (by decide) cs)
    · simp [hd]
  | negSucc n =>
    have hs : (toString (Int.negSucc n)).toList = '-' :: Nat.toDigits 10 (n + 1) := by
      have hrepr : toString (Int.negSucc n) = "-" ++ toString (n + 1) := rfl
      rw [hrepr, String.toList_append, toList_toString]
      rfl
    rw [hs]
    simp [parseDigits_toDigits, Int.negSucc_eq]

end Tiramisu.Go
