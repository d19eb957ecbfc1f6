import Mathlib.Algebra.Ring.Int.Defs
import Mathlib.Data.List.Basic
import Mathlib.Data.List.Range

/-!
# Growable files and the writes behind them

A file is a byte array that grows when it is written behind its end; what lies
between reads as zero.  Beside its bytes a `File` carries the log of the writes
made to it, newest first, each with a tag that says who wrote.  A file is
`Dense` when every byte of it is the last one written there: it has no gap.
-/

namespace Extents

open List

variable {τ β : Type}

structure Write (τ β : Type) where
  tag : τ
  off : ℕ
  data : List β

/-- The newest byte written at a position, with its tag. -/
def lastWritten : List (Write τ β) → ℕ → Option (τ × β)
  | [], _ => none
  | w :: log, i =>
    if w.off ≤ i ∧ i < w.off + w.data.length then (w.data[i - w.off]?).map (w.tag, ·)
    else lastWritten log i

/-- Write `data` at `off`; an empty write changes nothing. -/
def pwrite (zero : β) (bytes : List β) (off : ℕ) (data : List β) : List β :=
  match data with
  | [] => bytes
  | d :: ds => (bytes ++ List.replicate (off - bytes.length) zero).take off ++
      (d :: ds) ++ bytes.drop (off + (d :: ds).length)

structure File (τ β : Type) where
  bytes : List β
  log : List (Write τ β)

namespace File

def empty : File τ β := ⟨[], []⟩

def write (zero : β) (tag : τ) (off : ℕ) (data : List β) (f : File τ β) : File τ β :=
  ⟨pwrite zero f.bytes off data, ⟨tag, off, data⟩ :: f.log⟩

def read (f : File τ β) (off len : ℕ) : List β := (f.bytes.drop off).take len

def Dense (tag : τ) (f : File τ β) : Prop :=
  ∀ i b, f.bytes[i]? = some b → lastWritten f.log i = some (tag, b)

variable {zero : β} {tag : τ} {off : ℕ} {data : List β} {f : File τ β}

lemma dense_empty : (empty : File τ β).Dense tag := by
  intro i b h
  simp [empty] at h

lemma length_write_le : f.bytes.length ≤ (f.write zero tag off data).bytes.length := by
  cases data with
  | nil => exact Nat.le_refl _
  | cons d ds =>
    simp only [write, pwrite, length_append, length_take, length_replicate,
      length_drop, length_cons]
    omega

lemma length_write (h : data ≠ [] ∨ off ≤ f.bytes.length) :
    (f.write zero tag off data).bytes.length = max f.bytes.length (off + data.length) := by
  cases data with
  | nil =>
    rw [length_nil, Nat.add_zero]
    exact (max_eq_left (h.resolve_left fun hne => hne rfl)).symm
  | cons d ds =>
    simp only [write, pwrite, length_append, length_take, length_replicate,
      length_drop, length_cons]
    omega

lemma le_length_write (h : data ≠ [] ∨ off ≤ f.bytes.length) :
    off + data.length ≤ (f.write zero tag off data).bytes.length := by
  rw [length_write h]
  exact le_max_right _ _

lemma length_write_le_max :
    (f.write zero tag off data).bytes.length ≤ max f.bytes.length (off + data.length) := by
  cases data with
  | nil => exact le_max_left _ _
  | cons d ds => exact (length_write (Or.inl (by simp))).le

lemma getElem?_pwrite_before {bytes : List β} {i : ℕ} (hi : i < bytes.length) (hoff : i < off) :
    (pwrite zero bytes off data)[i]? = bytes[i]? := by
  cases data with
  | nil => rfl
  | cons d ds =>
    have hlen : i < ((bytes ++ List.replicate (off - bytes.length) zero).take off).length := by
      simp only [length_take, length_append, length_replicate]
      omega
    rw [pwrite, append_assoc, getElem?_append_left hlen,
      getElem?_take_of_lt hoff, getElem?_append_left hi]

lemma length_padded (bytes : List β) (off : ℕ) :
    ((bytes ++ List.replicate (off - bytes.length) zero).take off).length = off := by
  simp only [length_take, length_append, length_replicate]
  omega

lemma getElem?_pwrite_inside {bytes : List β} {i : ℕ} (hoff : off ≤ i)
    (hi : i < off + data.length) : (pwrite zero bytes off data)[i]? = data[i - off]? := by
  cases data with
  | nil =>
    rw [length_nil] at hi
    omega
  | cons d ds =>
    rw [pwrite, append_assoc,
      getElem?_append_right (by rw [length_padded]; exact hoff), length_padded,
      getElem?_append_left (by omega)]

lemma getElem?_pwrite_behind {bytes : List β} {i : ℕ} (hi : off + data.length ≤ i) :
    (pwrite zero bytes off data)[i]? = bytes[i]? := by
  cases data with
  | nil => rfl
  | cons d ds =>
    have hlen : ((bytes ++ List.replicate (off - bytes.length) zero).take off
        ++ (d :: ds)).length = off + (d :: ds).length := by
      rw [length_append, length_padded]
    rw [pwrite, getElem?_append_right (hlen.le.trans hi), hlen, getElem?_drop,
      Nat.add_sub_cancel' hi]

/-- The newest write decides the positions it covers. -/
lemma lastWritten_write (i : ℕ) : lastWritten (f.write zero tag off data).log i =
    if off ≤ i ∧ i < off + data.length then (data[i - off]?).map (tag, ·)
    else lastWritten f.log i := rfl

/-- A write that starts inside the file or at its end leaves no gap. -/
theorem Dense.write (h : f.Dense tag) (hoff : off ≤ f.bytes.length) :
    (f.write zero tag off data).Dense tag := by
  intro i b hb
  replace hb : (pwrite zero f.bytes off data)[i]? = some b := hb
  rw [lastWritten_write]
  split_ifs with hin
  · rw [getElem?_pwrite_inside hin.1 hin.2] at hb
    rw [hb, Option.map_some]
  · apply h
    rcases Nat.lt_or_ge i off with hlt | hge
    · rwa [getElem?_pwrite_before (by omega) hlt] at hb
    · rwa [getElem?_pwrite_behind (by omega)] at hb

/-- The byte at a position is the last one written there. -/
def Known (tag : τ) (f : File τ β) (i : ℕ) : Prop :=
  ∃ b, f.bytes[i]? = some b ∧ lastWritten f.log i = some (tag, b)

lemma Known.write {i : ℕ} (h : f.Known tag i ∨ off ≤ i ∧ i < off + data.length) :
    (f.write zero tag off data).Known tag i := by
  by_cases hin : off ≤ i ∧ i < off + data.length
  · have hlt : i - off < data.length := by omega
    refine ⟨data[i - off], ?_, ?_⟩
    · rw [← getElem?_eq_getElem hlt]
      exact getElem?_pwrite_inside hin.1 hin.2
    · rw [lastWritten_write, if_pos hin, getElem?_eq_getElem hlt, Option.map_some]
  · obtain ⟨b, hb, hlast⟩ := h.resolve_right hin
    have hi : i < f.bytes.length := (List.getElem?_eq_some_iff.mp hb).1
    refine ⟨b, ?_, ?_⟩
    · show (pwrite zero f.bytes off data)[i]? = some b
      rcases Nat.lt_or_ge i off with hlt | hge
      · rwa [getElem?_pwrite_before hi hlt]
      · rwa [getElem?_pwrite_behind (by omega)]
    · rwa [lastWritten_write, if_neg hin]

lemma Known.read {len j : ℕ} {b : β} (h : f.Known tag (off + j))
    (hj : (f.read off len)[j]? = some b) : lastWritten f.log (off + j) = some (tag, b) := by
  obtain ⟨b', hb', hlast⟩ := h
  rw [File.read, getElem?_take] at hj
  split_ifs at hj
  rw [getElem?_drop] at hj
  rw [hlast, Option.some.inj (hb'.symm.trans hj)]

/-- A position that was written was written by one of the writes. -/
lemma exists_of_lastWritten {log : List (Write τ β)} {i : ℕ} {b : β}
    (h : lastWritten log i = some (tag, b)) :
    ∃ w ∈ log, w.tag = tag ∧ w.off ≤ i ∧ w.data[i - w.off]? = some b := by
  induction log with
  | nil => exact absurd h (by simp [lastWritten])
  | cons w log ih =>
    unfold lastWritten at h
    split_ifs at h with hin
    · obtain ⟨b', hb', heq⟩ := Option.map_eq_some_iff.mp h
      obtain ⟨htag, rfl⟩ := Prod.mk.inj heq
      exact ⟨w, mem_cons_self, htag, hin.1, hb'⟩
    · obtain ⟨w', hmem, hw'⟩ := ih h
      exact ⟨w', mem_cons_of_mem w hmem, hw'⟩

/-- Every byte read from a dense file is the last one written there. -/
lemma Dense.read (h : f.Dense tag) {len j : ℕ} {b : β} (hj : (f.read off len)[j]? = some b) :
    lastWritten f.log (off + j) = some (tag, b) := by
  refine h _ b ?_
  rw [File.read, getElem?_take] at hj
  split_ifs at hj
  rwa [getElem?_drop] at hj

end File

/-! ### Ranges of a source file -/

/-- `n` bytes of a file from an offset on. -/
def contents (file : ℤ → β) (off : ℤ) (n : ℕ) : List β :=
  (List.range n).map fun k : ℕ => file (off + (k : ℤ))

section Contents

variable {file : ℤ → β} {off : ℤ} {m n : ℕ}

@[simp] lemma length_contents : (contents file off n).length = n := by simp [contents]

lemma contents_append : contents file off m ++ contents file (off + m) n = contents file off (m + n) := by
  simp only [contents, range_add, map_append, map_map]
  congr 1
  apply map_congr_left
  intro k _
  simp [add_assoc]

end Contents

end Extents
