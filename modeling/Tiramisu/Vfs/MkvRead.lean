import Mathlib.Data.List.TakeDrop

/-!
# Reads of a virtual file

`MkvHandle.Read` fills the kernel's buffer from `readInner`, which may come
back short, and asks again for what is missing.  The kernel would keep zeros for
the rest of a short read, so the read fails where the buffer cannot be filled.
What `readInner` does is any behaviour that is `Honest`: a call that succeeds
has written the first bytes of the range it was asked for.
-/

namespace Tiramisu.Vfs

open List

abbrev Bytes := List UInt8

/-- One call of `readInner`: its errno, zero for success, the size of its result,
`none` for a nil one, and what its part of the buffer holds afterwards. -/
structure InnerRead where
  errno : ℕ
  size : Option ℕ
  buffer : Bytes
  deriving DecidableEq, Repr

/-- Calls are numbered; each may act in its own way. -/
structure ReadEnv where
  readInner : ℕ → Bytes → ℕ → InnerRead
  /-- `fuseCtx.Err() != nil` before the call of that number. -/
  cancelled : ℕ → Bool
  /-- The deadline has passed before the call of that number. -/
  late : ℕ → Bool

def eintr : ℕ := 4

def eio : ℕ := 5

def shortReadRefillAttempts : ℕ := 2

def shortAwayFromEOF (n want off size : ℕ) : Bool := n < want && off + n < size

inductive Refill
  | interrupted
  | gathered (dest : Bytes) (total : ℕ)
  deriving DecidableEq, Repr

variable (env : ReadEnv) (size : ℕ)

/-- The loop of `Read` with the attempts it has left. -/
def refill (off : ℕ) : ℕ → ℕ → Bytes → ℕ → Refill
  | 0, _, dest, total => .gathered dest total
  | attempts + 1, call, dest, total =>
    if shortAwayFromEOF total dest.length off size = false then .gathered dest total
    else if env.cancelled call then .interrupted
    else if env.late call then .gathered dest total
    else
      let sub := env.readInner call (dest.drop total) (off + total)
      let filled := dest.take total ++ sub.buffer
      match sub.errno, sub.size with
      | 0, some (m + 1) => refill off attempts (call + 1) filled (total + (m + 1))
      | _, _ => .gathered filled total

/-- The bytes handed to the kernel, `none` for a nil result, and the errno. -/
def read (dest : Bytes) (off : ℕ) : Option Bytes × ℕ :=
  let res := env.readInner 0 dest off
  match res.errno, res.size with
  | 0, some total =>
    if shortAwayFromEOF total dest.length off size = false then
      (some (res.buffer.take total), 0)
    else match refill env size off shortReadRefillAttempts 1 res.buffer total with
      | .interrupted => (none, eintr)
      | .gathered dest total =>
        if shortAwayFromEOF total dest.length off size then (none, eio)
        else (some (dest.take total), 0)
  | errno, size => (size.map fun n => res.buffer.take n, errno)

/-- The first `n` bytes of the buffer are the file's from `off` on. -/
structure Filled (file : Bytes) (off : ℕ) (dest : Bytes) (n : ℕ) : Prop where
  fits : n ≤ dest.length
  inside : n ≤ (file.drop off).length
  bytes : dest.take n = (file.drop off).take n

/-- A call keeps to its part of the buffer, and what it reports is the file's. -/
def ReadEnv.Honest (file : Bytes) : Prop :=
  ∀ call dest off, (env.readInner call dest off).buffer.length = dest.length ∧
    ∀ n, (env.readInner call dest off).errno = 0 → (env.readInner call dest off).size = some n →
      Filled file off (env.readInner call dest off).buffer n

variable {env size} {file dest : Bytes} {off : ℕ}

/-- What is read behind the filled part fills on. -/
lemma Filled.append {rest : Bytes} {total m : ℕ} (h : Filled file off dest total)
    (hrest : Filled file (off + total) rest m) :
    Filled file off (dest.take total ++ rest) (total + m) := by
  have hlength : (dest.take total).length = total := length_take_of_le h.fits
  have hdrop : (file.drop off).drop total = file.drop (off + total) := drop_drop ..
  constructor
  · rw [length_append, hlength]
    exact Nat.add_le_add_left hrest.fits total
  · have hinside := h.inside
    have hrest := hrest.inside
    rw [← hdrop, length_drop] at hrest
    omega
  · have htake : (dest.take total ++ rest).take ((dest.take total).length + m)
        = dest.take total ++ rest.take m := take_length_add_append ..
    rw [hlength] at htake
    calc (dest.take total ++ rest).take (total + m)
        = dest.take total ++ rest.take m := htake
      _ = (file.drop off).take total ++ ((file.drop off).drop total).take m := by
          rw [h.bytes, hrest.bytes, hdrop]
      _ = (file.drop off).take (total + m) := take_add.symm

/-- What is written behind the filled part leaves it filled. -/
lemma Filled.overwrite {total : ℕ} (h : Filled file off dest total) (rest : Bytes) :
    Filled file off (dest.take total ++ rest) total := by
  have hlength : (dest.take total).length = total := length_take_of_le h.fits
  refine ⟨by rw [length_append, hlength]; omega, h.inside, ?_⟩
  rw [take_append_of_le_length (Nat.le_of_eq hlength.symm), take_take, Nat.min_self, h.bytes]

lemma filled_refill (henv : env.Honest file) {attempts call total : ℕ} {dest' : Bytes}
    {total' : ℕ} (h : Filled file off dest total)
    (hrun : refill env size off attempts call dest total = .gathered dest' total') :
    Filled file off dest' total' ∧ dest'.length = dest.length := by
  induction attempts generalizing call dest total with
  | zero =>
    obtain ⟨rfl, rfl⟩ := Refill.gathered.inj hrun
    exact ⟨h, rfl⟩
  | succ attempts ih =>
    obtain ⟨hlen, hok⟩ := henv call (dest.drop total) (off + total)
    have hlength : (dest.take total ++ (env.readInner call (dest.drop total)
        (off + total)).buffer).length = dest.length := by
      rw [length_append, hlen, length_take_of_le h.fits, length_drop]
      have hfits := h.fits
      omega
    unfold refill at hrun
    split_ifs at hrun
    · obtain ⟨rfl, rfl⟩ := Refill.gathered.inj hrun
      exact ⟨h, rfl⟩
    · obtain ⟨rfl, rfl⟩ := Refill.gathered.inj hrun
      exact ⟨h, rfl⟩
    dsimp only at hrun
    split at hrun
    · rename_i m herrno hsize
      obtain ⟨hfilled, hsame⟩ := ih (h.append (hok (m + 1) herrno hsize)) hrun
      exact ⟨hfilled, hsame.trans hlength⟩
    · obtain ⟨rfl, rfl⟩ := Refill.gathered.inj hrun
      exact ⟨h.overwrite _, hlength⟩

/-- A buffer filled up to where the read may stop is what the read owes. -/
lemma Filled.complete {total want : ℕ} (h : Filled file off dest total)
    (hlength : dest.length = want) (hend : shortAwayFromEOF total want off size = false) :
    dest.take total = (file.drop off).take (dest.take total).length ∧
      (dest.take total).length ≤ want ∧
      ((dest.take total).length < want → size ≤ off + (dest.take total).length) := by
  have htake : (dest.take total).length = total := length_take_of_le h.fits
  rw [htake]
  refine ⟨h.bytes, hlength ▸ h.fits, fun hshort => ?_⟩
  by_contra hbefore
  have htrue : shortAwayFromEOF total want off size = true := by
    simp only [shortAwayFromEOF, Bool.and_eq_true, decide_eq_true_eq]
    omega
  rw [htrue] at hend
  cases hend

/-- The size the handle has need not be that of the file. -/
lemma read_spec (henv : env.Honest file) {data : Bytes} (hread : read env size dest off = (some data, 0)) :
    data = (file.drop off).take data.length ∧ data.length ≤ dest.length ∧
      (data.length < dest.length → size ≤ off + data.length) := by
  obtain ⟨hlen, hok⟩ := henv 0 dest off
  unfold read at hread
  dsimp only at hread
  split at hread
  · rename_i total herrno hsize
    have hfirst := hok total herrno hsize
    split_ifs at hread with hshort
    · obtain rfl := Option.some.inj (Prod.mk.inj hread).1
      exact hfirst.complete hlen hshort
    split at hread
    · cases hread
    rename_i dest' total' hrun
    obtain ⟨hfilled, hsame⟩ := filled_refill henv hfirst hrun
    split_ifs at hread with hstill
    · cases hread
    · obtain rfl := Option.some.inj (Prod.mk.inj hread).1
      rw [Bool.not_eq_true, hsame, hlen] at hstill
      exact hfilled.complete (hsame.trans hlen) hstill
  · rename_i hnot
    obtain ⟨hsome, herrno⟩ := Prod.mk.inj hread
    obtain ⟨n, hsize, -⟩ := Option.map_eq_some_iff.mp hsome
    exact absurd hsize (hnot n herrno)

/-- A read that succeeds returns the bytes of the file from its offset on, and
fewer than it was asked for only up to the end of the file. -/
theorem read_returns_file_bytes (env : ReadEnv) (file dest : Bytes) (off : ℕ)
    (henv : env.Honest file) (data : Bytes)
    (hread : read env file.length dest off = (some data, 0)) :
    data = (file.drop off).take data.length ∧ data.length ≤ dest.length ∧
      (data.length < dest.length → file.length ≤ off + data.length) :=
  read_spec henv hread

/-- A file of five bytes, two of which are served at a time. -/
def fiveBytes : Bytes := [7, 8, 9, 10, 11]

def twoAtATime : ReadEnv where
  readInner _ dest off :=
    let part := (fiveBytes.drop off).take (min 2 dest.length)
    ⟨0, some part.length, part ++ dest.drop part.length⟩
  cancelled _ := false
  late _ := false

lemma honest_twoAtATime : twoAtATime.Honest fiveBytes := by
  intro call dest off
  set part := (fiveBytes.drop off).take (min 2 dest.length) with hpart
  have hbuffer : (twoAtATime.readInner call dest off).buffer = part ++ dest.drop part.length := rfl
  have hlength : part.length ≤ dest.length := by
    rw [hpart, length_take]
    omega
  rw [hbuffer]
  constructor
  · rw [length_append, length_drop]
    omega
  intro n _ hn
  obtain rfl : part.length = n := Option.some.inj hn
  constructor
  · rw [length_append]
    omega
  · exact length_take_le' ..
  · rw [take_left, hpart, take_eq_take_iff]
    simp

theorem two_refills_reach_the_end :
    read twoAtATime fiveBytes.length [0, 0, 0, 0, 0, 0] 1 = (some [8, 9, 10, 11], 0) ∧
      [8, 9, 10, 11] = (fiveBytes.drop 1).take 4 :=
  ⟨by decide, (read_returns_file_bytes twoAtATime fiveBytes [0, 0, 0, 0, 0, 0] 1 honest_twoAtATime
    [8, 9, 10, 11] (by decide)).1⟩

end Tiramisu.Vfs
