import Tiramisu.Go.Numbers
import Tiramisu.Vfs.MkvRead

/-!
# Reads of a cue track

A cue track of a single-file image is a generated header followed by the part of
the image that the track spans.  `SegmentRead` splits a read into the two, and
`cueHandle.Read` serves the first from memory and the second through the handle
of the image, whose file ends where the track ends.
-/

namespace Tiramisu.Vfs

open List Go

/-- What `SegmentRead` returns. -/
structure SegmentPart where
  hdrFrom : ℤ
  hdrTo : ℤ
  innerOff : ℤ
  innerN : ℤ
  deriving DecidableEq, Repr

def segmentRead (headerLen : ℕ) (base length off : ℤ) (n : ℕ) : SegmentPart :=
  let total := int64 (headerLen + length)
  if off < 0 ∨ total ≤ off ∨ n = 0 then ⟨0, 0, 0, 0⟩
  else
    let stop := min (int64 (off + n)) total
    let (hdrFrom, hdrTo) := if off < headerLen then (off, min stop headerLen) else (0, 0)
    let start := max off headerLen
    let (innerOff, innerN) :=
      if (headerLen : ℤ) < stop then (int64 (base + start - headerLen), int64 (stop - start)) else (0, 0)
    ⟨hdrFrom, hdrTo, innerOff, innerN⟩

/-- `l[i:j]`, with `none` for a panic. -/
def slice (l : Bytes) (i j : ℤ) : Option Bytes :=
  if 0 ≤ i ∧ i ≤ j ∧ j ≤ l.length then some ((l.drop i.toNat).take (j - i).toNat) else none

/-- The inner handle serves `file`; a call without an errno has a result.  The sizes of
the track and of the image up to its end are `int64` values. -/
structure CueHandle where
  env : ReadEnv
  file : Bytes
  header : Bytes
  base : ℕ
  length : ℕ
  sized : IsInt (header.length + length)
  inside : IsInt (base + length)
  honest : env.Honest file
  answered : ∀ call dest off, (env.readInner call dest off).errno = 0 →
    (env.readInner call dest off).size ≠ none

inductive CueRead
  | panicked
  | failed (errno : ℕ)
  | result (data : Bytes)
  deriving DecidableEq, Repr

namespace CueHandle

/-- The size `openCueTrack` gives the inner handle. -/
def size (h : CueHandle) : ℕ := h.base + h.length

/-- `Read` past its call of `SegmentRead`. -/
def readPart (h : CueHandle) (dest : Bytes) (part : SegmentPart) : CueRead :=
  match slice h.header part.hdrFrom part.hdrTo with
  | none => .panicked
  | some head =>
    let n := min dest.length head.length
    let dest := head.take n ++ dest.drop n
    if part.innerN ≤ 0 then .result (dest.take n)
    else
      match slice dest n (n + part.innerN) with
      | none => .panicked
      | some want =>
        match Vfs.read h.env h.size want part.innerOff.toNat with
        | (some data, 0) =>
          let got := min (dest.length - n) data.length
          if (got : ℤ) < part.innerN then .failed eio
          else .result (dest.take n ++ data.take got)
        | (none, 0) => .panicked
        | (_, errno) => .failed errno

def read (h : CueHandle) (dest : Bytes) (off : ℤ) : CueRead :=
  h.readPart dest (segmentRead h.header.length h.base h.length off dest.length)

/-- The header followed by `image[base, base+length)`. -/
def virtualFile (h : CueHandle) : Bytes := h.header ++ (h.file.drop h.base).take h.length

end CueHandle

lemma slice_eq {l : Bytes} {i j : ℕ} (hij : i ≤ j) (hj : j ≤ l.length) :
    slice l i j = some ((l.drop i).take (j - i)) := by
  have hbounds : (0 : ℤ) ≤ i ∧ (i : ℤ) ≤ j ∧ (j : ℤ) ≤ l.length := by omega
  rw [slice, if_pos hbounds]
  congr 2
  omega

/-- A read across the end of the first of two parts. -/
lemma take_drop_append {α : Type} (l r : List α) (off n : ℕ) :
    ((l ++ r).drop off).take n
      = (l.drop off).take n ++ (r.drop (off - l.length)).take (n - (l.length - off)) := by
  rw [drop_append, take_append, length_drop]

lemma segmentRead_outside {headerLen base length off n : ℕ} (hsized : IsInt (headerLen + length))
    (h : headerLen + length ≤ off ∨ n = 0) :
    segmentRead headerLen base length off n = ⟨0, 0, 0, 0⟩ := by
  rw [segmentRead, int64_eq hsized, if_pos (by omega)]

/-- Inside the file, a read is that of header bytes and of the image bytes behind
them, up to `stop`. -/
lemma segmentRead_inside {headerLen base length off n : ℕ} (hoff : off < headerLen + length)
    (hn : 0 < n) {stop : ℕ} (hstop : stop = min (off + n) (headerLen + length))
    (hsized : IsInt (headerLen + length)) (hinside : IsInt (base + length))
    (hend : IsInt (off + n)) :
    segmentRead headerLen base length off n =
      { hdrFrom := if off < headerLen then off else 0
        hdrTo := if off < headerLen then (min stop headerLen : ℕ) else 0
        innerOff := if headerLen < stop then (base + (off - headerLen) : ℕ) else 0
        innerN := (stop - max off headerLen : ℕ) } := by
  have hcast : min ((off : ℤ) + n) (headerLen + length) = stop := by omega
  have hbounds : off < stop ∧ (stop : ℤ) ≤ headerLen + length := by omega
  have himage : IsInt (base + max (off : ℤ) headerLen - headerLen) ∧
      IsInt (stop - max (off : ℤ) headerLen) := by
    unfold IsInt at *
    omega
  unfold segmentRead
  rw [int64_eq hsized, int64_eq hend]
  dsimp only
  rw [if_neg (by omega), hcast, int64_eq himage.1, int64_eq himage.2]
  split_ifs <;> congr 1 <;> omega

lemma slice_header {header : Bytes} {off stop : ℕ} (hle : off ≤ stop) :
    slice header (if off < header.length then off else 0)
      (if off < header.length then (min stop header.length : ℕ) else 0)
      = some ((header.drop off).take (stop - off)) := by
  split_ifs with hlt
  · rw [slice_eq (by omega) (by omega), Option.some.injEq, take_eq_take_iff, length_drop]
    omega
  · rw [drop_eq_nil_of_le (by omega), take_nil]
    exact slice_eq (i := 0) (j := 0) (Nat.le_refl 0) (Nat.zero_le _)

/-- A nil result without an errno is that of a call of `readInner`. -/
lemma read_ne_nil {env : ReadEnv} {size off : ℕ} {dest : Bytes}
    (h : (env.readInner 0 dest off).errno = 0 → (env.readInner 0 dest off).size ≠ none) :
    read env size dest off ≠ (none, 0) := by
  intro hread
  unfold read at hread
  dsimp only at hread
  split at hread
  · split_ifs at hread
    · cases hread
    · split at hread
      · cases hread
      · split_ifs at hread <;> cases hread
  · obtain ⟨hnone, herrno⟩ := Prod.mk.inj hread
    exact h herrno (Option.map_eq_none_iff.mp hnone)

namespace CueHandle

variable (h : CueHandle) (dest : Bytes) (off : ℕ)

lemma length_virtualFile_le : h.virtualFile.length ≤ h.header.length + h.length := by
  rw [virtualFile, length_append, length_take]
  omega

/-- The two parts of a read make up what the virtual file has there. -/
lemma parts_eq {stop : ℕ} (hstop : stop = min (off + dest.length) (h.header.length + h.length)) :
    (h.header.drop off).take (stop - off)
        ++ (h.file.drop (h.base + (off - h.header.length))).take (stop - max off h.header.length)
      = (h.virtualFile.drop off).take dest.length := by
  have hcut : (h.virtualFile.drop off).take dest.length
      = (h.virtualFile.drop off).take (stop - off) := by
    have hlength := h.length_virtualFile_le
    rw [take_eq_take_iff, length_drop]
    omega
  rw [hcut, virtualFile, take_drop_append, drop_take, drop_drop, take_take]
  congr 2
  omega

/-- What `SegmentRead` tells a read: the header bytes are there, the image bytes are
the handle's, and both fit into the buffer. -/
structure Splits (part : SegmentPart) (head : Bytes) : Prop where
  header : slice h.header part.hdrFrom part.hdrTo = some head
  off_nonneg : 0 ≤ part.innerOff
  nonneg : 0 ≤ part.innerN
  fits : head.length + part.innerN ≤ dest.length
  inside : 0 < part.innerN → part.innerOff + part.innerN ≤ h.size
  bytes : head ++ (h.file.drop part.innerOff.toNat).take part.innerN.toNat
    = (h.virtualFile.drop off).take dest.length

lemma segmentRead_splits (hend : IsInt (off + dest.length)) : ∃ head,
    h.Splits dest off (segmentRead h.header.length h.base h.length off dest.length) head := by
  by_cases hinside : off < h.header.length + h.length ∧ 0 < dest.length
  · obtain ⟨hoff, hn⟩ := hinside
    obtain ⟨stop, hstop⟩ : ∃ stop, stop = min (off + dest.length) (h.header.length + h.length) :=
      ⟨_, rfl⟩
    rw [segmentRead_inside hoff hn hstop h.sized h.inside hend]
    refine ⟨(h.header.drop off).take (stop - off), slice_header (by omega), ?_, ?_, ?_, ?_, ?_⟩
    · dsimp only
      split_ifs <;> omega
    · dsimp only
      omega
    · rw [length_take, length_drop]
      dsimp only
      omega
    · dsimp only [size]
      split_ifs <;> omega
    rw [← h.parts_eq dest off hstop]
    dsimp only
    split_ifs with hlt
    · rfl
    · have hzero : stop - max off h.header.length = 0 := by omega
      simp [hzero]
  · rw [segmentRead_outside h.sized (by omega)]
    have hnone : (h.virtualFile.drop off).take dest.length = [] := by
      have hlength := h.length_virtualFile_le
      rw [take_eq_nil_iff, drop_eq_nil_iff]
      omega
    refine ⟨[], slice_eq (i := 0) (j := 0) (Nat.le_refl 0) (Nat.zero_le _), Int.le_refl 0,
      Int.le_refl 0, ?_, ?_, hnone.symm⟩
    · simp
    · intro hpos
      exact absurd hpos (Int.lt_irrefl 0)

/-- The bytes owed, or an error. -/
def Delivers (owed : Bytes) : CueRead → Prop
  | .panicked => False
  | .failed _ => True
  | .result data => data = owed

lemma readPart_delivers {part : SegmentPart} {head : Bytes} (hsplit : h.Splits dest off part head) :
    Delivers ((h.virtualFile.drop off).take dest.length) (h.readPart dest part) := by
  unfold readPart
  have hnonneg := hsplit.nonneg
  have hfits := hsplit.fits
  have hcopy : min dest.length head.length = head.length := by omega
  have hbuffer : (head ++ dest.drop head.length).length = dest.length := by
    rw [length_append, length_drop]
    omega
  simp only [hsplit.header, hcopy, take_length, take_left, hbuffer]
  split_ifs with hpos
  · have hzero : part.innerN.toNat = 0 := by omega
    rw [← hsplit.bytes, hzero, take_zero, append_nil]
    rfl
  obtain ⟨n, hn⟩ := Int.eq_ofNat_of_zero_le hnonneg
  rw [hn, ← Int.natCast_add, slice_eq (by omega) (by omega)]
  dsimp only
  split
  · rename_i data hread
    obtain ⟨hdata, hle, hshort⟩ := read_spec h.honest hread
    rw [length_take, length_drop, hbuffer] at hle hshort
    have hoff := hsplit.off_nonneg
    have hinside := hsplit.inside (by omega)
    have hfull : data.length = n := by omega
    rw [if_neg (by omega)]
    rw [Delivers, ← hsplit.bytes, hn, take_of_length_le (by omega), hdata, hfull]
    rfl
  · rename_i hread
    exact read_ne_nil (h.answered 0 _ _) hread
  · trivial

end CueHandle

/-- A read returns the bytes of the virtual file from its offset on or an error, and
fewer than it was asked for only at the end; the parts `SegmentRead` names are those
bytes, and no slice of the two leaves its bounds. -/
theorem cue_read_returns_virtual_bytes (h : CueHandle) (dest : Bytes) (off : ℕ)
    (hend : IsInt (off + dest.length)) :
    h.read dest off ≠ .panicked ∧
      (∀ data, h.read dest off = .result data →
        data = (h.virtualFile.drop off).take data.length ∧ data.length ≤ dest.length ∧
          (data.length < dest.length → h.virtualFile.length ≤ off + data.length)) ∧
      ∃ head, h.Splits dest off
        (segmentRead h.header.length h.base h.length off dest.length) head := by
  obtain ⟨head, hsplit⟩ := h.segmentRead_splits dest off hend
  have hread : CueHandle.Delivers _ (h.read dest off) := h.readPart_delivers dest off hsplit
  refine ⟨fun hpanic => ?_, fun data hdata => ?_, head, hsplit⟩
  · rw [hpanic] at hread
    exact hread
  rw [hdata] at hread
  obtain rfl : data = _ := hread
  refine ⟨?_, length_take_le .., fun hshort => ?_⟩
  · rw [length_take, ← take_take, take_length]
  · rw [length_take, length_drop] at hshort ⊢
    omega

/-- A track of three bytes behind a header of two. -/
def shortTrack : CueHandle where
  env := twoAtATime
  file := fiveBytes
  header := [1, 2]
  base := 1
  length := 3
  sized := by decide
  inside := by decide
  honest := honest_twoAtATime
  answered _ _ _ _ h := Option.some_ne_none _ h

/-- A read from the header into the image. -/
theorem read_across_header :
    shortTrack.read [0, 0, 0, 0] 1 = .result [2, 8, 9, 10] ∧
      (shortTrack.virtualFile.drop 1).take 4 = [2, 8, 9, 10] := by
  have hread : shortTrack.read [0, 0, 0, 0] 1 = .result [2, 8, 9, 10] := by decide +kernel
  have hbytes := ((cue_read_returns_virtual_bytes shortTrack [0, 0, 0, 0] 1 (by decide)).2.1 _ hread).1
  exact ⟨hread, hbytes.symm⟩

end Tiramisu.Vfs
