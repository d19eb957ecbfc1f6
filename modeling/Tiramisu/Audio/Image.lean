import Mathlib.Algebra.Order.Group.Nat
import Mathlib.Data.Int.ModEq
import Mathlib.Tactic.Ring

/-!
# FLAC images

The metadata at the front of a single-file FLAC image, as `Open` reads it, and
the header `Header` puts in front of a range of its frames.  Indexing a slice
out of its range is an error of its own, `Err.panic`.
-/

namespace Tiramisu.Audio

open List

inductive Err
  | panic
  | read (off : ℤ)
  | notFLAC
  | boundaryNotFound (sample : ℤ)
  | headerTooLarge (length : ℕ)
  | noSuchTrack
  | noFrame
  | unfinished
  deriving DecidableEq, Repr

/-- `binary.BigEndian` of the bytes of a word. -/
def bigEndian (bs : List UInt8) : ℕ := bs.foldl (fun n b => n * 256 + b.toNat) 0

/-- The lowest `k` bytes of a word, highest first. -/
def putBigEndian : ℕ → ℕ → List UInt8
  | 0, _ => []
  | k + 1, n => putBigEndian k (n / 256) ++ [UInt8.ofNat n]

/-- A `uint32`, lowest byte first. -/
def putLittleEndian (n : ℕ) : List UInt8 := (putBigEndian 4 n).reverse

structure StreamInfo where
  raw : List UInt8
  minBlock : ℕ
  maxBlock : ℕ
  rate : ℕ
  channels : ℕ
  bitsPerSample : ℕ
  totalSamples : ℕ
  deriving DecidableEq, Repr

def StreamInfo.decode (raw : List UInt8) : StreamInfo :=
  let v := bigEndian ((raw.drop 10).take 8)
  { raw
    minBlock := bigEndian (raw.take 2)
    maxBlock := bigEndian ((raw.drop 2).take 2)
    rate := v >>> 44
    channels := (v >>> 41) % 8 + 1
    bitsPerSample := (v >>> 36) % 32 + 1
    totalSamples := v % 2 ^ 36 }

/-- What a reader delivers, and which of its reads fail. -/
structure Source where
  bytes : List UInt8
  fails : ℕ → Bool

/-- The `k`-th read, of exactly `n` bytes. -/
def Source.readFull (r : Source) (k n pos : ℕ) : Except Err (List UInt8) :=
  if r.fails k then throw (.read pos)
  else if pos + n ≤ r.bytes.length then pure ((r.bytes.drop pos).take n)
  else throw (.read pos)

structure Image where
  info : StreamInfo
  audioStart : ℕ
  size : ℕ
  bytes : List UInt8
  deriving DecidableEq, Repr

/-- A new `STREAMINFO` replaces the one before it. -/
def readInfo (r : Source) (k pos length : ℕ) (kind : UInt8) (info : Option StreamInfo) :
    Except Err (Option StreamInfo) :=
  if kind &&& 0x7f = 0 then
    if length ≠ 34 then throw .notFLAC
    else return some (.decode (← r.readFull k 34 (pos + 4)))
  else pure info

/-- `Open` from the metadata block at `pos` on. -/
def openFrom (r : Source) (size : ℕ) : ℕ → ℕ → ℕ → Option StreamInfo → Except Err Image
  | 0, _, _, _ => throw .unfinished
  | fuel + 1, k, pos, info => do
      let hdr ← r.readFull k 4 pos
      let length := bigEndian (hdr.drop 1)
      let info ← readInfo r (k + 1) pos length (hdr.headD 0) info
      let next := pos + 4 + length
      if hdr.headD 0 &&& 0x80 ≠ 0 then
        match info with
        | none => throw .notFLAC
        | some info =>
          if info.rate = 0 ∨ info.totalSamples = 0 ∨ info.minBlock < 16 then throw .notFLAC
          else pure ⟨info, next, size, r.bytes⟩
      else if size ≤ next then throw .notFLAC
      else openFrom r size fuel (k + 2) next info

def fLaC : List UInt8 := [0x66, 0x4C, 0x61, 0x43]

/-- Every block header that is read lies behind the one before it, so the blocks
are no more than the bytes. -/
def openImage (r : Source) (size : ℕ) : Except Err Image := do
  let head ← r.readFull 0 4 0
  if head ≠ fLaC then throw .notFLAC
  else openFrom r size (r.bytes.length + 1) 1 4 none

/-! ### The generated header -/

def maxHeaderSize : ℕ := 64 * 1024

structure Tag where
  key : String
  value : String
  deriving DecidableEq, Repr

def bytesOf (s : String) : List UInt8 := s.toUTF8.data.toList

/-- `STREAMINFO` with another sample count, frame sizes and MD5 left unknown. -/
def infoFor (raw : List UInt8) (totalSamples : ℤ) : List UInt8 :=
  let v := bigEndian ((raw.drop 10).take 8)
  let v' := v / 2 ^ 36 * 2 ^ 36 + (totalSamples % 2 ^ 36).toNat
  raw.take 4 ++ List.replicate 6 0 ++ putBigEndian 8 v' ++ List.replicate 16 0

def Tag.comment (t : Tag) : List UInt8 :=
  let kv := bytesOf (t.key ++ "=" ++ t.value)
  putLittleEndian kv.length ++ kv

def vorbisComment (tags : List Tag) : List UInt8 :=
  let vendor := bytesOf "tiramisu"
  putLittleEndian vendor.length ++ vendor ++ putLittleEndian tags.length ++
    tags.flatMap Tag.comment

def Image.header (im : Image) (totalSamples : ℤ) (tags : List Tag) : Except Err (List UInt8) :=
  let comment := vorbisComment tags
  let out := fLaC ++ [0, 0, 0, 34] ++ infoFor im.info.raw totalSamples ++
    (0x84 :: putBigEndian 3 comment.length) ++ comment
  if maxHeaderSize < out.length then throw (.headerTooLarge out.length) else pure out

/-- A sequence that answers went through its first step. -/
lemma ok_of_bind {ε α β : Type} {x : Except ε α} {f : α → Except ε β} {r : β}
    (h : x >>= f = .ok r) : ∃ a, x = .ok a ∧ f a = .ok r := by
  cases x with
  | error e => cases h
  | ok a => exact ⟨a, rfl, h⟩

/-! ### What an opened image carries -/

section Opened

variable {r : Source} {size : ℕ} {im : Image}

/-- The information an opened image goes by. -/
structure Opened (r : Source) (size : ℕ) (im : Image) : Prop where
  decoded : im.info = .decode im.info.raw
  raw : im.info.raw.length = 34
  rate : im.info.rate ≠ 0
  samples : im.info.totalSamples ≠ 0
  block : 16 ≤ im.info.minBlock
  size : im.size = size
  bytes : im.bytes = r.bytes

lemma length_readFull {k n pos : ℕ} {bs : List UInt8} (h : r.readFull k n pos = .ok bs) :
    bs.length = n := by
  unfold Source.readFull at h
  split_ifs at h with hfails hlen
  cases h
  rw [length_take, length_drop]
  omega

lemma readInfo_decoded {k pos length : ℕ} {kind : UInt8} {info info' : Option StreamInfo}
    (hinfo : ∀ i, info = some i → i = .decode i.raw ∧ i.raw.length = 34)
    (h : readInfo r k pos length kind info = .ok info') (i : StreamInfo) (hi : info' = some i) :
    i = .decode i.raw ∧ i.raw.length = 34 := by
  unfold readInfo at h
  split_ifs at h
  · obtain ⟨raw, hread, h⟩ := ok_of_bind h
    obtain rfl : some (StreamInfo.decode raw) = info' := Except.ok.inj h
    cases hi
    exact ⟨rfl, length_readFull hread⟩
  · obtain rfl : info = info' := Except.ok.inj h
    exact hinfo i hi

lemma openFrom_opened {fuel k pos : ℕ} {info : Option StreamInfo}
    (hinfo : ∀ i, info = some i → i = .decode i.raw ∧ i.raw.length = 34)
    (h : openFrom r size fuel k pos info = .ok im) : Opened r size im := by
  induction fuel generalizing k pos info with
  | zero => cases h
  | succ fuel ih =>
    rw [openFrom] at h
    obtain ⟨hdr, -, h⟩ := ok_of_bind h
    obtain ⟨info', hnew, h⟩ := ok_of_bind h
    have hdecoded := readInfo_decoded hinfo hnew
    dsimp only at h
    split_ifs at h with hlast
    · cases info' with
      | none => cases h
      | some i =>
        dsimp only at h
        split_ifs at h with hbad
        cases h
        obtain ⟨hi, hraw⟩ := hdecoded i rfl
        rw [not_or, not_or, not_lt] at hbad
        exact ⟨hi, hraw, hbad.1, hbad.2.1, hbad.2.2, rfl, rfl⟩
    · exact ih hdecoded h

lemma opened_of_openImage (h : openImage r size = .ok im) : Opened r size im := by
  obtain ⟨head, -, h⟩ := ok_of_bind h
  split_ifs at h
  exact openFrom_opened (fun i hi => absurd hi (by simp)) h

lemma Opened.totalSamples_lt (h : Opened r size im) : im.info.totalSamples < 2 ^ 36 := by
  rw [h.decoded]
  exact Nat.mod_lt _ (by decide)

end Opened

/-! ### The sample count of a generated header -/

lemma bigEndian_append_singleton (bs : List UInt8) (b : UInt8) :
    bigEndian (bs ++ [b]) = bigEndian bs * 256 + b.toNat := by
  simp [bigEndian, foldl_append]

lemma length_putBigEndian (k n : ℕ) : (putBigEndian k n).length = k := by
  induction k generalizing n with
  | zero => rfl
  | succ k ih => simp [putBigEndian, ih]

lemma bigEndian_putBigEndian (k n : ℕ) : bigEndian (putBigEndian k n) = n % 256 ^ k := by
  induction k generalizing n with
  | zero => simp [putBigEndian, bigEndian, Nat.mod_one]
  | succ k ih =>
    rw [putBigEndian, bigEndian_append_singleton, ih, pow_succ, mul_comm (256 ^ k), Nat.mod_mul]
    have hbyte : (UInt8.ofNat n).toNat = n % 256 := by simp
    rw [hbyte]
    ring

lemma totalSamples_infoFor {raw : List UInt8} (hraw : raw.length = 34) (n : ℤ) :
    ((StreamInfo.decode (infoFor raw n)).totalSamples : ℤ) = n % 2 ^ 36 := by
  have hword : ((infoFor raw n).drop 10).take 8
      = putBigEndian 8 (bigEndian ((raw.drop 10).take 8) / 2 ^ 36 * 2 ^ 36 + (n % 2 ^ 36).toNat) := by
    have hfront : (raw.take 4 ++ List.replicate 6 (0 : UInt8)).length = 10 := by simp [hraw]
    rw [infoFor, append_assoc (raw.take 4 ++ _), drop_append, hfront, Nat.sub_self,
      drop_zero, drop_eq_nil_of_le hfront.le, nil_append, take_append,
      length_putBigEndian, Nat.sub_self, take_zero, append_nil,
      take_of_length_le (length_putBigEndian _ _).le]
  rw [StreamInfo.decode]
  rw [hword, bigEndian_putBigEndian]
  norm_num
  omega

/-- The `STREAMINFO` of a generated header counts the samples it was made for. -/
lemma totalSamples_header {im : Image} {n : ℤ} {tags : List Tag} {out : List UInt8}
    (hraw : im.info.raw.length = 34) (h : im.header n tags = .ok out) :
    ((StreamInfo.decode ((out.drop 8).take 34)).totalSamples : ℤ) = n % 2 ^ 36 := by
  unfold Image.header at h
  dsimp only at h
  split_ifs at h
  cases h
  have hinfo : (infoFor im.info.raw n).length = 34 := by
    simp [infoFor, length_putBigEndian, hraw]
  rw [← totalSamples_infoFor hraw n]
  congr 3
  simp only [fLaC, cons_append, nil_append, append_assoc, drop_succ_cons,
    drop_zero]
  rw [take_append, hinfo, Nat.sub_self, take_zero, append_nil,
    take_of_length_le hinfo.le]

end Tiramisu.Audio
