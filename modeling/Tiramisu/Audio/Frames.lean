import Tiramisu.Audio.Image

/-!
# Frame headers

`parseFrame` reads a frame header at an index of a slice.  A header is at most
sixteen bytes long, so what it answers depends on the next sixteen bytes only:
a frame reads the same in every window that holds its header.  The number in it
is coded like a character of UTF-8, in up to seven bytes.
-/

namespace Tiramisu.Audio

open List

/-- One validated frame header. -/
structure Frame where
  sample : ℤ
  block : ℕ
  deriving DecidableEq, Repr

/-- `b[k]`. -/
def byteAt (b : List UInt8) (k : ℕ) : Except Err UInt8 :=
  match b[k]? with
  | some x => pure x
  | none => throw .panic

/-- The two bytes `b[k:k+2]` as a `uint16`. -/
def uint16At (b : List UInt8) (k : ℕ) : Except Err ℕ := do
  let hi ← byteAt b k
  let lo ← byteAt b (k + 1)
  pure (hi.toNat * 256 + lo.toNat)

/-- The continuation bytes of a coded number, from `b[k]` on. -/
def readTail (b : List UInt8) : ℕ → ℕ → ℕ → Except Err (Option ℕ)
  | 0, _, v => pure (some v)
  | extra + 1, k, v => do
      let x ← byteAt b k
      if x &&& 0xC0 ≠ 0x80 then pure none
      else readTail b extra (k + 1) (v <<< 6 ||| (x &&& 0x3F).toNat)

/-- How many continuation bytes follow the first byte, and the bits it holds. -/
def leadByte (first : UInt8) : Option (ℕ × ℕ) :=
  if first &&& 0x80 = 0 then some (0, first.toNat)
  else if first &&& 0xE0 = 0xC0 then some (1, (first &&& 0x1F).toNat)
  else if first &&& 0xF0 = 0xE0 then some (2, (first &&& 0x0F).toNat)
  else if first &&& 0xF8 = 0xF0 then some (3, (first &&& 0x07).toNat)
  else if first &&& 0xFC = 0xF8 then some (4, (first &&& 0x03).toNat)
  else if first &&& 0xFE = 0xFC then some (5, (first &&& 0x01).toNat)
  else if first = 0xFE then some (6, 0)
  else none

/-- A coded number and its length. -/
def readUTF8Number (b : List UInt8) : Except Err (Option (ℕ × ℕ)) :=
  match b with
  | [] => pure none
  | first :: _ =>
    match leadByte first with
    | none => pure none
    | some (extra, v) =>
      if b.length < 1 + extra then pure none
      else do
        let number ← readTail b extra 1 v
        pure (number.map (·, 1 + extra))

def crcShift (c : UInt8) : UInt8 := if c &&& 0x80 ≠ 0 then c <<< 1 ^^^ 0x07 else c <<< 1

def crc8 (b : List UInt8) : UInt8 := b.foldl (fun c x => crcShift^[8] (c ^^^ x)) 0

/-- The block size and the index behind its field; no answer is a field that is cut off. -/
def blockSize (b : List UInt8) (bsCode j : ℕ) : Except Err (Option (ℕ × ℕ)) :=
  if bsCode = 1 then pure (some (192, j))
  else if 2 ≤ bsCode ∧ bsCode ≤ 5 then pure (some (576 <<< (bsCode - 2), j))
  else if bsCode = 6 then
    if b.length < j + 1 then pure none
    else return some ((← byteAt b j).toNat + 1, j + 1)
  else if bsCode = 7 then
    if b.length < j + 2 then pure none
    else return some ((← uint16At b j) + 1, j + 2)
  else pure (some (256 <<< (bsCode - 8), j))

/-- The sample rates with a code of their own. -/
def fixedRate : ℕ → ℕ
  | 1 => 88200
  | 2 => 176400
  | 3 => 192000
  | 4 => 8000
  | 5 => 16000
  | 6 => 22050
  | 7 => 24000
  | 8 => 32000
  | 9 => 44100
  | 10 => 48000
  | 11 => 96000
  | _ => 0

/-- The sample rate and the index behind its field. -/
def sampleRate (info : StreamInfo) (b : List UInt8) (srCode j : ℕ) : Except Err (ℕ × ℕ) :=
  if srCode = 0 then pure (info.rate, j)
  else if srCode = 12 then return ((← byteAt b j).toNat * 1000, j + 1)
  else if srCode = 13 then return (← uint16At b j, j + 2)
  else if srCode = 14 then return ((← uint16At b j) * 10, j + 2)
  else pure (fixedRate srCode, j)

/-- The sample sizes with a code of their own. -/
def sampleSize : ℕ → ℕ
  | 1 => 8
  | 2 => 12
  | 4 => 16
  | 5 => 20
  | 6 => 24
  | 7 => 32
  | _ => 0

/-- The fields of a header agree with `STREAMINFO`. -/
def agrees (info : StreamInfo) (rate chCode ssCode block : ℕ) : Bool :=
  rate = info.rate ∧ (if 8 ≤ chCode then 2 else chCode + 1) = info.channels ∧
    (sampleSize ssCode = 0 ∨ sampleSize ssCode = info.bitsPerSample) ∧
    ¬ (info.maxBlock < block ∧ 0 < info.maxBlock)

/-- Fixed-blocksize streams number frames, the others samples. -/
def firstSample (info : StreamInfo) (variableBlock : Bool) (number : ℕ) : ℤ :=
  if variableBlock then number else number * info.minBlock

/-- What follows the four fixed bytes of a header at `h`. -/
def parseFields (info : StreamInfo) (h : List UInt8) (variableBlock : Bool)
    (bsCode srCode chCode ssCode : ℕ) : Except Err (Option Frame) := do
  match ← readUTF8Number (h.drop 4) with
  | none => pure none
  | some (number, n) =>
    match ← blockSize h bsCode (4 + n) with
    | none => pure none
    | some (block, j) => do
        let (rate, j) ← sampleRate info h srCode j
        if h.length ≤ j then pure none
        else do
          let crc ← byteAt h j
          if crc8 (h.take j) ≠ crc then pure none
          else if agrees info rate chCode ssCode block then
            pure (some ⟨firstSample info variableBlock number, block⟩)
          else pure none

/-- A header at the front of `h`. -/
def parseHeader (info : StreamInfo) (h : List UInt8) : Except Err (Option Frame) := do
  let b₀ ← byteAt h 0
  if b₀ ≠ 0xFF then pure none
  else do
    let b₁ ← byteAt h 1
    if b₁ &&& 0xFE ≠ 0xF8 then pure none
    else do
      let b₂ ← byteAt h 2
      let b₃ ← byteAt h 3
      let bsCode := (b₂ >>> 4).toNat
      let srCode := (b₂ &&& 0xF).toNat
      let chCode := (b₃ >>> 4).toNat
      let ssCode := ((b₃ >>> 1) &&& 7).toNat
      if b₃ &&& 1 ≠ 0 ∨ bsCode = 0 ∨ srCode = 0xF ∨ 10 < chCode ∨ ssCode = 3 then pure none
      else parseFields info h (b₁ &&& 1 = 1) bsCode srCode chCode ssCode

/-- The header at `b[i:]`; the first byte that is read is `b[i]`. -/
def parseFrame (info : StreamInfo) (b : List UInt8) (i : ℤ) : Except Err (Option Frame) :=
  if (b.length : ℤ) < i + 16 then pure none
  else if i < 0 then throw .panic
  else parseHeader info (b.drop i.toNat)

/-! ### A header reads the same whatever follows it -/

section Local

variable {p q : List UInt8} {j k : ℕ}

lemma byteAt_local (hk : k < p.length) : ∃ x, ∀ rest, byteAt (p ++ rest) k = .ok x := by
  refine ⟨p[k], fun rest => ?_⟩
  rw [byteAt, getElem?_append_left hk, getElem?_eq_getElem hk]
  rfl

lemma uint16At_local (hk : k + 1 < p.length) : ∃ x, ∀ rest, uint16At (p ++ rest) k = .ok x := by
  obtain ⟨hi, hhi⟩ := byteAt_local (Nat.lt_of_succ_lt hk)
  obtain ⟨lo, hlo⟩ := byteAt_local hk
  refine ⟨hi.toNat * 256 + lo.toNat, fun rest => ?_⟩
  rw [uint16At, hhi, hlo]
  rfl

lemma readTail_local {extra : ℕ} (v : ℕ) (h : k + extra ≤ q.length) :
    ∃ r, ∀ rest, readTail (q ++ rest) extra k v = .ok r := by
  induction extra generalizing k v with
  | zero => exact ⟨some v, fun _ => rfl⟩
  | succ extra ih =>
    obtain ⟨x, hx⟩ := byteAt_local (show k < q.length by omega)
    obtain ⟨r, hr⟩ := ih (v <<< 6 ||| (x &&& 0x3F).toNat) (show k + 1 + extra ≤ q.length by omega)
    refine ⟨if x &&& 0xC0 ≠ 0x80 then none else r, fun rest => ?_⟩
    rw [readTail, hx]
    by_cases hcont : x &&& 0xC0 ≠ 0x80
    · simp only [bind, Except.bind, if_pos hcont]
      rfl
    · simp only [bind, Except.bind, if_neg hcont, hr]

lemma extra_le_of_leadByte {first : UInt8} {extra v : ℕ} (h : leadByte first = some (extra, v)) :
    extra ≤ 6 := by
  unfold leadByte at h
  split_ifs at h <;>
  · cases h
    omega

lemma readUTF8Number_local (hq : 7 ≤ q.length) :
    ∃ r, (∀ rest, readUTF8Number (q ++ rest) = .ok r) ∧ ∀ number n, r = some (number, n) → n ≤ 7 := by
  cases q with
  | nil => simp at hq
  | cons first q =>
    cases hlead : leadByte first with
    | none =>
      refine ⟨none, fun rest => ?_, fun _ _ h => absurd h (by simp)⟩
      simp [readUTF8Number, hlead, pure, Except.pure]
    | some lead =>
      obtain ⟨extra, v⟩ := lead
      have hextra := extra_le_of_leadByte hlead
      obtain ⟨r, hr⟩ := readTail_local v (show 1 + extra ≤ (first :: q).length by omega)
      refine ⟨r.map (·, 1 + extra), fun rest => ?_, fun number n h => ?_⟩
      · have hlen : ¬ (first :: (q ++ rest)).length < 1 + extra := by
          simp only [length_cons, length_append] at hq ⊢
          omega
        rw [cons_append, readUTF8Number, hlead]
        dsimp only
        rw [if_neg hlen, ← cons_append, hr]
        rfl
      · obtain ⟨_, -, heq⟩ := Option.map_eq_some_iff.mp h
        cases heq
        omega

lemma blockSize_local (bsCode : ℕ) (hj : j + 2 ≤ p.length) :
    ∃ r, (∀ rest, blockSize (p ++ rest) bsCode j = .ok r) ∧
      ∀ block j', r = some (block, j') → j' ≤ j + 2 := by
  obtain ⟨x, hx⟩ := byteAt_local (show j < p.length by omega)
  obtain ⟨y, hy⟩ := uint16At_local (show j + 1 < p.length by omega)
  have hlen : ∀ (rest : List UInt8) m, m ≤ 2 → ¬ (p ++ rest).length < j + m := by
    intro rest m hm
    rw [length_append]
    omega
  unfold blockSize
  split_ifs
  · exact ⟨_, fun _ => rfl, fun _ _ h => by cases h; omega⟩
  · exact ⟨_, fun _ => rfl, fun _ _ h => by cases h; omega⟩
  · refine ⟨some (x.toNat + 1, j + 1), fun rest => ?_, fun _ _ h => by cases h; omega⟩
    rw [if_neg (hlen rest 1 (by omega)), hx]
    rfl
  · refine ⟨some (y + 1, j + 2), fun rest => ?_, fun _ _ h => by cases h; omega⟩
    rw [if_neg (hlen rest 2 (by omega)), hy]
    rfl
  · exact ⟨_, fun _ => rfl, fun _ _ h => by cases h; omega⟩

lemma sampleRate_local (info : StreamInfo) (srCode : ℕ) (hj : j + 2 ≤ p.length) :
    ∃ r, (∀ rest, sampleRate info (p ++ rest) srCode j = .ok r) ∧ r.2 ≤ j + 2 := by
  obtain ⟨x, hx⟩ := byteAt_local (show j < p.length by omega)
  obtain ⟨y, hy⟩ := uint16At_local (show j + 1 < p.length by omega)
  unfold sampleRate
  split_ifs
  · exact ⟨_, fun _ => rfl, by dsimp only; omega⟩
  · refine ⟨(x.toNat * 1000, j + 1), fun rest => ?_, by dsimp only; omega⟩
    rw [hx]
    rfl
  · refine ⟨(y, j + 2), fun rest => ?_, le_rfl⟩
    rw [hy]
    rfl
  · refine ⟨(y * 10, j + 2), fun rest => ?_, le_rfl⟩
    rw [hy]
    rfl
  · exact ⟨_, fun _ => rfl, by dsimp only; omega⟩

lemma parseFields_local (info : StreamInfo) (hp : 16 ≤ p.length) (variableBlock : Bool)
    (bsCode srCode chCode ssCode : ℕ) :
    ∃ r, ∀ rest, parseFields info (p ++ rest) variableBlock bsCode srCode chCode ssCode = .ok r := by
  have hdrop : ∀ rest, (p ++ rest).drop 4 = p.drop 4 ++ rest := fun rest =>
    drop_append_of_le_length (by omega)
  obtain ⟨r1, hnumber, hn⟩ := readUTF8Number_local (show 7 ≤ (p.drop 4).length by
    rw [length_drop]; omega)
  cases r1 with
  | none =>
    refine ⟨none, fun rest => ?_⟩
    rw [parseFields, hdrop, hnumber]
    rfl
  | some x =>
    obtain ⟨number, n⟩ := x
    have hn := hn number n rfl
    obtain ⟨r2, hblock, hj⟩ := blockSize_local bsCode (show 4 + n + 2 ≤ p.length by omega)
    cases r2 with
    | none =>
      refine ⟨none, fun rest => ?_⟩
      rw [parseFields, hdrop, hnumber]
      simp only [bind, Except.bind, hblock]
      rfl
    | some y =>
      obtain ⟨block, j⟩ := y
      have hj := hj block j rfl
      obtain ⟨⟨rate, j'⟩, hrate, hj'⟩ := sampleRate_local info srCode (show j + 2 ≤ p.length by omega)
      obtain ⟨crc, hcrc⟩ := byteAt_local (show j' < p.length by omega)
      refine ⟨if crc8 (p.take j') ≠ crc then none
        else if agrees info rate chCode ssCode block then
          some ⟨firstSample info variableBlock number, block⟩ else none, fun rest => ?_⟩
      have hlen : ¬ (p ++ rest).length ≤ j' := by
        rw [length_append]
        omega
      rw [parseFields, hdrop, hnumber]
      simp only [bind, Except.bind, hblock, hrate, if_neg hlen, hcrc,
        take_append_of_le_length (show j' ≤ p.length by omega)]
      split_ifs <;> rfl

lemma parseHeader_local (info : StreamInfo) (hp : 16 ≤ p.length) :
    ∃ r, ∀ rest, parseHeader info (p ++ rest) = .ok r := by
  obtain ⟨b0, h0⟩ := byteAt_local (show 0 < p.length by omega)
  obtain ⟨b1, h1⟩ := byteAt_local (show 1 < p.length by omega)
  obtain ⟨b2, h2⟩ := byteAt_local (show 2 < p.length by omega)
  obtain ⟨b3, h3⟩ := byteAt_local (show 3 < p.length by omega)
  obtain ⟨r, hr⟩ := parseFields_local info hp (b1 &&& 1 = 1) (b2 >>> 4).toNat (b2 &&& 0xF).toNat
    (b3 >>> 4).toNat ((b3 >>> 1) &&& 7).toNat
  unfold parseHeader
  simp only [h0, h1, h2, h3, hr, bind, Except.bind]
  split_ifs <;> exact ⟨_, fun _ => rfl⟩

end Local

variable {info : StreamInfo} {b : List UInt8} {i : ℕ}

lemma parseFrame_eq_parseHeader (h : i + 16 ≤ b.length) :
    parseFrame info b i = parseHeader info (b.drop i) := by
  unfold parseFrame
  rw [if_neg (by omega), if_neg (by omega), Int.toNat_natCast]

lemma parseFrame_of_short (h : b.length < i + 16) : parseFrame info b i = .ok none := by
  unfold parseFrame
  rw [if_pos (by omega)]
  rfl

lemma firstSample_nonneg (info : StreamInfo) (variableBlock : Bool) (number : ℕ) :
    0 ≤ firstSample info variableBlock number := by
  unfold firstSample
  split_ifs
  · exact Int.natCast_nonneg _
  · exact Int.mul_nonneg (Int.natCast_nonneg _) (Int.natCast_nonneg _)

lemma sample_nonneg_of_fields {h : List UInt8} {variableBlock : Bool}
    {bsCode srCode chCode ssCode : ℕ} {f : Frame}
    (hf : parseFields info h variableBlock bsCode srCode chCode ssCode = .ok (some f)) :
    0 ≤ f.sample := by
  obtain ⟨x, -, hf⟩ := ok_of_bind hf
  cases x with
  | none => cases hf
  | some x =>
    obtain ⟨y, -, hf⟩ := ok_of_bind hf
    cases y with
    | none => cases hf
    | some y =>
      obtain ⟨⟨rate, j⟩, -, hf⟩ := ok_of_bind hf
      dsimp only at hf
      split_ifs at hf with hlen hagrees
      · cases hf
      · obtain ⟨crc, -, hf⟩ := ok_of_bind hf
        split_ifs at hf
        · cases hf
        · cases hf
          exact firstSample_nonneg _ _ _
      · obtain ⟨crc, -, hf⟩ := ok_of_bind hf
        split_ifs at hf <;> cases hf

lemma sample_nonneg_of_parse {i : ℤ} {f : Frame} (hf : parseFrame info b i = .ok (some f)) :
    0 ≤ f.sample := by
  unfold parseFrame at hf
  split_ifs at hf
  · cases hf
  obtain ⟨b0, -, hf⟩ := ok_of_bind hf
  split_ifs at hf
  · cases hf
  obtain ⟨b1, -, hf⟩ := ok_of_bind hf
  split_ifs at hf
  · cases hf
  obtain ⟨b2, -, hf⟩ := ok_of_bind hf
  obtain ⟨b3, -, hf⟩ := ok_of_bind hf
  dsimp only at hf
  split_ifs at hf
  · cases hf
  · exact sample_nonneg_of_fields hf

lemma parseFrame_ok (info : StreamInfo) (b : List UInt8) (i : ℕ) :
    ∃ r, parseFrame info b i = .ok r := by
  by_cases h : i + 16 ≤ b.length
  · obtain ⟨r, hr⟩ := parseHeader_local info (show 16 ≤ (b.drop i).length by
      rw [length_drop]; omega)
    refine ⟨r, ?_⟩
    rw [parseFrame_eq_parseHeader h, ← append_nil (b.drop i)]
    exact hr []
  · exact ⟨none, parseFrame_of_short (by omega)⟩

/-- A header that lies in a window of the image reads there as in the image. -/
lemma parseFrame_window (info : StreamInfo) (bytes : List UInt8) (start n : ℕ)
    (h : i + 16 ≤ ((bytes.drop start).take n).length) :
    parseFrame info ((bytes.drop start).take n) i = parseFrame info bytes ((start + i : ℕ) : ℤ) := by
  rw [length_take, length_drop] at h
  rw [parseFrame_eq_parseHeader (by rw [length_take, length_drop]; omega),
    parseFrame_eq_parseHeader (show start + i + 16 ≤ bytes.length by omega)]
  obtain ⟨r, hr⟩ := parseHeader_local info
    (show 16 ≤ (((bytes.drop start).take n).drop i).length by
      rw [length_drop, length_take, length_drop]; omega)
  have hsplit : bytes.drop (start + i)
      = ((bytes.drop start).take n).drop i ++ (bytes.drop start).drop n := by
    rw [← drop_drop, ← drop_append_of_le_length
      (by rw [length_take, length_drop]; omega), take_append_drop]
  rw [hsplit, hr, ← append_nil (((bytes.drop start).take n).drop i), hr]

/-! ### Coded numbers -/

/-- How many continuation bytes FLAC codes a number below `2 ^ 36` with. -/
def codedExtra (v : ℕ) : ℕ :=
  if v < 2 ^ 7 then 0
  else if v < 2 ^ 11 then 1
  else if v < 2 ^ 16 then 2
  else if v < 2 ^ 21 then 3
  else if v < 2 ^ 26 then 4
  else if v < 2 ^ 31 then 5
  else 6

/-- The marker of a first byte that `extra` others follow. -/
def leadMark (extra : ℕ) : ℕ := if extra = 0 then 0 else 2 ^ 8 - 2 ^ (7 - extra)

/-- The last `extra` groups of six bits, each in a byte of its own. -/
def codedTail (v : ℕ) : ℕ → List UInt8
  | 0 => []
  | extra + 1 => UInt8.ofNat (0x80 + v / 64 ^ extra % 64) :: codedTail v extra

/-- FLAC's coding of a number below `2 ^ 36`. -/
def codedNumber (v : ℕ) : List UInt8 :=
  UInt8.ofNat (leadMark (codedExtra v) + v / 64 ^ codedExtra v) :: codedTail v (codedExtra v)

lemma length_codedTail (v extra : ℕ) : (codedTail v extra).length = extra := by
  induction extra with
  | zero => rfl
  | succ extra ih => rw [codedTail, length_cons, ih]

lemma continuation_bits {d : ℕ} (hd : d < 64) : UInt8.ofNat (0x80 + d) &&& 0xC0 = 0x80 ∧
    (UInt8.ofNat (0x80 + d) &&& 0x3F).toNat = d := by
  have h : ∀ d : Fin 64, UInt8.ofNat (0x80 + d) &&& 0xC0 = 0x80 ∧
      (UInt8.ofNat (0x80 + d) &&& 0x3F).toNat = d := by decide
  exact h ⟨d, hd⟩

lemma readTail_codedTail {b rest : List UInt8} {v extra k : ℕ} (acc : ℕ)
    (hb : b.drop k = codedTail v extra ++ rest) :
    readTail b extra k acc = .ok (some (acc * 64 ^ extra + v % 64 ^ extra)) := by
  induction extra generalizing k acc with
  | zero =>
    rw [pow_zero, Nat.mod_one, mul_one]
    rfl
  | succ extra ih =>
    have hd : v / 64 ^ extra % 64 < 64 := Nat.mod_lt _ (by decide)
    obtain ⟨hmark, hbits⟩ := continuation_bits hd
    have hbyte : byteAt b k = .ok (UInt8.ofNat (0x80 + v / 64 ^ extra % 64)) := by
      have hget : b[k]? = some (UInt8.ofNat (0x80 + v / 64 ^ extra % 64)) := by
        rw [← head?_drop, hb]
        rfl
      rw [byteAt, hget]
      rfl
    have hnext : b.drop (k + 1) = codedTail v extra ++ rest := by
      rw [← tail_drop, hb]
      rfl
    rw [readTail, hbyte]
    simp only [bind, Except.bind, hmark, ne_eq, not_true_eq_false, if_false]
    rw [ih _ hnext, hbits, ← Nat.shiftLeft_add_eq_or_of_lt hd, Nat.shiftLeft_eq, Nat.mod_pow_succ]
    congr 2
    ring

/-- The first byte tells how many others follow, and keeps the bits above theirs. -/
lemma leadByte_codedNumber {v : ℕ} (hv : v < 2 ^ 36) :
    leadByte (UInt8.ofNat (leadMark (codedExtra v) + v / 64 ^ codedExtra v))
      = some (codedExtra v, v / 64 ^ codedExtra v) := by
  have hzero : ∀ t < 2 ^ 7, leadByte (UInt8.ofNat (leadMark 0 + t)) = some (0, t) := by decide
  have hlead : ∀ extra < 7, 0 < extra → ∀ t < 2 ^ (6 - extra),
      leadByte (UInt8.ofNat (leadMark extra + t)) = some (extra, t) := by decide
  unfold codedExtra
  split_ifs
  · exact hzero _ (by omega)
  all_goals exact hlead _ (by decide) (by decide) _ (by norm_num; omega)

lemma readUTF8Number_codedNumber {v : ℕ} (hv : v < 2 ^ 36) (rest : List UInt8) :
    readUTF8Number (codedNumber v ++ rest) = .ok (some (v, (codedNumber v).length)) := by
  have hlen : (codedNumber v).length = 1 + codedExtra v := by
    rw [codedNumber, length_cons, length_codedTail, Nat.add_comm]
  have htail := readTail_codedTail (b := codedNumber v ++ rest) (k := 1) (v / 64 ^ codedExtra v) rfl
  rw [Nat.div_add_mod'] at htail
  rw [hlen]
  rw [codedNumber, cons_append] at htail ⊢
  rw [readUTF8Number, leadByte_codedNumber hv]
  dsimp only
  rw [if_neg (by rw [length_cons, length_append, length_codedTail]; omega), htail]
  rfl

/-- No read of `parseFrame` is out of range, and `readUTF8Number` inverts FLAC's coding of the
numbers below `2 ^ 36`. -/
theorem frame_headers_are_read_inside_the_slice (info : StreamInfo) :
    (∀ (b : List UInt8) (i : ℕ), ∃ r, parseFrame info b i = .ok r) ∧
      ∀ v < 2 ^ 36, ∀ rest,
        readUTF8Number (codedNumber v ++ rest) = .ok (some (v, (codedNumber v).length)) :=
  ⟨parseFrame_ok info, fun _ hv rest => readUTF8Number_codedNumber hv rest⟩

theorem two_byte_number_is_read :
    codedNumber 256 = [0xC4, 0x80] ∧ readUTF8Number [0xC4, 0x80, 7] = .ok (some (256, 2)) :=
  ⟨by decide, (frame_headers_are_read_inside_the_slice ⟨[], 0, 0, 0, 0, 0, 0⟩).2 256 (by decide) [7]⟩

end Tiramisu.Audio
