import Tiramisu.Go.Sort
import Tiramisu.Lib.Spans
import Tiramisu.Torrstor.Readers

/-!
# Which pieces the cache may evict

`getRemPieces` checks every reader, collects the windows of those in use, merges
them, and offers the complete pieces that lie in no window and in no protected
head or tail.  The heads and tails are those of the files the merged ranges stand
for, and a merged range stands for the file of its first window only.
-/

namespace Tiramisu.Torrstor

open Spans List
open Go

/-- `Start`, `End` and `File` of a range. -/
abbrev Range := Span ℤ File

/-- `portion share percent` is the product `share * 0.85 * percent / 100` as the
floating point of the source has it, truncated. -/
structure Env where
  readerReadAHead : ℤ
  now : ℤ
  portion : ℤ → ℤ → ℤ

structure Piece where
  size : ℤ
  complete : Bool
  accessed : ℤ
  deriving DecidableEq, Repr

/-- The key of a piece is its place in `pieces`; the maps are `none` once they are
nil.  `Init` makes the bitmap before the pieces, and both after `pieceCount`. -/
structure Cache where
  capacity : ℤ
  pieceLength : ℤ
  pieceCount : ℕ
  pieceInRange : List Bool
  pieces : Option (List Piece)
  readers : Option (List Reader)
  activeReaders : ℤ
  isClosed : Bool
  sized : pieceInRange.length ≤ pieceCount
  listed : ∀ ps, pieces = some ps → ps.length ≤ pieceInRange.length

namespace Cache

def newCache (capacity : ℤ) : Cache where
  capacity := capacity
  pieceLength := 0
  pieceCount := 0
  pieceInRange := []
  pieces := some []
  readers := some []
  activeReaders := 0
  isClosed := false
  sized := Nat.le_refl 0
  listed ps h := by
    cases h
    exact Nat.le_refl 0

/-- `Init`, with pieces in any later state. -/
def init (c : Cache) (pieceLength : ℤ) (pieces : List Piece) : Cache :=
  { c with
    capacity := if c.capacity = 0 then pieceLength * 4 else c.capacity
    pieceLength
    pieceCount := pieces.length
    pieceInRange := List.replicate pieces.length false
    pieces := some pieces
    sized := by simp
    listed := by simp }

end Cache

/-! ### The window of a reader -/

namespace Reader

def getPieceNum (c : Cache) (r : Reader) (offset : ℤ) : ℤ :=
  (offset + r.file.offset).tdiv c.pieceLength

def getOffsetRange (env : Env) (c : Cache) (active : ℤ) (r : Reader) : ℤ × ℤ :=
  let readers := if active = 0 then 1 else active
  let share := c.capacity.tdiv readers
  let beginOffset := r.offset - env.portion share (100 - env.readerReadAHead)
  let endOffset := r.offset + env.portion share env.readerReadAHead
  (if beginOffset < 0 then 0 else beginOffset,
    if r.file.length < endOffset then r.file.length else endOffset)

def getPiecesRange (env : Env) (c : Cache) (active : ℤ) (r : Reader) : Range :=
  let (startOff, endOff) := r.getOffsetRange env c active
  ⟨r.getPieceNum c startOff, r.getPieceNum c endOff, r.file⟩

def checkReader (env : Env) (readers : ℕ) (r : Reader) (active : ℤ) : Reader × ℤ :=
  if r.lastAccess + 60 < env.now ∧ 1 < readers then r.readerOff active else r.readerOn active

end Reader

/-! ### Ranges -/

def lessRange (a b : Range) : Bool :=
  if a.start < b.start then true
  else if a.start = b.start ∧ a.stop < b.stop then true
  else false

def mergeRange (S : Sorter) (ranges : List Range) : List Range :=
  if ranges.length ≤ 1 then ranges
  else
    match S.slice lessRange ranges with
    | [] => []
    | rng :: rest => merge rng rest

def inRanges (ranges : List Range) (ind : ℤ) : Bool :=
  let i := search ranges.length fun i => ranges[i]?.any fun rng => decide (ind ≤ rng.stop)
  ranges[i]?.any fun rng => decide (rng.start ≤ ind)

/-- The inner loop of `fillPieceInRange`, with `none` for an index past the end. -/
def markFrom (dst : List Bool) (i : ℕ) : ℕ → Option (List Bool)
  | 0 => some dst
  | n + 1 => if i < dst.length then markFrom (dst.set i true) (i + 1) n else none

def markRange (pieceCount : ℕ) (dst : List Bool) (rng : Range) : Option (List Bool) :=
  let start := if rng.start < 0 then 0 else rng.start
  let stop := if (pieceCount : ℤ) ≤ rng.stop then (pieceCount : ℤ) - 1 else rng.stop
  markFrom dst start.toNat (stop + 1 - start).toNat

def fillPieceInRange (dst : List Bool) (ranges : List Range) (pieceCount : ℕ) :
    Option (List Bool) :=
  ranges.foldlM (markRange pieceCount) (dst.map fun _ => false)

def pieceEvictable (size : ℤ) (complete inReaderWindow : Bool) : Bool :=
  decide (0 < size) && complete && !inReaderWindow

def fileRangeNotDelete (c : Cache) : ℤ :=
  if c.pieceLength < 8 * 2 ^ 20 then 8 * 2 ^ 20 else c.pieceLength

/-- The piece is in the protected head or tail of the file. -/
def isIdInBE (c : Cache) (file : File) (id : ℕ) : Bool :=
  let ss := file.offset.tdiv c.pieceLength
  let se := (file.offset + fileRangeNotDelete c).tdiv c.pieceLength
  let es := (file.offset + file.length - fileRangeNotDelete c).tdiv c.pieceLength
  let ee := (file.offset + file.length).tdiv c.pieceLength
  decide (ss ≤ id ∧ (id : ℤ) < se) || decide (es < id ∧ (id : ℤ) ≤ ee)

def isIdInFileBE (c : Cache) (ranges : List Range) (id : ℕ) : Bool :=
  ranges.any fun rng => isIdInBE c rng.tag id

/-! ### `getRemPieces` -/

/-- The readers as the loop leaves them, each with its window at its turn, and the
counter. -/
def checkReaders (env : Env) (c : Cache) (readers : ℕ) :
    ℤ → List Reader → List (Reader × Range) × ℤ
  | active, [] => ([], active)
  | active, r :: rs =>
    let (r, active) := r.checkReader env readers active
    let (rest, last) := checkReaders env c readers active rs
    ((r, r.getPiecesRange env c active) :: rest, last)

def rangesInUse (checked : List (Reader × Range)) : List Range :=
  (checked.filter fun rw => rw.1.isUse).map Prod.snd

/-- What `getRemPieces` returns and what it leaves behind. -/
structure RemPieces where
  offered : List (Piece × ℕ)
  readers : List (Reader × Range)
  activeReaders : ℤ
  pieceInRange : List Bool
  filled : ℤ

/-- The loop over the pieces. -/
def scanPieces (c : Cache) (ranges : List Range) (inRange : List Bool) (pieces : List Piece) :
    List (Piece × ℕ) :=
  pieces.zipIdx.filter fun (p, id) =>
    pieceEvictable p.size p.complete (inRange[id]?.getD false) && !isIdInFileBE c ranges id

/-- The priorities it sets on the way are left out.  `none` is a panic: a window
asks for a division by the piece length, and a range may pass the bitmap. -/
def getRemPieces (S : Sorter) (env : Env) (c : Cache) : Option RemPieces :=
  match c.isClosed, c.pieces, c.readers with
  | false, some pieces, some readers =>
    let (checked, active) := checkReaders env c readers.length c.activeReaders readers
    if c.pieceLength = 0 ∧ rangesInUse checked ≠ [] then none
    else
      let ranges := mergeRange S (rangesInUse checked)
      (fillPieceInRange c.pieceInRange ranges c.pieceCount).map fun inRange =>
        { offered := S.slice (fun a b => decide (a.1.accessed < b.1.accessed))
            (scanPieces c ranges inRange pieces)
          readers := checked
          activeReaders := active
          pieceInRange := inRange
          filled := ((pieces.map Piece.size).filter fun sz => 0 < sz).sum }
  | _, _, _ => some ⟨[], [], c.activeReaders, c.pieceInRange, 0⟩

/-! ### The bitmap -/

lemma markFrom_spec {dst dst' : List Bool} {i n : ℕ} (h : markFrom dst i n = some dst') :
    dst'.length = dst.length ∧
      ∀ j : ℕ, dst'[j]? = some true ↔ dst[j]? = some true ∨ i ≤ j ∧ j < i + n := by
  induction n generalizing dst i with
  | zero =>
    cases h
    refine ⟨rfl, fun j => ⟨Or.inl, fun hj => ?_⟩⟩
    rcases hj with hj | hj
    · exact hj
    · omega
  | succ n ih =>
    rw [markFrom] at h
    split at h
    · rename_i hi
      obtain ⟨hlength, hmarked⟩ := ih h
      refine ⟨by rw [hlength, length_set], fun j => ?_⟩
      rw [hmarked]
      by_cases hji : j = i
      · subst hji
        simp [getElem?_set_self hi]
      · rw [getElem?_set_ne (Ne.symm hji)]
        have : i + 1 ≤ j ∧ j < i + 1 + n ↔ i ≤ j ∧ j < i + (n + 1) := by omega
        rw [this]
    · cases h

lemma markFrom_isSome {dst : List Bool} {i n : ℕ} (h : i + n ≤ dst.length ∨ n = 0) :
    (markFrom dst i n).isSome := by
  induction n generalizing dst i with
  | zero => rfl
  | succ n ih =>
    rw [markFrom, if_pos (by omega)]
    apply ih
    rw [length_set]
    omega

lemma markRange_spec {pieceCount : ℕ} {dst dst' : List Bool} {rng : Range}
    (h : markRange pieceCount dst rng = some dst') (hlength : dst.length ≤ pieceCount) :
    dst'.length = dst.length ∧ ∀ id : ℕ, id < dst.length →
      (dst'[id]? = some true ↔ dst[id]? = some true ∨ rng.Holds id) := by
  obtain ⟨hsame, hmarked⟩ := markFrom_spec h
  refine ⟨hsame, fun id hid => ?_⟩
  rw [hmarked, Span.Holds]
  apply or_congr_right
  split <;> split <;> omega

lemma fillPieceInRange_spec {pieceCount : ℕ} {dst dst' : List Bool} {ranges : List Range}
    (h : fillPieceInRange dst ranges pieceCount = some dst') (hlength : dst.length ≤ pieceCount) :
    dst'.length = dst.length ∧
      ∀ id : ℕ, id < dst.length → (dst'[id]? = some true ↔ ∃ rng ∈ ranges, rng.Holds id) := by
  have hloop : ∀ (ranges : List Range) (dst : List Bool), dst.length ≤ pieceCount →
      ranges.foldlM (markRange pieceCount) dst = some dst' → dst'.length = dst.length ∧
      ∀ id : ℕ, id < dst.length →
        (dst'[id]? = some true ↔ dst[id]? = some true ∨ ∃ rng ∈ ranges, rng.Holds id) := by
    intro ranges
    induction ranges with
    | nil =>
      intro dst _ hfold
      cases hfold
      simp
    | cons r rs ih =>
      intro dst hlength hfold
      rw [foldlM_cons] at hfold
      obtain ⟨next, hnext, hrest⟩ := Option.bind_eq_some_iff.mp hfold
      obtain ⟨hsame, hmarked⟩ := markRange_spec hnext hlength
      obtain ⟨hlast, hall⟩ := ih next (by omega) hrest
      refine ⟨by omega, fun id hid => ?_⟩
      rw [hall id (by omega), hmarked id hid, exists_mem_cons_iff, or_assoc]
  obtain ⟨hsame, hall⟩ := hloop ranges (dst.map fun _ => false) (by rwa [length_map]) h
  rw [length_map] at hsame hall
  refine ⟨hsame, fun id hid => ?_⟩
  rw [hall id hid, getElem?_map, getElem?_eq_getElem hid]
  simp

/-- A bitmap with a place for every piece is never left. -/
lemma fillPieceInRange_isSome (dst : List Bool) (ranges : List Range) :
    (fillPieceInRange dst ranges dst.length).isSome := by
  have hloop : ∀ (ranges : List Range) (bitmap : List Bool), bitmap.length = dst.length →
      (ranges.foldlM (markRange dst.length) bitmap).isSome := by
    intro ranges
    induction ranges with
    | nil => exact fun _ _ => rfl
    | cons r rs ih =>
      intro bitmap hlength
      have hmark : (markRange dst.length bitmap r).isSome := by
        apply markFrom_isSome
        split <;> split <;> omega
      obtain ⟨next, hnext⟩ := Option.isSome_iff_exists.mp hmark
      rw [foldlM_cons, hnext]
      exact ih next ((markRange_spec hnext (by omega)).1.trans hlength)
  exact hloop ranges _ (length_map _)

/-! ### The merged ranges -/

lemma lessRange_eq_false {a b : Range} :
    lessRange a b = false ↔ b.start < a.start ∨ b.start = a.start ∧ b.stop ≤ a.stop := by
  unfold lessRange
  split_ifs with hstart hstop
  · simp only [false_iff]
    omega
  · simp only [false_iff]
    omega
  · simp only [true_iff]
    omega

lemma lessRange_eq_true {a b : Range} :
    lessRange a b = true ↔ a.start < b.start ∨ a.start = b.start ∧ a.stop < b.stop := by
  rw [← Bool.not_eq_false, lessRange_eq_false]
  omega

lemma strictWeakOn_lessRange (ranges : List Range) : StrictWeakOn lessRange ranges where
  irrefl a _ := by
    rw [lessRange_eq_false]
    omega
  trans a _ b _ c _ hab hbc := by
    rw [lessRange_eq_true] at *
    omega
  incomparable a _ b _ c _ hab hba hbc hcb := by
    rw [lessRange_eq_false] at *
    rw [lessRange_eq_false]
    omega

lemma sorted_slice (S : Sorter) (ranges : List Range) :
    (S.slice lessRange ranges).Pairwise fun a b => a.start ≤ b.start := by
  apply (S.sorted lessRange ranges (strictWeakOn_lessRange ranges)).imp
  intro a b hba
  rw [lessRange_eq_false] at hba
  omega

/-- Merging loses no piece of a window and adds none, and leaves the ranges apart. -/
lemma mergeRange_spec (S : Sorter) (ranges : List Range) :
    (∀ x, (∃ m ∈ mergeRange S ranges, m.Holds x) ↔ ∃ rng ∈ ranges, rng.Holds x) ∧
      (mergeRange S ranges).Pairwise fun a b => a.stop < b.start := by
  unfold mergeRange
  split
  · rename_i hshort
    refine ⟨fun _ => Iff.rfl, ?_⟩
    match ranges with
    | [] => exact List.Pairwise.nil
    | [rng] => exact pairwise_singleton _ _
  · have hmem : ∀ rng, rng ∈ S.slice lessRange ranges ↔ rng ∈ ranges := fun _ => (S.perm _ _).mem_iff
    have hsorted := sorted_slice S ranges
    simp only [← hmem]
    split
    · rename_i hnil
      rw [hnil]
      exact ⟨fun _ => Iff.rfl, List.Pairwise.nil⟩
    · rename_i first rest hcons
      rw [hcons] at hsorted ⊢
      exact ⟨fun x => ⟨holds_of_merge, holds_merge hsorted⟩, apart_merge hsorted⟩

lemma valid_mergeRange (S : Sorter) {ranges : List Range}
    (hvalid : ∀ rng ∈ ranges, rng.start ≤ rng.stop) :
    ∀ m ∈ mergeRange S ranges, m.start ≤ m.stop := by
  unfold mergeRange
  split
  · exact hvalid
  have hslice : ∀ rng ∈ S.slice lessRange ranges, rng.start ≤ rng.stop :=
    fun rng hrng => hvalid rng ((S.perm _ _).mem_iff.mp hrng)
  split
  · simp
  · rename_i first rest hcons
    rw [hcons] at hslice
    exact forall_merge (P := (· ≤ ·)) le_trans hslice

/-! ### Membership -/

lemma inRanges_eq_true_iff {ranges : List Range} (hvalid : ∀ rng ∈ ranges, rng.start ≤ rng.stop)
    (hapart : ranges.Pairwise fun a b => a.stop < b.start) (x : ℤ) :
    inRanges ranges x = true ↔ ∃ rng ∈ ranges, rng.Holds x := by
  have hmono : ranges.Pairwise fun a b => decide (x ≤ a.stop) = true → decide (x ≤ b.stop) = true := by
    refine hapart.imp_of_mem fun _ hb hgap hx => ?_
    rw [decide_eq_true_eq] at hx ⊢
    have := hvalid _ hb
    omega
  simp only [inRanges, getElem?_search hmono, Option.any_eq_true, decide_eq_true_eq]
  constructor
  · rintro ⟨rng, hrng, hstart⟩
    exact ⟨rng, mem_of_find?_eq_some hrng, hstart, by simpa using find?_some hrng⟩
  · rintro ⟨rng, hrng, hstart, hstop⟩
    refine ⟨rng, find?_of_pairwise hapart hrng (decide_eq_true hstop) fun t ht => ?_, hstart⟩
    rw [decide_eq_true_eq]
    omega

/-- Binary search in the merged ranges, a look at every range and the bitmap, of the
ranges as of the merged ones, tell the same. -/
theorem memberships_agree (S : Sorter) {ranges : List Range}
    (hvalid : ∀ rng ∈ ranges, rng.start ≤ rng.stop) :
    (∀ x : ℤ, inRanges (mergeRange S ranges) x = ranges.any fun rng => decide (rng.Holds x)) ∧
      ∀ dst : List Bool, ∀ l ∈ [ranges, mergeRange S ranges],
        ∃ bitmap, fillPieceInRange dst l dst.length = some bitmap ∧
          bitmap.length = dst.length ∧ ∀ id : ℕ, id < dst.length →
            bitmap[id]? = some (ranges.any fun rng => decide (rng.Holds id)) := by
  obtain ⟨hsame, hapart⟩ := mergeRange_spec S ranges
  have hany : ∀ x : ℤ, (ranges.any fun rng => decide (rng.Holds x)) = true
      ↔ ∃ rng ∈ ranges, rng.Holds x := by
    intro x
    simp only [any_eq_true, decide_eq_true_eq]
  constructor
  · intro x
    rw [Bool.eq_iff_iff, hany, inRanges_eq_true_iff (valid_mergeRange S hvalid) hapart, hsame]
  intro dst l hl
  obtain ⟨bitmap, hfill⟩ := Option.isSome_iff_exists.mp (fillPieceInRange_isSome dst l)
  obtain ⟨hlength, hmarked⟩ := fillPieceInRange_spec hfill (Nat.le_refl _)
  refine ⟨bitmap, hfill, hlength, fun id hid => ?_⟩
  have hl' : (∃ rng ∈ l, rng.Holds id) ↔ ∃ rng ∈ ranges, rng.Holds id := by
    rcases mem_pair.mp hl with rfl | rfl
    · exact Iff.rfl
    · exact hsame id
  have hlt : id < bitmap.length := by omega
  have hbit := (hmarked id hid).trans (hl'.trans (hany id).symm)
  rw [getElem?_eq_getElem hlt, Option.some.injEq] at hbit ⊢
  exact Bool.eq_iff_iff.mpr hbit

/-- Three windows that grow into one. -/
theorem overlapping_windows_agree :
    let windows : List Range := [⟨5, 9, ⟨0, 1⟩⟩, ⟨0, 3, ⟨0, 1⟩⟩, ⟨2, 6, ⟨1, 8⟩⟩]
    inRanges (mergeRange .insertion windows) 4 = true ∧
      inRanges (mergeRange .insertion windows) 10 = false := by
  intro windows
  have hvalid : ∀ rng ∈ windows, rng.start ≤ rng.stop := by decide
  have hagree := (memberships_agree .insertion hvalid).1
  exact ⟨(hagree 4).trans (by decide), (hagree 10).trans (by decide)⟩

lemma mergeRange_tag (S : Sorter) {ranges : List Range} {Q : File → Prop}
    (hpass : ∀ a ∈ ranges, ∀ b ∈ ranges, lessRange b a = false → b.start ≤ a.stop →
      Q b.tag → Q a.tag)
    {rng : Range} (hrng : rng ∈ ranges) (hq : Q rng.tag) : ∃ m ∈ mergeRange S ranges, Q m.tag := by
  unfold mergeRange
  split
  · exact ⟨rng, hrng, hq⟩
  have hmem : ∀ {x}, x ∈ S.slice lessRange ranges ↔ x ∈ ranges := (S.perm _ _).mem_iff
  have hsorted := S.sorted lessRange ranges (strictWeakOn_lessRange ranges)
  have hpairs : (S.slice lessRange ranges).Pairwise
      fun a b => b.start ≤ a.stop → Q b.tag → Q a.tag :=
    hsorted.imp_of_mem fun ha hb => hpass _ (hmem.mp ha) _ (hmem.mp hb)
  rw [← hmem] at hrng
  split
  · rename_i hnil
    rw [hnil] at hrng
    cases hrng
  · rename_i first rest hcons
    rw [hcons] at hrng hpairs
    exact tag_merge hpairs hrng hq

/-- Of two windows that meet the first one gives the merged range its file. -/
lemma mergeRange_pair {a b : Range} (hless : lessRange b a = false) (hmeet : b.start ≤ a.stop) :
    mergeRange .insertion [a, b] = [a.grow b] := by
  have hslice : Sorter.insertion.slice lessRange [a, b] = [a, b] := by
    simp [Sorter.insertion, hless]
  simp [mergeRange, hslice, Spans.merge, hmeet]

/-! ### What is offered -/

lemma mem_scanPieces {c : Cache} {ranges : List Range} {inRange : List Bool}
    {pieces : List Piece} {p : Piece} {id : ℕ} :
    (p, id) ∈ scanPieces c ranges inRange pieces ↔ pieces[id]? = some p ∧ 0 < p.size ∧
      p.complete = true ∧ inRange[id]? ≠ some true ∧ isIdInFileBE c ranges id = false := by
  rw [scanPieces, mem_filter, mem_zipIdx_iff_getElem?]
  rcases hbit : inRange[id]? with - | - | - <;> simp [pieceEvictable, hbit, and_assoc]

/-- The check of the next call leaves the reader as it is. -/
def Reader.steady (env : Env) (readers : ℕ) (r : Reader) : Bool :=
  if r.lastAccess + 60 < env.now ∧ 1 < readers then !r.isUse || decide (0 < r.inFlight) else r.isUse

/-- The read window, with the readers that are active now. -/
def Reader.window (env : Env) (c : Cache) (r : Reader) : Range :=
  r.getPiecesRange env c c.activeReaders

/-- The cache with these pieces and readers. -/
def Cache.holding (c : Cache) (pieces : List Piece) (h : pieces.length ≤ c.pieceInRange.length)
    (readers : List Reader) : Cache :=
  { c with
    pieces := some pieces
    readers := some readers
    isClosed := false
    listed := fun _ hps => Option.some.inj hps ▸ h }

/-- With these readers and some pieces, `getRemPieces` offers the piece `id`. -/
def Offers (env : Env) (c : Cache) (readers : List Reader) (p : Piece) (id : ℕ) : Prop :=
  ∃ S pieces hpieces out, getRemPieces S env (c.holding pieces hpieces readers) = some out ∧
    (p, id) ∈ out.offered

section Offered

variable {env : Env} {c : Cache} {readers : List Reader} {p : Piece} {id : ℕ}

lemma checkReaders_of_steady {n : ℕ} {active : ℤ} (h : ∀ r ∈ readers, r.steady env n) :
    checkReaders env c n active readers
      = (readers.map fun r => (r, r.getPiecesRange env c active), active) := by
  induction readers with
  | nil => rfl
  | cons r rs ih =>
    rw [forall_mem_cons] at h
    have hcheck : r.checkReader env n active = (r, active) := by
      have hr := h.1
      unfold Reader.steady at hr
      unfold Reader.checkReader
      split_ifs at hr ⊢
      · rw [Bool.or_eq_true, Bool.not_eq_true', decide_eq_true_eq] at hr
        unfold Reader.readerOff
        rcases hr with hr | hr <;> simp [hr]
      · simp [Reader.readerOn, Reader.resume, hr]
    rw [checkReaders, hcheck]
    dsimp only
    rw [ih h.2]
    rfl

/-- The windows of the readers in use. -/
def Cache.windows (env : Env) (c : Cache) (readers : List Reader) : List Range :=
  (readers.filter Reader.isUse).map (Reader.window env c)

section

variable (hsteady : ∀ r ∈ readers, r.steady env readers.length)

include hsteady

/-- What is offered if the check leaves the readers as they are. -/
lemma offers_iff :
    Offers env c readers p id ↔ (c.pieceLength = 0 → c.windows env readers = []) ∧
      ∃ S pieces inRange, pieces.length ≤ c.pieceInRange.length ∧
        fillPieceInRange c.pieceInRange (mergeRange S (c.windows env readers)) c.pieceCount
          = some inRange ∧
        (p, id) ∈ scanPieces c (mergeRange S (c.windows env readers)) inRange pieces := by
  have hranges : rangesInUse (readers.map fun r => (r, r.window env c)) = c.windows env readers := by
    simp [rangesInUse, Cache.windows, filter_map, Function.comp_def]
  have hrem : ∀ S pieces hpieces, getRemPieces S env (c.holding pieces hpieces readers)
      = if c.pieceLength = 0 ∧ c.windows env readers ≠ [] then none
        else (fillPieceInRange c.pieceInRange (mergeRange S (c.windows env readers))
          c.pieceCount).map fun inRange =>
            ⟨S.slice (fun a b => decide (a.1.accessed < b.1.accessed))
              (scanPieces c (mergeRange S (c.windows env readers)) inRange pieces),
              readers.map fun r => (r, r.window env c), c.activeReaders, inRange,
              ((pieces.map Piece.size).filter fun sz => 0 < sz).sum⟩ := by
    intro S pieces hpieces
    simp only [getRemPieces, Cache.holding, checkReaders_of_steady hsteady, ← hranges]
    rfl
  constructor
  · rintro ⟨S, pieces, hpieces, out, hout, hp⟩
    rw [hrem] at hout
    split_ifs at hout with hzero
    obtain ⟨inRange, hfill, rfl⟩ := Option.map_eq_some_iff.mp hout
    refine ⟨fun h => ?_, S, pieces, inRange, hpieces, hfill, (S.perm _ _).mem_iff.mp hp⟩
    by_contra hne
    exact hzero ⟨h, hne⟩
  · rintro ⟨hzero, S, pieces, inRange, hpieces, hfill, hp⟩
    have hout := hrem S pieces hpieces
    rw [if_neg fun h => h.2 (hzero h.1), hfill, Option.map_some] at hout
    exact ⟨S, pieces, hpieces, _, hout, (S.perm _ _).mem_iff.mpr hp⟩

/-- A piece that is offered is complete and lies in no window of a reader in use. -/
lemma spare_of_offers (h : Offers env c readers p id) :
    p.complete = true ∧ ∀ r ∈ readers, r.isUse = true → ¬ (r.window env c).Holds id := by
  obtain ⟨-, S, pieces, inRange, hpieces, hfill, hp⟩ := (offers_iff hsteady).mp h
  obtain ⟨hat, -, hcomplete, hout, -⟩ := mem_scanPieces.mp hp
  refine ⟨hcomplete, fun r hr huse hholds => hout ?_⟩
  have hid := (List.getElem?_eq_some_iff.mp hat).1.trans_le hpieces
  rw [(fillPieceInRange_spec hfill c.sized).2 id hid, (mergeRange_spec S _).1]
  exact ⟨_, mem_map_of_mem (mem_filter.mpr ⟨hr, huse⟩), hholds⟩

/-- Windows that meet do not hide a head or a tail: what the file of the later one protects is in
the window of one of them or protected for the file of the earlier one. -/
def Sheltered (env : Env) (c : Cache) (readers : List Reader) : Prop :=
  ∀ a ∈ readers, ∀ b ∈ readers, a.isUse = true → b.isUse = true →
    lessRange (b.window env c) (a.window env c) = false →
    (b.window env c).start ≤ (a.window env c).stop →
    ∀ id < c.pieceInRange.length, isIdInBE c b.file id = true →
      (a.window env c).Holds id ∨ (b.window env c).Holds id ∨ isIdInBE c a.file id = true

instance (env : Env) (c : Cache) (readers : List Reader) : Decidable (Sheltered env c readers) :=
  inferInstanceAs (Decidable (∀ a ∈ readers, ∀ b ∈ readers, _ → _ → _ → _ → ∀ id < _, _ → _))

/-- The file of a reader in use is among those whose heads and tails are kept. -/
lemma kept_of_sheltered (hsheltered : Sheltered env c readers) (h : Offers env c readers p id) :
    ∀ r ∈ readers, r.isUse = true → isIdInBE c r.file id = false := by
  have hspare := (spare_of_offers hsteady h).2
  obtain ⟨-, S, pieces, inRange, hpieces, hfill, hp⟩ := (offers_iff hsteady).mp h
  obtain ⟨hat, -, -, -, hfile⟩ := mem_scanPieces.mp hp
  have hid := (List.getElem?_eq_some_iff.mp hat).1.trans_le hpieces
  intro r hr huse
  by_contra hprotected
  rw [Bool.not_eq_false] at hprotected
  have hpass : ∀ x ∈ c.windows env readers, ∀ y ∈ c.windows env readers,
      lessRange y x = false → y.start ≤ x.stop → isIdInBE c y.tag id = true →
      isIdInBE c x.tag id = true := by
    intro x hx y hy hless hmeet hy'
    obtain ⟨a, ha, rfl⟩ := mem_map.mp hx
    obtain ⟨b, hb, rfl⟩ := mem_map.mp hy
    obtain ⟨ha, hause⟩ := mem_filter.mp ha
    obtain ⟨hb, hbuse⟩ := mem_filter.mp hb
    have := hsheltered a ha b hb hause hbuse hless hmeet id hid hy'
    exact (this.resolve_left (hspare a ha hause)).resolve_left (hspare b hb hbuse)
  obtain ⟨m, hm, hmprotected⟩ := mergeRange_tag S (Q := fun file => isIdInBE c file id = true)
    hpass (mem_map_of_mem (mem_filter.mpr ⟨hr, huse⟩)) hprotected
  exact absurd hmprotected (any_eq_false.mp hfile m hm)

end

/-- Alone with an earlier reader, a later one whose window meets its window loses the pieces that
only its own file protects. -/
lemma offers_pair {a b : Reader} (hlength : c.pieceLength ≠ 0)
    (hbitmap : c.pieceInRange.length = c.pieceCount)
    (hsteady : ∀ r ∈ [a, b], r.steady env 2) (ha : a.isUse = true) (hb : b.isUse = true)
    (hless : lessRange (b.window env c) (a.window env c) = false)
    (hmeet : (b.window env c).start ≤ (a.window env c).stop) (hid : id < c.pieceInRange.length)
    (hout : ¬ ((a.window env c).Holds id ∨ (b.window env c).Holds id ∨ isIdInBE c a.file id = true)) :
    Offers env c [a, b] ⟨1, true, 0⟩ id := by
  have hwindows : c.windows env [a, b] = [a.window env c, b.window env c] := by
    simp [Cache.windows, ha, hb]
  obtain ⟨inRange, hfill⟩ := Option.isSome_iff_exists.mp (hbitmap ▸ fillPieceInRange_isSome
    c.pieceInRange (mergeRange .insertion (c.windows env [a, b])))
  refine (offers_iff hsteady).mpr ⟨fun h => absurd h hlength, .insertion,
    replicate c.pieceInRange.length ⟨1, true, 0⟩, inRange, length_replicate.le, hfill, ?_⟩
  refine mem_scanPieces.mpr ⟨by simp [hid], Int.one_pos, rfl, ?_, ?_⟩
  · rw [Ne, (fillPieceInRange_spec hfill c.sized).2 id hid, (mergeRange_spec _ _).1, hwindows]
    simp only [mem_cons, not_mem_nil, or_false, exists_eq_or_imp, exists_eq_left]
    exact fun h => hout (h.imp_right .inl)
  · rw [hwindows, mergeRange_pair hless hmeet, isIdInFileBE, any_cons, any_nil, Span.grow_tag]
    exact (Bool.or_false _).trans (Bool.eq_false_iff.mpr fun h => hout (.inr (.inr h)))

end Offered

/-- Nine pieces of 8 MB, all complete.  The first file ends and the second begins
inside the piece 1. -/
def twoFiles (readers : List Reader) : Cache :=
  { (Cache.newCache (32 * 2 ^ 20)).init (8 * 2 ^ 20) (List.replicate 9 ⟨8 * 2 ^ 20, true, 0⟩) with
    readers := some readers
    activeReaders := readers.length }

def firstFile : File := ⟨0, 12 * 2 ^ 20⟩

def secondFile : File := ⟨12 * 2 ^ 20, 56 * 2 ^ 20⟩

/-- A reader at an offset that has just been read. -/
def readerAt (file : File) (offset : ℤ) : Reader :=
  { Reader.newReader file with
    offset
    lastAccess := 1000
    position := offset }

def exactEnv : Env := ⟨95, 1000, fun share percent => (share * 85 * percent).tdiv 10000⟩

def farReaders : List Reader := [readerAt firstFile (8 * 2 ^ 20), readerAt secondFile (40 * 2 ^ 20)]

def touchingReaders : List Reader := [readerAt firstFile (8 * 2 ^ 20), readerAt secondFile 0]

end Tiramisu.Torrstor
