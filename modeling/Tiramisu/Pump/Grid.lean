import Mathlib.Algebra.Order.Ring.Int
import Mathlib.Data.Int.Notation
import Mathlib.Tactic.Ring
import Tiramisu.Lib.Runs

/-!
# The pump on the chunk grid

The loop of `nativePump` with `nativePumpChunk`: where the pump stands, what it
puts into the read-ahead cache and how far it runs ahead of the player.  A turn
reads the player's position, the configuration and the outcome of the read; the
watchdog and the throttle of the loop only wait or interrupt and do not move
the pump.
-/

namespace Tiramisu.Pump

/-! ### The lead -/

/-- `finalize`: the budget in bytes, at least 10 MB and at least the base. -/
def readAheadBudget (budgetMB base : ℤ) : ℤ :=
  let budget := budgetMB * 1024 * 1024
  let budget := if budget < 10 * 1024 * 1024 then 10 * 1024 * 1024 else budget
  if budget < base then base else budget

def pumpLeadLimit (budget chunkSize : ℤ) : ℤ :=
  if budget ≤ 0 ∨ chunkSize ≤ 0 then budget
  else
    let slack := if budget.tdiv 2 < 3 * chunkSize then budget.tdiv 2 else 3 * chunkSize
    let lead := budget - slack
    let lead := if lead < chunkSize then chunkSize else lead
    if budget < lead then budget else lead

lemma readAheadBudget_pos (budgetMB base : ℤ) : 0 < readAheadBudget budgetMB base := by
  unfold readAheadBudget
  dsimp only
  split_ifs <;> omega

lemma pumpLeadLimit_nonneg {budget : ℤ} (hbudget : 0 < budget) (chunkSize : ℤ) :
    0 ≤ pumpLeadLimit budget chunkSize := by
  have hhalf : budget.tdiv 2 = budget / 2 := Int.tdiv_eq_ediv_of_nonneg hbudget.le
  unfold pumpLeadLimit
  rw [hhalf]
  dsimp only
  split_ifs <;> omega

/-- With two chunks in the budget, the settled lead and one chunk fit. -/
lemma pumpLeadLimit_fits {budget chunkSize : ℤ} (hchunk : 0 < chunkSize)
    (h : 2 * chunkSize ≤ budget) : pumpLeadLimit budget chunkSize + chunkSize ≤ budget := by
  have hhalf : budget.tdiv 2 = budget / 2 := Int.tdiv_eq_ediv_of_nonneg (by omega)
  unfold pumpLeadLimit
  rw [hhalf]
  dsimp only
  split_ifs <;> omega

/-! ### One chunk -/

/-- The file being pumped; the chunk size does not change during the run. -/
structure Grid where
  size : ℤ
  chunkSize : ℤ
  chunk_pos : 0 < chunkSize

/-- A call of `raCache.Put`: the first and the last offset. -/
structure Put where
  start : ℤ
  last : ℤ
  deriving DecidableEq, Repr

/-- What one turn of the loop finds. -/
structure Turn where
  /-- The context is done, or nobody has read for too long. -/
  leaves : Bool
  /-- The offsets of the primary handles of the path. -/
  primaries : List ℤ
  /-- The configuration as the jump and as the chunk read it. -/
  jumpBudgetMB : ℤ
  budgetMB : ℤ
  base : ℤ
  covered : Bool
  warmed : Bool
  n : ℤ
  err : Bool
  deriving Repr

def Turn.jumpThreshold (t : Turn) : ℤ := readAheadBudget t.jumpBudgetMB t.base

def Turn.budget (t : Turn) : ℤ := readAheadBudget t.budgetMB t.base

def Turn.playerOff (t : Turn) : ℤ :=
  t.primaries.foldl (fun playerOff off => if playerOff < off then off else playerOff) 0

variable (g : Grid)

/-- The end of the chunk at an offset, cut at the end of the file. -/
def Grid.chunkEnd (offset : ℤ) : ℤ := min (offset + g.chunkSize) g.size

/-- The `Put` of `n` bytes read at an offset. -/
def readPut (offset n : ℤ) : Option Put := if 0 < n then some ⟨offset, offset + n - 1⟩ else none

/-- Whether to stop, the next offset, and what was put into the cache. -/
def nativePumpChunk (offset playerOff : ℤ) (t : Turn) : Bool × ℤ × Option Put :=
  if g.size ≤ offset then (true, offset, none)
  else if pumpLeadLimit t.budget g.chunkSize < offset - playerOff then (false, offset, none)
  else if t.covered then (false, offset + g.chunkSize, none)
  else if t.warmed then (false, offset + g.chunkSize, none)
  else if t.err then (true, offset + t.n, readPut offset t.n)
  else if t.n < g.chunkEnd offset - offset then
    -- Back to the grid: a pump off it would miss every chunk from here on.
    (false, ((offset + t.n).tdiv g.chunkSize + 1) * g.chunkSize, readPut offset t.n)
  else (false, offset + t.n, readPut offset t.n)

def pumpStrandedAhead (offset playerOff budget : ℤ) : Bool :=
  decide (0 < playerOff ∧ 0 < budget) && decide (playerOff + 2 * budget < offset)

/-- The chunk the player stands in. -/
def Grid.jumpTo (playerOff : ℤ) : ℤ :=
  let jumpTo := playerOff.tdiv g.chunkSize * g.chunkSize
  if jumpTo < 0 then 0 else jumpTo

/-- Where the pump stands once it has been brought back to the player. -/
def Grid.anchor (offset playerOff threshold : ℤ) : ℤ :=
  if offset + threshold < playerOff then g.jumpTo playerOff
  else if pumpStrandedAhead offset playerOff threshold then g.jumpTo playerOff
  else offset

/-! ### The loop -/

structure PumpRun where
  offset : ℤ
  ended : Bool
  puts : List Put
  deriving DecidableEq, Repr

def Grid.start (startOffset : ℤ) : PumpRun where
  offset := startOffset.tdiv g.chunkSize * g.chunkSize
  ended := false
  puts := []

/-- One turn; `ReadAt` returns at most what it was asked for. -/
def PumpRun.step (s : PumpRun) (t : Turn) : Option PumpRun :=
  let offset := g.anchor s.offset t.playerOff t.jumpThreshold
  if s.ended then none
  else if t.leaves then some { s with ended := true }
  else if t.n < 0 ∨ offset < g.size ∧ g.chunkEnd offset - offset < t.n then none
  else
    let (stop, nextOffset, put) := nativePumpChunk g offset t.playerOff t
    let puts := s.puts ++ put.toList
    if stop then some ⟨offset, decide (g.size ≤ offset), puts⟩
    else some ⟨nextOffset, false, puts⟩

def Step (s : PumpRun) (t : Turn) (s' : PumpRun) : Prop := s.step g t = some s'

variable {g} {offset playerOff : ℤ} {t : Turn} {s s' : PumpRun}

lemma Turn.playerOff_nonneg (t : Turn) : 0 ≤ t.playerOff := by
  have hfold : ∀ (offs : List ℤ) (p : ℤ), 0 ≤ p →
      0 ≤ offs.foldl (fun playerOff off => if playerOff < off then off else playerOff) p := by
    intro offs
    induction offs with
    | nil => exact fun p hp => hp
    | cons off offs ih =>
      intro p hp
      apply ih
      dsimp only
      split_ifs <;> omega
  exact hfold t.primaries 0 le_rfl

/-! ### On the grid -/

/-- On a chunk boundary, or past the file. -/
def Grid.Aligned (g : Grid) (offset : ℤ) : Prop := g.chunkSize ∣ offset ∨ g.size ≤ offset

lemma Grid.aligned_anchor {threshold : ℤ} (h : g.Aligned offset) :
    g.Aligned (g.anchor offset playerOff threshold) := by
  have hjump : g.chunkSize ∣ g.jumpTo playerOff := by
    unfold jumpTo
    dsimp only
    split_ifs
    · exact Int.dvd_zero _
    · exact Dvd.intro_left _ rfl
  unfold anchor
  split_ifs
  · exact .inl hjump
  · exact .inl hjump
  · exact h

/-- A jump leads no further than the player. -/
lemma Grid.anchor_le {threshold : ℤ} (hplayer : 0 ≤ playerOff) :
    g.anchor offset playerOff threshold = offset
      ∨ g.anchor offset playerOff threshold ≤ playerOff := by
  have hjump : g.jumpTo playerOff ≤ playerOff := by
    have hdiv : playerOff.tdiv g.chunkSize * g.chunkSize ≤ playerOff := by
      rw [Int.tdiv_eq_ediv_of_nonneg hplayer]
      exact Int.ediv_mul_le playerOff g.chunk_pos.ne'
    unfold jumpTo
    dsimp only
    split_ifs <;> omega
  unfold anchor
  split_ifs
  · exact .inr hjump
  · exact .inr hjump
  · exact .inl rfl

/-- After a short read from a boundary the pump goes on at a boundary, the next one
unless it started before the file. -/
lemma Grid.next_boundary (hdvd : g.chunkSize ∣ offset) {n : ℤ} (hn : 0 ≤ n)
    (hlt : n < g.chunkSize) :
    ((offset + n).tdiv g.chunkSize + 1) * g.chunkSize = offset + g.chunkSize
      ∨ ((offset + n).tdiv g.chunkSize + 1) * g.chunkSize ≤ g.chunkSize := by
  by_cases hpos : 0 ≤ offset + n
  · left
    obtain ⟨k, rfl⟩ := hdvd
    have hdiv : (g.chunkSize * k + n) / g.chunkSize = k := by
      rw [Int.mul_add_ediv_left _ _ g.chunk_pos.ne', Int.ediv_eq_zero_of_lt hn hlt, add_zero]
    rw [Int.tdiv_eq_ediv_of_nonneg hpos, hdiv]
    ring
  · right
    have hneg : (offset + n).tdiv g.chunkSize ≤ 0 := by
      have hflip : 0 ≤ (-(offset + n)).tdiv g.chunkSize :=
        Int.tdiv_nonneg (by omega) g.chunk_pos.le
      rw [Int.neg_tdiv] at hflip
      omega
    have hmul := Int.mul_le_mul_of_nonneg_right hneg g.chunk_pos.le
    rw [add_mul, one_mul]
    omega

/-- What a chunk can do: put from where the pump stands, inside the file; stay, or
go on along the grid, no further than the lead and one chunk. -/
structure ChunkDone (g : Grid) (offset playerOff : ℤ) (t : Turn)
    (r : Bool × ℤ × Option Put) : Prop where
  put : ∀ p, r.2.2 = some p → p.start = offset ∧ offset < g.size
  aligned : r.1 = false → g.Aligned r.2.1
  lead : r.1 = false → r.2.1 = offset
    ∨ r.2.1 ≤ playerOff + pumpLeadLimit t.budget g.chunkSize + g.chunkSize

lemma chunkDone_nativePumpChunk (halign : g.Aligned offset) (hplayer : 0 ≤ playerOff)
    (hn : 0 ≤ t.n) (hread : offset < g.size → t.n ≤ g.chunkEnd offset - offset) :
    ChunkDone g offset playerOff t (nativePumpChunk g offset playerOff t) := by
  have hlimit := pumpLeadLimit_nonneg (readAheadBudget_pos t.budgetMB t.base) g.chunkSize
  change 0 ≤ pumpLeadLimit t.budget g.chunkSize at hlimit
  have hput : ∀ p, offset < g.size → readPut offset t.n = some p →
      p.start = offset ∧ offset < g.size := by
    intro p hsize hp
    unfold readPut at hp
    split_ifs at hp
    cases hp
    exact ⟨rfl, hsize⟩
  unfold nativePumpChunk
  by_cases hsize : g.size ≤ offset
  · rw [if_pos hsize]
    exact ⟨by simp, by simp, by simp⟩
  rw [if_neg hsize]
  have hdvd := halign.resolve_right hsize
  have hnext : g.chunkSize ∣ offset + g.chunkSize := Int.dvd_add hdvd (Int.dvd_refl _)
  rw [not_le] at hsize
  split_ifs with hlead hcovered hwarmed herr hshort
  · exact ⟨by simp, fun _ => halign, fun _ => .inl rfl⟩
  · exact ⟨by simp, fun _ => .inl hnext, fun _ => .inr (by dsimp only; omega)⟩
  · exact ⟨by simp, fun _ => .inl hnext, fun _ => .inr (by dsimp only; omega)⟩
  · exact ⟨fun p => hput p hsize, by simp, by simp⟩
  · have hend : g.chunkEnd offset - offset ≤ g.chunkSize := by
      unfold Grid.chunkEnd
      omega
    have hboundary := Grid.next_boundary hdvd hn (hshort.trans_le hend)
    refine ⟨fun p => hput p hsize, fun _ => .inl (Dvd.intro_left _ rfl), fun _ => .inr ?_⟩
    dsimp only
    omega
  · -- The whole chunk was read: up to the next boundary or to the end of the file.
    have hwhole : offset + t.n = g.chunkEnd offset := by
      omega
    refine ⟨fun p => hput p hsize, fun _ => ?_, fun _ => .inr ?_⟩
    · dsimp only
      rw [hwhole]
      unfold Grid.chunkEnd
      rcases min_choice (offset + g.chunkSize) g.size with h | h
      · rw [h]
        exact .inl hnext
      · rw [h]
        exact .inr le_rfl
    · have hend : g.chunkEnd offset ≤ offset + g.chunkSize := min_le_left _ _
      dsimp only
      omega

/-- One turn keeps the pump on the grid, puts from there, and does not run away. -/
theorem step_grid (halign : g.Aligned s.offset) (h : Step g s t s') :
    g.Aligned s'.offset
      ∧ (∀ p ∈ s'.puts, p ∈ s.puts ∨ g.chunkSize ∣ p.start)
      ∧ (s.offset < s'.offset →
        s'.offset ≤ t.playerOff + pumpLeadLimit t.budget g.chunkSize + g.chunkSize) := by
  have hanchor : g.Aligned (g.anchor s.offset t.playerOff t.jumpThreshold) :=
    Grid.aligned_anchor halign
  have hnear : g.anchor s.offset t.playerOff t.jumpThreshold = s.offset
      ∨ g.anchor s.offset t.playerOff t.jumpThreshold ≤ t.playerOff :=
    Grid.anchor_le t.playerOff_nonneg
  have hlimit := pumpLeadLimit_nonneg (readAheadBudget_pos t.budgetMB t.base) g.chunkSize
  change 0 ≤ pumpLeadLimit t.budget g.chunkSize at hlimit
  have hchunk := g.chunk_pos
  unfold Step PumpRun.step at h
  dsimp only at h
  generalize g.anchor s.offset t.playerOff t.jumpThreshold = offset at hanchor hnear h
  have hdone : ¬(t.n < 0 ∨ offset < g.size ∧ g.chunkEnd offset - offset < t.n) →
      ChunkDone g offset t.playerOff t (nativePumpChunk g offset t.playerOff t) := by
    intro hrange
    push Not at hrange
    exact chunkDone_nativePumpChunk hanchor t.playerOff_nonneg hrange.1 hrange.2
  generalize nativePumpChunk g offset t.playerOff t = r at hdone h
  obtain ⟨stop, next, put⟩ := r
  have hputs : ChunkDone g offset t.playerOff t (stop, next, put) →
      ∀ p ∈ s.puts ++ put.toList, p ∈ s.puts ∨ g.chunkSize ∣ p.start := by
    intro hdone p hp
    rcases List.mem_append.mp hp with hp | hp
    · exact .inl hp
    · obtain ⟨hstart, hinside⟩ := hdone.put p (Option.mem_toList.mp hp)
      rw [hstart]
      exact .inr (hanchor.resolve_right (by omega))
  split_ifs at h with hended hleaves hrange hstop
  · cases h
    exact ⟨halign, fun p hp => .inl hp, fun hlt => absurd hlt (lt_irrefl _)⟩
  · cases h
    exact ⟨hanchor, hputs (hdone hrange), fun hlt => by dsimp only at hlt ⊢; omega⟩
  cases h
  have hgo := (hdone hrange).lead (Bool.eq_false_iff.mpr hstop)
  refine ⟨(hdone hrange).aligned (Bool.eq_false_iff.mpr hstop), hputs (hdone hrange),
    fun hlt => ?_⟩
  dsimp only at hlt hgo ⊢
  omega

theorem run_grid {startOffset : ℤ} {ts : List Turn}
    (h : Transition.Run (Step g) (g.start startOffset) ts s) :
    g.Aligned s.offset ∧ ∀ p ∈ s.puts, g.chunkSize ∣ p.start := by
  refine h.invariant (I := fun s => g.Aligned s.offset ∧ ∀ p ∈ s.puts, g.chunkSize ∣ p.start)
    (fun s t s' hs hstep => ?_) ⟨.inl (Dvd.intro_left _ rfl), by simp [Grid.start]⟩
  obtain ⟨halign, hputs, -⟩ := step_grid hs.1 hstep
  exact ⟨halign, fun p hp => (hputs p hp).elim (hs.2 p) id⟩

/-- In every run the pump stands on a chunk boundary until it is past the file, and
every `Put` starts on one; no turn takes it further than the lead limit and a chunk
ahead of the player it has read, which fits a budget of two chunks. -/
theorem pump_keeps_grid_and_lead (g : Grid) (startOffset : ℤ) (ts : List Turn) (s : PumpRun)
    (hrun : Transition.Run (Step g) (g.start startOffset) ts s) :
    (s.offset < g.size → g.chunkSize ∣ s.offset) ∧ (∀ p ∈ s.puts, g.chunkSize ∣ p.start) ∧
      ∀ t s', Step g s t s' →
        (s.offset < s'.offset →
          s'.offset ≤ t.playerOff + pumpLeadLimit t.budget g.chunkSize + g.chunkSize) ∧
        (2 * g.chunkSize ≤ t.budget →
          pumpLeadLimit t.budget g.chunkSize + g.chunkSize ≤ t.budget) := by
  obtain ⟨halign, hputs⟩ := run_grid hrun
  refine ⟨fun hlt => halign.resolve_right (by omega), hputs, fun t s' hstep => ?_⟩
  exact ⟨(step_grid halign hstep).2.2, pumpLeadLimit_fits g.chunk_pos⟩

/-- A file of ten bytes in chunks of four: a short read, a jump to the player, the end. -/
def tenBytes : Grid := ⟨10, 4, by decide⟩

def someTurns : List Turn :=
  [⟨false, [0], 0, 0, 1, false, false, 3, false⟩, ⟨false, [1], 0, 0, 1, true, false, 0, false⟩,
    ⟨false, [9], 0, 0, 1, false, false, 2, false⟩]

theorem pump_reaches_end_on_grid :
    ∃ s, Transition.Run (Step tenBytes) (tenBytes.start 2) someTurns s ∧ s.offset = 10 ∧
      ∀ p ∈ s.puts, (4 : ℤ) ∣ p.start := by
  have hfold : (someTurns.foldlM (fun s t => PumpRun.step tenBytes s t) (tenBytes.start 2)).map
      PumpRun.offset = some 10 := by decide
  obtain ⟨s, hs, hoffset⟩ := Option.map_eq_some_iff.mp hfold
  have hrun := Transition.run_of_foldlM hs
  exact ⟨s, hrun, hoffset, (pump_keeps_grid_and_lead tenBytes 2 someTurns s hrun).2.1⟩

end Tiramisu.Pump
