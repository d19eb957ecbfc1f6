import Mathlib
import Tiramisu.Lib.Places
import Tiramisu.Native.Delivery

/-!
# Reading ahead of a request

`FetchAhead` answers a read from the first bytes of a stream and goes on to fill
the buffer behind it.  It tells the owner of the buffer how far it has come, and
last of all that it is done: the owner may not reuse the buffer before.  The
stream may split its bytes, end or fail anywhere, the deadline may close the pipe
during any read, and the callback may panic.
-/

namespace Tiramisu.Native

open Extents List Places

inductive FetchError
  | emptyRead
  | stream
  | read (cause : ReadError)
  | fillPanic
  deriving DecidableEq, Repr

/-- One call of `onFill`, with the buffer as it is then. -/
structure Report where
  n : ℕ
  done : Bool
  err : Option FetchError
  buf : List UInt8
  deriving DecidableEq, Repr

/-- `streamRangeFn` opens a stream that delivers in these pieces, or fails.  `around i`
is what happens to the pipe during the read `i`.  `onFill` panics at a call, given the
calls so far with it. -/
structure FetchEnv where
  file : ℤ → UInt8
  opened : Bool
  splits : List ℕ
  fails : Bool
  around : ℕ → Choice
  panics : List Report → Bool

/-- What the caller gets, `none` where a panic of `onFill` reaches it. -/
structure Fetched where
  reports : List Report
  dest : List UInt8
  returned : Option (ℕ × Option FetchError)
  deriving DecidableEq, Repr

def fetchFillFirstStep : ℕ := 256 * 2 ^ 10

def fetchFillStep : ℕ := 4 * 2 ^ 20

/-- The bytes are read into the buffer at a place. -/
def readInto (buf : List UInt8) (pos : ℕ) (bytes : List UInt8) : List UInt8 :=
  buf.take pos ++ bytes ++ buf.drop (pos + bytes.length)

variable (env : FetchEnv)

/-- A panic of the last call is recovered and has no successor. -/
def finish (reports : List Report) (n : ℕ) (err : Option FetchError) (buf : List UInt8) :
    List Report :=
  reports ++ [⟨n, true, err, buf⟩]

/-- The loop behind the head; every round gets on by a byte at least, so the fuel is
never used up. -/
def fillLoop : ℕ → ℕ → Pipe → List UInt8 → ℕ → ℕ → List Report → List Report
  | 0, _, _, _, _, _, reports => reports
  | fuel + 1, i, pipe, buf, total, step, reports =>
    if total < buf.length then
      let stop := min (total + step) buf.length
      let (m, err, pipe') := pipe.readFull (env.around i) (stop - total)
      let buf := readInto buf total (contents env.file pipe.pos m)
      let total := total + m
      match err with
      | some .unexpectedEOF | some .eof => finish reports total none buf
      | some e => finish reports total (some (.read e)) buf
      | none =>
        if total < buf.length then
          let reports := reports ++ [⟨total, false, none, buf⟩]
          if env.panics reports then finish reports 0 (some .fillPanic) buf
          else fillLoop fuel (i + 1) pipe' buf total (min (step * 2) fetchFillStep) reports
        else fillLoop fuel (i + 1) pipe' buf total (min (step * 2) fetchFillStep) reports
    else finish reports total none buf

/-- A call of `onFill` on the caller's own goroutine. -/
def fetchFails (err : Option FetchError) (returns : FetchError) (buf dest : List UInt8) : Fetched :=
  let reports := finish [] 0 err buf
  ⟨reports, dest, if env.panics reports then none else some (0, some returns)⟩

/-- The goroutine from the read of the head on. -/
def fetchFill (offset : ℤ) (buf dest : List UInt8) (head n : ℕ) (err : Option ReadError)
    (pipe : Pipe) : Fetched :=
  let buf := readInto buf 0 (contents env.file offset n)
  match (if err = some .unexpectedEOF ∨ err = some .eof ∧ 0 < n then none else err) with
  | some e => ⟨finish [] n (some (.read e)) buf, dest, some (n, some (.read e))⟩
  | none =>
    let dest := readInto dest 0 (buf.take n)
    if n < head then ⟨finish [] n none buf, dest, some (n, none)⟩
    else
      ⟨fillLoop env (buf.length - n + 1) 1 pipe buf n (min fetchFillFirstStep fetchFillStep) [],
        dest, some (n, none)⟩

def fetchAhead (offset : ℤ) (buf dest : List UInt8) : Fetched :=
  let head := min dest.length buf.length
  if head = 0 then fetchFails env none .emptyRead buf dest
  else if env.opened = false then fetchFails env (some .stream) .stream buf dest
  else
    let (n, err, pipe) := Pipe.readFull (env.around 0) head ⟨offset, env.splits, env.fails, false⟩
    fetchFill env offset buf dest head n err pipe

/-! ### What is reported -/

variable {env} {offset : ℤ} {buf dest : List UInt8} {reports : List Report} {total n : ℕ}

/-- The first bytes are the file's from the offset on. -/
def Holds (file : ℤ → UInt8) (offset : ℤ) (buf : List UInt8) (n : ℕ) : Prop :=
  buf.take n = contents file offset n

lemma holds_zero (file : ℤ → UInt8) (offset : ℤ) (buf : List UInt8) : Holds file offset buf 0 := rfl

lemma length_readInto {bytes : List UInt8} (h : n + bytes.length ≤ buf.length) :
    (readInto buf n bytes).length = buf.length := by
  simp only [readInto, length_append, length_take, length_drop]
  omega

lemma holds_readInto {file : ℤ → UInt8} (h : Holds file offset buf total) (m : ℕ) :
    Holds file offset (readInto buf total (contents file (offset + total) m)) (total + m) := by
  rw [Holds, readInto, h, contents_append, take_append_of_le_length (by simp),
    take_of_length_le (by simp)]

lemma readFull_of_none {c : Choice} {len : ℕ} {pipe : Pipe}
    (h : (pipe.readFull c len).2.1 = none) : (pipe.readFull c len).1 = len := by
  simp only [Pipe.readFull] at h ⊢
  by_contra hne
  rw [if_neg hne] at h
  split_ifs at h

/-- Calls before the last one: none is done, and none goes back. -/
structure Underway (file : ℤ → UInt8) (offset : ℤ) (reports : List Report) (total : ℕ) : Prop where
  pending : ∀ r ∈ reports, r.done = false
  le : ∀ r ∈ reports, r.n ≤ total
  sorted : reports.Pairwise fun a b => a.n ≤ b.n
  bytes : ∀ r ∈ reports, Holds file offset r.buf r.n

/-- The last call, and only it, is done. -/
structure Reported (file : ℤ → UInt8) (offset : ℤ) (reports : List Report) : Prop where
  once : ∃ before last, reports = before ++ [last] ∧ last.done = true ∧
    (∀ r ∈ before, r.done = false) ∧ before.Pairwise fun a b => a.n ≤ b.n
  bytes : ∀ r ∈ reports, Holds file offset r.buf r.n

lemma Underway.finish {file : ℤ → UInt8} (h : Underway file offset reports total)
    (hn : Holds file offset buf n) (err : Option FetchError) :
    Reported file offset (finish reports n err buf) where
  once := ⟨reports, _, rfl, rfl, h.pending, h.sorted⟩
  bytes := forall_join h.bytes hn

lemma Underway.progress {file : ℤ → UInt8} (h : Underway file offset reports total) (hle : total ≤ n)
    (hn : Holds file offset buf n) : Underway file offset (reports ++ [⟨n, false, none, buf⟩]) n := by
  have hbelow : ∀ r ∈ reports, r.n ≤ n := fun r hr => (h.le r hr).trans hle
  refine ⟨forall_join h.pending rfl, forall_join hbelow (Nat.le_refl n), ?_,
    forall_join h.bytes hn⟩
  rw [pairwise_append]
  refine ⟨h.sorted, pairwise_singleton _ _, fun a ha b hb => ?_⟩
  obtain rfl := mem_singleton.mp hb
  exact hbelow a ha

/-- From any point of the fill on, the calls end as they should. -/
lemma reported_fillLoop {fuel i step : ℕ} {pipe : Pipe}
    (h : Underway env.file offset reports total) (hbuf : Holds env.file offset buf total)
    (hpos : pipe.pos = offset + total) (hstep : 0 < step) (hfuel : buf.length - total < fuel) :
    Reported env.file offset (fillLoop env fuel i pipe buf total step reports) := by
  induction fuel generalizing i pipe buf total step reports with
  | zero => omega
  | succ fuel ih =>
    rw [fillLoop]
    split_ifs with hmore
    · obtain ⟨hle, hnext⟩ := readFull_spec (env.around i) (min (total + step) buf.length - total) pipe
      have hnone : _ → (pipe.readFull (env.around i) (min (total + step) buf.length - total)).1
          = min (total + step) buf.length - total := readFull_of_none
      rcases hread : pipe.readFull (env.around i) (min (total + step) buf.length - total)
        with ⟨m, err, pipe'⟩
      rw [hread] at hle hnext hnone
      simp only [hread, hpos]
      have hfilled := holds_readInto hbuf m
      have hlength : (readInto buf total (contents env.file (offset + total) m)).length
          = buf.length := length_readInto (by rw [length_contents]; omega)
      split
      · exact h.finish hfilled _
      · exact h.finish hfilled _
      · exact h.finish hfilled _
      have hm := hnone rfl
      have hstep' : 0 < min (step * 2) fetchFillStep := by
        unfold fetchFillStep
        omega
      have hpos' : pipe'.pos = offset + (total + m : ℕ) := by
        rw [hnext, hpos]
        omega
      split_ifs
      · exact (h.progress (Nat.le_add_right total m) hfilled).finish (holds_zero _ _ _) _
      · exact ih (h.progress (Nat.le_add_right total m) hfilled) hfilled hpos' hstep' (by omega)
      · have hlater : Underway env.file offset reports (total + m) :=
          { h with le := fun r hr => (h.le r hr).trans (Nat.le_add_right total m) }
        exact ih hlater hfilled hpos' hstep' (by omega)
    · exact h.finish hbuf none

lemma underway_nil (file : ℤ → UInt8) (offset : ℤ) : Underway file offset [] n :=
  ⟨by simp, by simp, List.Pairwise.nil, by simp⟩

/-- The calls are as they should be, and what is returned without an error is there. -/
def Fetched.Sound (file : ℤ → UInt8) (offset : ℤ) (f : Fetched) : Prop :=
  Reported file offset f.reports ∧
    ∀ n, f.returned = some (n, none) → f.dest.take n = contents file offset n

lemma sound_fetchFails {err : Option FetchError} {returns : FetchError} :
    (fetchFails env err returns buf dest).Sound env.file offset := by
  refine ⟨(underway_nil (n := 0) _ _).finish (holds_zero _ _ _) err, fun n hn => ?_⟩
  dsimp only [fetchFails] at hn
  split_ifs at hn
  cases hn

lemma sound_fetchFill {head : ℕ} {err : Option ReadError} {pipe : Pipe}
    (hpos : pipe.pos = offset + n) :
    (fetchFill env offset buf dest head n err pipe).Sound env.file offset := by
  have hfilled : ∀ l, Holds env.file offset (readInto l 0 (contents env.file offset n)) n := by
    intro l
    simpa using holds_readInto (holds_zero env.file offset l) n
  unfold fetchFill
  dsimp only
  split
  · refine ⟨(underway_nil (n := 0) _ _).finish (hfilled buf) _, fun k hk => ?_⟩
    cases hk
  split_ifs
  · refine ⟨(underway_nil (n := 0) _ _).finish (hfilled buf) _, fun k hk => ?_⟩
    obtain rfl := (Prod.mk.inj (Option.some.inj hk)).1
    rw [hfilled buf]
    exact hfilled dest
  · refine ⟨reported_fillLoop (underway_nil _ _) (hfilled buf) hpos (by decide)
      (Nat.lt_succ_self _), fun k hk => ?_⟩
    obtain rfl := (Prod.mk.inj (Option.some.inj hk)).1
    rw [hfilled buf]
    exact hfilled dest

/-- `onFill` is told that the fill is done exactly once and last, the counts before
never go back, every count stands for bytes of the file, and the bytes a read returns
without an error are in its destination. -/
theorem fetchAhead_reports_done_once (env : FetchEnv) (offset : ℤ) (buf dest : List UInt8) :
    Reported env.file offset (fetchAhead env offset buf dest).reports ∧
      ∀ n, (fetchAhead env offset buf dest).returned = some (n, none) →
        (fetchAhead env offset buf dest).dest.take n = contents env.file offset n := by
  unfold fetchAhead
  dsimp only
  split_ifs with hempty hopen
  · exact sound_fetchFails
  · exact sound_fetchFails
  · exact sound_fetchFill (readFull_spec _ _ _).2

/-- A stream that breaks off after a byte, with a callback that panics at once. -/
def brokenStream : FetchEnv where
  file _ := 7
  opened := true
  splits := [1]
  fails := true
  around _ := ⟨false, false, none, false, [], false⟩
  panics _ := true

/-- The byte is counted with the error, but it is not in the destination. -/
theorem failed_head_is_not_copied :
    (fetchAhead brokenStream 0 [0, 0] [0, 0]).returned = some (1, some (.read .failed)) ∧
      (fetchAhead brokenStream 0 [0, 0] [0, 0]).dest.take 1 ≠ contents brokenStream.file 0 1 := by
  decide

end Tiramisu.Native
