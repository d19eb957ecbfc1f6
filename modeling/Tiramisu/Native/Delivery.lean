import Tiramisu.Native.Reader

/-!
# What the native reader delivers

Between two calls the pipe's next byte is the one at `offset`.  Inside a call
that may fail to hold, after a skip that stopped half way, but such a pipe is
always closed before anything is read from it.
-/

namespace Tiramisu.Native

open Protocol Extents Transition List Program

variable {file : ℤ → UInt8} {r r' : Reader} {p : List UInt8} {off x : ℤ}
variable {p' : List UInt8} {fresh : ℕ} {err : Option ReadError}

/-- The file offset of the byte the pipe delivers next. -/
def Reader.next (r : Reader) : Option ℤ := r.pipe.map (·.pos)

def Reader.Aligned (r : Reader) : Prop := ∀ x, r.next = some x → x = r.offset

/-- What no operation changes in passing. -/
structure Kept (r r' : Reader) : Prop where
  offset : r'.offset = r.offset
  next : r'.next = r.next
  opened : r'.opened = r.opened

lemma Kept.trans {r'' : Reader} (h : Kept r r') (h' : Kept r' r'') : Kept r r'' :=
  ⟨h'.offset.trans h.offset, h'.next.trans h.next, h'.opened.trans h.opened⟩

lemma Kept.aligned (h : Kept r r') (ha : r.Aligned) : r'.Aligned := by
  intro x hx
  rw [h.offset]
  exact ha x (h.next ▸ hx)

lemma kept_disturbed {c : Choice} : Kept r (r.disturbed c) := by
  refine ⟨rfl, ?_, rfl⟩
  unfold Reader.next Reader.disturbed
  split_ifs
  · rw [Option.map_map]
    rfl
  · rfl

/-! ### Rules -/

lemma pull_le (len : ℕ) (splits : List ℕ) : (pull len splits).1 ≤ len := by
  induction splits generalizing len with
  | nil => exact Nat.zero_le _
  | cons k splits ih =>
    unfold pull
    split_ifs with hk
    · exact Nat.le_refl _
    · have := ih (len - k)
      dsimp only
      omega

lemma readFull_spec (c : Choice) (len : ℕ) (pipe : Pipe) :
    (pipe.readFull c len).1 ≤ len ∧
      (pipe.readFull c len).2.2.pos = pipe.pos + (pipe.readFull c len).1 := by
  refine ⟨?_, rfl⟩
  show (if pipe.shut then (0, pipe.splits) else pull (min len (c.cut.getD len)) pipe.splits).1 ≤ len
  split_ifs
  · exact Nat.zero_le _
  · exact (pull_le _ _).trans (Nat.min_le_left _ _)

section Rules

variable {α : Type} {Q : α → Reader → Prop}

lemma fin_look {k : ℤ × Bool × Bool → Prog α}
    (h : ∀ r' closed, Kept r r' → Finishes (machine file) Q (k (r.offset, r.next.isSome, closed)) r') :
    Finishes (machine file) Q (.perform .look k) r := by
  intro c
  have hkept := kept_disturbed (r := r) (c := c)
  refine ⟨_, _, rfl, ?_⟩
  have hnext : (r.disturbed c).pipe.isSome = r.next.isSome := by
    rw [← hkept.next, Reader.next, Option.isSome_map]
  rw [hnext]
  exact h _ _ hkept

lemma fin_swapInterrupted {k : Bool → Prog α}
    (h : ∀ b r', Kept r r' → Finishes (machine file) Q (k b) r') :
    Finishes (machine file) Q (.perform .swapInterrupted k) r := fun _ =>
  ⟨_, _, rfl, h _ _ (kept_disturbed.trans ⟨rfl, rfl, rfl⟩)⟩

lemma fin_setInterrupted {k : Unit → Prog α}
    (h : ∀ r', Kept r r' → Finishes (machine file) Q (k ()) r') :
    Finishes (machine file) Q (.perform .setInterrupted k) r := fun _ =>
  ⟨_, _, rfl, h _ (kept_disturbed.trans ⟨rfl, rfl, rfl⟩)⟩

lemma fin_shutPipe {k : Unit → Prog α} (h : ∀ r', Kept r r' → Finishes (machine file) Q (k ()) r') :
    Finishes (machine file) Q (.perform .shutPipe k) r := fun _ =>
  ⟨_, _, rfl, h _ (kept_disturbed.trans ⟨rfl, Option.map_map _ _ _, rfl⟩)⟩

lemma fin_setOffset {k : Unit → Prog α}
    (h : ∀ r', r'.offset = off → r'.next = r.next → r'.opened = r.opened →
      Finishes (machine file) Q (k ()) r') :
    Finishes (machine file) Q (.perform (.setOffset off) k) r := fun c =>
  ⟨_, _, rfl, h _ rfl (kept_disturbed (c := c)).next rfl⟩

lemma fin_closeStream {k : Unit → Prog α}
    (h : ∀ r', r'.next = none → r'.opened = r.opened → Finishes (machine file) Q (k ()) r') :
    Finishes (machine file) Q (.perform .closeStream k) r := fun _ =>
  ⟨_, _, rfl, h _ rfl rfl⟩

lemma fin_startStream {k : Bool → Prog α}
    (hgone : ∀ r', Kept r r' → Finishes (machine file) Q (k false) r')
    (hopen : ∀ r', r'.offset = off → r'.next = some off → r'.opened = r.opened + 1 →
      Finishes (machine file) Q (k true) r') :
    Finishes (machine file) Q (.perform (.startStream off) k) r := by
  intro c
  by_cases hc : c.gone
  · exact ⟨false, r.disturbed c, by simp [machine, exec, hc], hgone _ kept_disturbed⟩
  · refine ⟨true, _, by simp [machine, exec, hc]; rfl, hopen _ rfl rfl rfl⟩

/-- A read moves the pipe on by what it returns. -/
lemma fin_readFull {k : List UInt8 × Option ReadError → Prog α} {len : ℕ} (hx : r.next = some x)
    (h : ∀ n err r', n ≤ len → r'.offset = r.offset → r'.next = some (x + n) →
      r'.opened = r.opened → Finishes (machine file) Q (k (contents file x n, err)) r') :
    Finishes (machine file) Q (.perform (.readFull len) k) r := by
  intro c
  have hkept := kept_disturbed (r := r) (c := c)
  rw [← hkept.next] at hx
  obtain ⟨pipe, hpipe, rfl⟩ := Option.map_eq_some_iff.mp hx
  obtain ⟨hle, hpos⟩ := readFull_spec c len pipe
  have hex : exec file (.readFull len) c r = some ((contents file pipe.pos (pipe.readFull c len).1,
      (pipe.readFull c len).2.1), { r.disturbed c with pipe := some (pipe.readFull c len).2.2 }) := by
    show (r.disturbed c).pipe.map _ = _
    rw [hpipe]
    rfl
  exact ⟨_, _, hex, h _ _ _ hle hkept.offset (congrArg some hpos) hkept.opened⟩

lemma fin_copyN {k : Bool → Prog α} {skip : ℕ} (hx : r.next = some x)
    (h : ∀ (n : ℕ) r', r'.next = some (x + n) → r'.opened = r.opened →
      Finishes (machine file) Q (k (decide (n = skip))) r') :
    Finishes (machine file) Q (.perform (.copyN skip) k) r := by
  intro c
  have hkept := kept_disturbed (r := r) (c := c)
  rw [← hkept.next] at hx
  obtain ⟨pipe, hpipe, rfl⟩ := Option.map_eq_some_iff.mp hx
  have hex : exec file (.copyN skip) c r = some (decide ((pipe.readFull c skip).1 = skip),
      { r.disturbed c with pipe := some (pipe.readFull c skip).2.2 }) := by
    show (r.disturbed c).pipe.map _ = _
    rw [hpipe]
    rfl
  exact ⟨_, _, hex, h _ _ (congrArg some (readFull_spec c skip pipe).2) hkept.opened⟩

end Rules

/-! ### One attempt -/

/-- The outcome of a read at `off` into `p`: its bytes are the file's, the
reader is aligned again and at most `fresh` streams were opened. -/
structure Delivers (file : ℤ → UInt8) (p : List UInt8) (off : ℤ) (r : Reader) (fresh : ℕ)
    (o : Outcome) (r' : Reader) : Prop where
  length : o.1.length = p.length
  count : o.2.1 ≤ p.length
  bytes : o.1.take o.2.1 = contents file off o.2.1
  aligned : r'.Aligned
  opened : r'.opened ≤ r.opened + fresh

lemma Delivers.of_opened {o : Outcome} {r0 r' : Reader} (h : Delivers file p off r fresh o r')
    (hopened : r.opened = r0.opened) : Delivers file p off r0 fresh o r' :=
  ⟨h.length, h.count, h.bytes, h.aligned, hopened ▸ h.opened⟩

/-- Bytes read into the start of the buffer. -/
lemma delivers_fill {n : ℕ} (hlen : p'.length = p.length) (hn : n ≤ p'.length) (ha : r'.Aligned)
    (ho : r'.opened ≤ r.opened + fresh) :
    Delivers file p off r fresh (fill p' (contents file off n), (contents file off n).length, err) r' := by
  refine ⟨?_, ?_, ?_, ha, ho⟩
  · simp only [fill, length_append, length_drop, length_contents]
    omega
  · rw [length_contents, ← hlen]
    exact hn
  · dsimp only
    rw [fill, take_left, length_contents]

/-- Nothing is reported as read. -/
lemma delivers_nothing
    (hlen : p'.length = p.length) (ha : r'.Aligned) (ho : r'.opened ≤ r.opened + fresh) :
    Delivers file p off r fresh (p', 0, err) r' :=
  ⟨hlen, Nat.zero_le _, rfl, ha, ho⟩

lemma aligned_of_next_none (h : r.next = none) : r.Aligned := fun x hx => by
  rw [h] at hx
  cases hx

lemma aligned_of_next (h : r.next = some x) (hoff : r.offset = x) : r.Aligned := fun y hy => by
  rw [hoff]
  exact Option.some.inj (hy.symm.trans h)

section

variable (hlen : p'.length = p.length)

include hlen

lemma fin_abort : Finishes (machine file) (Delivers file p off r 1) (abort p') r :=
  fin_closeStream fun r' hnext hopened =>
    delivers_nothing hlen (aligned_of_next_none hnext) (by omega)

lemma fin_hardSeek : Finishes (machine file) (Delivers file p off r 1) (hardSeek p' off) r := by
  simp only [hardSeek, op, op_bind]
  refine fin_swapInterrupted fun b r1 hkept => ?_
  split_ifs
  · exact (fin_abort hlen).mono fun _ _ h => h.of_opened hkept.opened
  refine fin_closeStream fun r2 hnext hopened2 => ?_
  have hopened := hopened2.trans hkept.opened
  refine fin_startStream (fun r3 hkept3 => ?_) fun r3 hoff3 hnext3 hopened3 => ?_
  · exact delivers_nothing hlen (hkept3.aligned (aligned_of_next_none hnext))
      (by rw [hkept3.opened]; omega)
  · refine fin_readFull hnext3 fun n err r4 hn hoff4 hnext4 hopened4 => ?_
    refine fin_setOffset fun r5 hoff5 hnext5 hopened5 => ?_
    rw [length_contents] at hoff5
    exact delivers_fill hlen hn (aligned_of_next (hnext5.trans hnext4) hoff5) (by omega)

lemma fin_recheck : Finishes (machine file) (Delivers file p off r 1) (recheck p' off) r := by
  simp only [recheck, op, op_bind]
  refine fin_swapInterrupted fun b r1 hkept => ?_
  split_ifs
  · exact (fin_abort hlen).mono fun _ _ h => h.of_opened hkept.opened
  · exact (fin_hardSeek hlen).mono fun _ _ h => h.of_opened hkept.opened

/-- A skip that succeeds leaves the pipe at the byte asked for. -/
lemma fin_smartSeek (hx : r.next = some x) (hlt : x < off) :
    Finishes (machine file) (Delivers file p off r 1) (smartSeek p' x off) r := by
  simp only [smartSeek, op, op_bind]
  refine fin_copyN hx fun n r1 hnext1 hopened1 => ?_
  split_ifs with hn
  · have hoff : x + (n : ℤ) = off := by
      rw [decide_eq_true_eq] at hn
      omega
    refine fin_setOffset fun r2 hoff2 hnext2 hopened2 => ?_
    have hnext : r2.next = some off := by rw [hnext2, hnext1, hoff]
    refine fin_readFull hnext fun m err r3 hm hoff3 hnext3 hopened3 => ?_
    refine fin_setOffset fun r4 hoff4 hnext4 hopened4 => ?_
    rw [length_contents] at hoff4
    split_ifs
    · exact delivers_fill hlen hm (aligned_of_next (hnext4.trans hnext3) hoff4) (by omega)
    · refine (fin_recheck ?_).mono fun _ _ h => h.of_opened (by omega)
      simp only [fill, length_append, length_drop, length_contents]
      omega
  · exact (fin_recheck hlen).mono fun _ _ h => h.of_opened hopened1

lemma fin_seek (ha : r.Aligned) :
    Finishes (machine file) (Delivers file p off r 1) (seek p' off) r := by
  simp only [seek, op, op_bind]
  refine fin_look fun r1 closed hkept => ?_
  split_ifs with hsmart
  · obtain ⟨hsome, hlt, -⟩ := hsmart
    obtain ⟨y, hy⟩ := Option.isSome_iff_exists.mp hsome
    obtain rfl := ha y hy
    exact (fin_smartSeek hlen (hkept.next.trans hy) hlt).mono fun _ _ h => h.of_opened hkept.opened
  · exact (fin_hardSeek hlen).mono fun _ _ h => h.of_opened hkept.opened

end

lemma fin_sequential (hx : r.next = some off) :
    Finishes (machine file) (Delivers file p off r 1) (sequential p off) r := by
  simp only [sequential, op, op_bind]
  refine fin_readFull hx fun n err r1 hn hoff1 hnext1 hopened1 => ?_
  refine fin_setOffset fun r2 hoff2 hnext2 hopened2 => ?_
  rw [length_contents] at hoff2
  have ha2 : r2.Aligned := aligned_of_next (hnext2.trans hnext1) hoff2
  have hlen : (fill p (contents file off n)).length = p.length := by
    simp only [fill, length_append, length_drop, length_contents]
    omega
  refine fin_swapInterrupted fun b r3 hkept => ?_
  have hopened : r3.opened = r.opened := by rw [hkept.opened, hopened2, hopened1]
  split_ifs
  · exact (fin_abort hlen).mono fun _ _ h => h.of_opened hopened
  · exact delivers_fill rfl hn (hkept.aligned ha2) (by omega)
  · exact (fin_seek hlen (hkept.aligned ha2)).mono fun _ _ h => h.of_opened hopened

/-- One attempt opens at most one stream. -/
lemma fin_readAtOnce (ha : r.Aligned) :
    Finishes (machine file) (Delivers file p off r 1) (readAtOnce p off) r := by
  simp only [readAtOnce, op, op_bind]
  refine fin_look fun r1 closed hkept => ?_
  split
  · exact delivers_nothing rfl (hkept.aligned ha) (by rw [hkept.opened]; omega)
  refine fin_swapInterrupted fun b r2 hkept2 => ?_
  have hkept := hkept.trans hkept2
  split_ifs with hb hseq
  · exact (fin_abort rfl).mono fun _ _ h => h.of_opened hkept.opened
  · obtain ⟨hsome, rfl⟩ := hseq
    obtain ⟨y, hy⟩ := Option.isSome_iff_exists.mp hsome
    obtain rfl := ha y hy
    exact (fin_sequential (hkept.next.trans hy)).mono
      fun _ _ h => h.of_opened hkept.opened
  · exact (fin_seek rfl (hkept.aligned ha)).mono fun _ _ h => h.of_opened hkept.opened

/-! ### The fill loop -/

/-- An attempt on the rest of the buffer adds to what was read before. -/
lemma Delivers.extend {total n : ℕ} {rest : List UInt8}
    (err' : Option ReadError) (htotal : total ≤ p.length) (hdone : p.take total = contents file off total)
    (h : Delivers file (p.drop total) (off + total) r fresh (rest, n, err) r') :
    Delivers file p off r fresh (p.take total ++ rest, total + n, err') r' := by
  have hlen : (p.take total).length = total := by
    rw [length_take]
    exact Nat.min_eq_left htotal
  have hrest : rest.length = p.length - total := h.length.trans length_drop
  have hcount : n ≤ p.length - total := h.count.trans length_drop.le
  refine ⟨?_, ?_, ?_, h.aligned, h.opened⟩
  · simp only [length_append, hlen, hrest]
    omega
  · dsimp only
    omega
  calc (p.take total ++ rest).take (total + n)
      = p.take total ++ rest.take n := by
        rw [take_append, hlen, Nat.add_sub_cancel_left, take_of_length_le (by omega)]
    _ = contents file off total ++ contents file (off + total) n := by
        rw [hdone]
        exact congrArg _ h.bytes
    _ = contents file off (total + n) := contents_append

/-- With `left` resets to go, at most `left + 1` more streams are opened. -/
lemma fin_readAtFrom {left total : ℕ} (ha : r.Aligned) (htotal : total ≤ p.length)
    (hdone : p.take total = contents file off total) :
    Finishes (machine file) (Delivers file p off r (left + 1)) (readAtFrom off left p total) r := by
  induction left generalizing p total r with
  | zero =>
    unfold readAtFrom
    split_ifs
    · exact ⟨rfl, htotal, hdone, ha, by omega⟩
    · refine ((fin_readAtOnce ha).mono fun o r1 h => ?_).bind
      obtain ⟨rest, n, err⟩ := o
      dsimp only
      split_ifs <;> exact h.extend _ htotal hdone
  | succ left ih =>
    unfold readAtFrom
    split_ifs
    · exact ⟨rfl, htotal, hdone, ha, by omega⟩
    refine ((fin_readAtOnce ha).mono fun o r1 h => ?_).bind
    obtain ⟨rest, n, err⟩ := o
    have hext : ∀ err', Delivers file p off r (left + 1 + 1)
        (p.take total ++ rest, total + n, err') r1 := fun err' =>
      let h' := h.extend err' htotal hdone
      ⟨h'.length, h'.count, h'.bytes, h'.aligned, by have := h'.opened; omega⟩
    dsimp only
    split_ifs
    · exact hext none
    · exact hext err
    · exact hext none
    -- the stream is dropped; what was read so far stays
    refine fin_closeStream fun r2 hnext hopened => ?_
    have hcount := (hext none).count
    have hlen := (hext none).length
    have hopen := h.opened
    refine (ih (aligned_of_next_none hnext) (hlen ▸ hcount) (hext none).bytes).mono
      fun o r3 h3 => ⟨h3.length.trans hlen, h3.count.trans hlen.le, h3.bytes, h3.aligned, ?_⟩
    have := h3.opened
    omega

theorem fin_readAt (ha : r.Aligned) :
    Finishes (machine file) (Delivers file p off r 5) (readAt p off) r :=
  fin_readAtFrom ha (Nat.zero_le _) rfl

/-! ### Every run -/

lemma fin_program (ha : r.Aligned) (call : Call) :
    Finishes (machine file) (fun _ r' => r'.Aligned) call.program r := by
  cases call with
  | readAt p off => exact ((fin_readAt ha).mono fun _ _ h => h.aligned).bind
  | interrupt =>
    exact fin_setInterrupted fun _ hkept => fin_shutPipe fun _ hkept' =>
      (hkept.trans hkept').aligned ha
  | resetStream => exact fin_closeStream fun _ hnext _ => aligned_of_next_none hnext
  | close =>
    intro c
    exact ⟨_, _, rfl, fin_closeStream fun _ hnext _ => aligned_of_next_none hnext⟩

lemma aligned_of_run {ls : List (Call × Option Outcome)}
    (hrun : Run (Serves file) newStreamReader ls r) : r.Aligned := by
  refine hrun.invariant (fun _ l _ ha hserve => (fin_program ha l.1).result hserve) ?_
  exact aligned_of_next_none rfl

/-- After every run of calls and interrupts, a `ReadAt` runs to its end whatever
the streams do; the first `n` bytes of its buffer are the file's from the
offset on, and it has opened at most five streams. -/
theorem readAt_delivers_file_bytes {ls : List (Call × Option Outcome)}
    (hrun : Run (Serves file) newStreamReader ls r) (p : List UInt8) (off : ℤ) :
    (∀ cs : ℕ → Choice, ∃ k o r',
      runAlone (machine file) (fun _ _ _ => True) ((List.range k).map cs) (readAt p off) r
        = (.ret o, r')) ∧
    ∀ p' n err r', Steps (machine file) (fun _ _ _ => True) (readAt p off) r (.ret (p', n, err)) r' →
      p'.length = p.length ∧ n ≤ p.length ∧ p'.take n = contents file off n ∧
      r'.opened ≤ r.opened + 5 := by
  have hfin : Finishes (machine file) (Delivers file p off r 5) (readAt p off) r :=
    fin_readAt (aligned_of_run hrun)
  refine ⟨fun cs => ?_, fun p' n err r' hsteps => ?_⟩
  · obtain ⟨k, o, r', hend, -⟩ := hfin.ends cs
    exact ⟨k, o, r', hend⟩
  · obtain ⟨hlen, hcount, hbytes, -, hopened⟩ := hfin.result hsteps
    exact ⟨hlen, hcount, hbytes, hopened⟩

/-- A file of consecutive bytes. -/
def countUp (n : ℤ) : UInt8 := UInt8.ofNat n.toNat

def calm : Choice := ⟨false, false, none, false, [], false⟩

/-- The first stream ends after three bytes, in two pieces; the second one goes on. -/
def twoStreams : List Choice :=
  List.replicate 5 calm ++ { calm with splits := [2, 1] } :: List.replicate 8 calm ++
    { calm with splits := [5] } :: List.replicate 2 calm

def sixBytes : List UInt8 := List.replicate 6 0

/-- The reader after six bytes at ten, and a sequential read of two more. -/
def firstRead : Prog (Option Outcome) × Reader :=
  runAlone (machine countUp) (fun _ _ _ => True) twoStreams (Call.readAt sixBytes 10).program
    newStreamReader

def secondRead : Prog Outcome × Reader :=
  runAlone (machine countUp) (fun _ _ _ => True) (List.replicate 5 calm) (readAt [0, 0] 16) firstRead.2

theorem readAt_delivers_after_reconnect :
    firstRead.1.result? = some (some ([10, 11, 12, 13, 14, 15], 6, none)) ∧ firstRead.2.opened = 2 ∧
      secondRead.1.result? = some ([16, 17], 2, none) ∧
      [16, 17].take 2 = contents countUp 16 2 ∧ secondRead.2.opened ≤ firstRead.2.opened + 5 := by
  have hfirst : firstRead.1.result? = some (some ([10, 11, 12, 13, 14, 15], 6, none)) := by
    decide +kernel
  have hsecond : secondRead.1.result? = some ([16, 17], 2, none) := by decide +kernel
  have hserve : Serves countUp newStreamReader
      (.readAt sixBytes 10, some ([10, 11, 12, 13, 14, 15], 6, none)) firstRead.2 := by
    have hsteps : Steps (machine countUp) (fun _ _ _ => True) (Call.readAt sixBytes 10).program
        newStreamReader firstRead.1 firstRead.2 := steps_runAlone _ _ _ _ _
    rwa [eq_ret_of_result? hfirst] at hsteps
  have hsteps : Steps (machine countUp) (fun _ _ _ => True) (readAt [0, 0] 16) firstRead.2
      secondRead.1 secondRead.2 := steps_runAlone _ _ _ _ _
  rw [eq_ret_of_result? hsecond] at hsteps
  obtain ⟨-, hread⟩ := readAt_delivers_file_bytes (.cons hserve (.nil _)) [0, 0] 16
  obtain ⟨-, -, hbytes, hopened⟩ := hread _ _ _ _ hsteps
  exact ⟨hfirst, by decide +kernel, hsecond, hbytes, hopened⟩

end Tiramisu.Native
