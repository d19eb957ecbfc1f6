import Tiramisu.Lib.Extents
import Tiramisu.Lib.Finishing

/-!
# The native reader

`NativeReader` reads a torrent file through a pipe that a stream fills from
some offset on.  It remembers in `offset` which byte the pipe delivers next:
sequential reads, short skips and reconnects all rest on that.  A stream may
hand its bytes over in any splits, end or fail at any point, and a seek may
interrupt a read at any operation.
-/

namespace Tiramisu.Native

open Protocol Extents

inductive ReadError
  | eof
  | unexpectedEOF
  | closedPipe
  | interrupted
  | notFound
  | failed
  deriving DecidableEq, Repr

/-- A pipe: the file offset of its next byte, the pieces in which the stream
will still deliver, whether it then fails or ends, and whether its reader side
has been closed. -/
structure Pipe where
  pos : ℤ
  splits : List ℕ
  fails : Bool
  shut : Bool
  deriving DecidableEq, Repr

/-- The reader; `opened` counts the streams it has opened. -/
structure Reader where
  offset : ℤ
  pipe : Option Pipe
  closed : Bool
  interrupted : Bool
  opened : ℕ
  deriving DecidableEq, Repr

def newStreamReader : Reader := ⟨0, none, false, false, 0⟩

/-- What happens around an operation: an `Interrupt` has set its flag or closed
the pipe, or closes it once a read has got `cut` bytes; the torrent of a new
stream is gone, or the stream will deliver in these pieces. -/
structure Choice where
  interrupts : Bool
  shuts : Bool
  cut : Option ℕ
  gone : Bool
  splits : List ℕ
  fails : Bool

namespace Reader

def disturbed (c : Choice) (r : Reader) : Reader :=
  { r with
    interrupted := r.interrupted || c.interrupts
    pipe := if c.shuts then r.pipe.map ({ · with shut := true }) else r.pipe }

def closeStream (r : Reader) : Reader := { r with pipe := none }

end Reader

/-- The bytes that `len` asks for and the pieces that are left. -/
def pull (len : ℕ) : List ℕ → ℕ × List ℕ
  | [] => (0, [])
  | k :: splits =>
    if len ≤ k then (len, (k - len) :: splits)
    else
      let (n, rest) := pull (len - k) splits
      (k + n, rest)

/-- `io.ReadFull`: the number of bytes, the error and the pipe afterwards. -/
def Pipe.readFull (c : Choice) (len : ℕ) (pipe : Pipe) : ℕ × Option ReadError × Pipe :=
  let asked := min len (c.cut.getD len)
  let (n, rest) := if pipe.shut then (0, pipe.splits) else pull asked pipe.splits
  let closes := pipe.shut || decide (n = asked)
  let err :=
    if n = len then none
    else if closes then some .closedPipe
    else if pipe.fails then some .failed
    else if n = 0 then some .eof
    else some .unexpectedEOF
  (n, err, { pipe with pos := pipe.pos + n, splits := rest, shut := pipe.shut || err = some .closedPipe })

/-! ### Operations -/

inductive Op
  | look
  | swapInterrupted
  | readFull (len : ℕ)
  | copyN (skip : ℕ)
  | setOffset (off : ℤ)
  | startStream (off : ℤ)
  | closeStream
  | setInterrupted
  | shutPipe
  | setClosed

/-- `look` reads `offset`, whether there is a pipe, and `closed`. -/
abbrev Op.Res : Op → Type
  | .look => ℤ × Bool × Bool
  | .swapInterrupted | .copyN _ | .startStream _ => Bool
  | .readFull _ => List UInt8 × Option ReadError
  | _ => Unit

/-- A read without a pipe would be a call on a nil pointer. -/
def exec (file : ℤ → UInt8) (o : Op) (c : Choice) (before : Reader) : Option (o.Res × Reader) :=
  let r := before.disturbed c
  match o with
  | .look => some ((r.offset, r.pipe.isSome, r.closed), r)
  | .swapInterrupted => some (r.interrupted, { r with interrupted := false })
  | .readFull len => r.pipe.map fun pipe =>
    let (n, err, pipe') := pipe.readFull c len
    ((contents file pipe.pos n, err), { r with pipe := some pipe' })
  | .copyN skip => r.pipe.map fun pipe =>
    let (n, _, pipe') := pipe.readFull c skip
    (decide (n = skip), { r with pipe := some pipe' })
  | .setOffset off => some ((), { r with offset := off })
  | .startStream off =>
    if c.gone then some (false, r)
    else some (true, { r with
      offset := off
      pipe := some ⟨off, c.splits, c.fails, false⟩
      opened := r.opened + 1 })
  | .closeStream => some ((), r.closeStream)
  | .setInterrupted => some ((), { r with interrupted := true })
  | .shutPipe => some ((), { r with pipe := r.pipe.map ({ · with shut := true }) })
  | .setClosed => some ((), { r with closed := true })

def machine (file : ℤ → UInt8) : Machine Op Op.Res Choice Reader := ⟨exec file⟩

abbrev Prog (α : Type) := Program Op Op.Res α

abbrev op (o : Op) : Prog o.Res := Program.op o

/-! ### Reading -/

/-- What a read returns: the buffer as it is now, the number of bytes and the error. -/
abbrev Outcome := List UInt8 × ℕ × Option ReadError

/-- The buffer after bytes have been read into its start. -/
def fill (p bytes : List UInt8) : List UInt8 := bytes ++ p.drop bytes.length

/-- The end of a stream, early or not, is no error here. -/
def benign : Option ReadError → Bool
  | none | some .eof | some .unexpectedEOF => true
  | _ => false

/-- Drop the stream and report the seek. -/
def abort (p : List UInt8) : Prog Outcome := do
  op .closeStream
  pure (p, 0, some .interrupted)

/-- Recovery path for errors and large seeks: a new stream at the offset. -/
def hardSeek (p : List UInt8) (off : ℤ) : Prog Outcome := do
  if ← op .swapInterrupted then abort p
  else do
    op .closeStream
    if ← op (.startStream off) then do
      let (bytes, err) ← op (.readFull p.length)
      op (.setOffset (off + bytes.length))
      pure (fill p bytes, bytes.length, if err = some .unexpectedEOF then none else err)
    else pure (p, 0, some .notFound)

def recheck (p : List UInt8) (off : ℤ) : Prog Outcome := do
  if ← op .swapInterrupted then abort p else hardSeek p off

/-- Skip forward inside the pipe. -/
def smartSeek (p : List UInt8) (offset off : ℤ) : Prog Outcome := do
  if ← op (.copyN (off - offset).toNat) then do
    op (.setOffset off)
    let (bytes, err) ← op (.readFull p.length)
    op (.setOffset (off + bytes.length))
    if benign err then pure (fill p bytes, bytes.length, none)
    else recheck (fill p bytes) off
  else recheck p off

def seek (p : List UInt8) (off : ℤ) : Prog Outcome := do
  let (offset, hasPipe, _) ← op .look
  if hasPipe ∧ offset < off ∧ off - offset < 2 * 1024 * 1024 then smartSeek p offset off
  else hardSeek p off

/-- The pipe's next byte is the one asked for. -/
def sequential (p : List UInt8) (off : ℤ) : Prog Outcome := do
  let (bytes, err) ← op (.readFull p.length)
  op (.setOffset (off + bytes.length))
  if ← op .swapInterrupted then abort (fill p bytes)
  else if benign err then pure (fill p bytes, bytes.length, none)
  else seek (fill p bytes) off

def readAtOnce (p : List UInt8) (off : ℤ) : Prog Outcome := do
  let (offset, hasPipe, closed) ← op .look
  if closed then pure (p, 0, some .closedPipe)
  else if ← op .swapInterrupted then abort p
  else if hasPipe ∧ off = offset then sequential p off
  else seek p off

def readAtFillAttempts : ℕ := 4

/-- `ReadAt` after `total` bytes, with `left` resets to go. -/
def readAtFrom (off : ℤ) : ℕ → List UInt8 → ℕ → Prog Outcome
  | left, p, total =>
    if p.length ≤ total then pure (p, total, none)
    else do
      let (rest, n, err) ← readAtOnce (p.drop total) (off + total)
      let p' := p.take total ++ rest
      if err = some .eof ∧ 0 < total + n then pure (p', total + n, none)
      else if err ≠ none ∨ p.length ≤ total + n then pure (p', total + n, err)
      else
        match left with
        | 0 => pure (p', total + n, none)
        | left + 1 =>
          -- a freshly started stream that produces nothing is at the end of the file
          if n = 0 ∧ left + 1 < readAtFillAttempts then pure (p', total + n, none)
          else do
            op .closeStream
            readAtFrom off left p' (total + n)

def readAt (p : List UInt8) (off : ℤ) : Prog Outcome := readAtFrom off readAtFillAttempts p 0

/-! ### Calls -/

inductive Call
  | readAt (p : List UInt8) (off : ℤ)
  | interrupt
  | resetStream
  | close

def Call.program : Call → Prog (Option Outcome)
  | .readAt p off => do
      let r ← Native.readAt p off
      pure (some r)
  | .interrupt => do
      op .setInterrupted
      op .shutPipe
      pure none
  | .resetStream => do
      op .closeStream
      pure none
  | .close => do
      op .setClosed
      op .closeStream
      pure none

/-- A call that runs to its end, disturbed by interrupts at any operation. -/
def Serves (file : ℤ → UInt8) (r : Reader) (l : Call × Option Outcome) (r' : Reader) : Prop :=
  Steps (machine file) (fun _ _ _ => True) l.1.program r (.ret l.2) r'

end Tiramisu.Native
