import Tiramisu.Go.Maps
import Tiramisu.Go.Text
import Tiramisu.Lib.Buffers

/-!
# The read-ahead cache

`ReadAheadCache` keeps chunks of the files being streamed in 32 shards, each
with its map, its order list and its total, under one global budget.  The
chunks' bytes lie in backing arrays that are recycled through a pool.  Every
call reads the configuration and the clock, which are its arguments here, and
the evictions that the code starts in the background are calls of their own.
-/

namespace Tiramisu.ReadAhead

open Buffers Go

scoped instance shards_neZero : NeZero 32 := ⟨by decide⟩

structure RaBuffer where
  start : ℤ
  last : ℤ
  data : Slice
  lastAccess : ℤ
  sessionID : ℤ
  deriving DecidableEq, Repr

structure RaShard where
  buffers : GoMap String RaBuffer
  order : List String
  total : ℤ

structure Config where
  readAheadBase : ℤ
  readAheadBudget : ℤ

structure Cache where
  shards : Fin 32 → RaShard
  used : ℤ
  pool : List ℕ
  poolCap : ℕ
  activePath : String
  currentSessionID : ℤ
  pieceLens : GoMap String ℤ
  heap : Heap UInt8

def newReadAheadCache : Cache where
  shards _ := ⟨∅, [], 0⟩
  used := 0
  pool := []
  poolCap := 32
  activePath := ""
  currentSessionID := 0
  pieceLens := ∅
  heap := ⟨[]⟩

namespace Config

/-- The base as `SetPieceLen`, `ChunkSize` and `Put` read it. -/
def base (cfg : Config) : ℤ := if cfg.readAheadBase = 0 then 16 * 1024 * 1024 else cfg.readAheadBase

/-- The base as `recycle` and `AnchorPoolToConfig` read it. -/
def recycled (cfg : Config) : ℤ :=
  if 0 < cfg.readAheadBase then cfg.readAheadBase else 16 * 1024 * 1024

def globalLimit (cfg : Config) : ℤ :=
  if cfg.readAheadBudget ≤ 0 then 256 * 1024 * 1024 else cfg.readAheadBudget

end Config

namespace Cache

variable (cfg : Config)

/-! ### Chunk sizes and keys -/

def setPieceLen (path : String) (pl : ℤ) (c : Cache) : Cache :=
  if pl ≤ 0 then { c with pieceLens := c.pieceLens.erase path }
  else
    let n := cfg.base.tdiv pl
    if 0 < n then { c with pieceLens := c.pieceLens.insert path (n * pl) }
    else { c with pieceLens := c.pieceLens.insert path cfg.base }

def chunkSize (c : Cache) (path : String) : ℤ := (c.pieceLens.lookup path).getD cfg.base

/-- The text of a key: a path and a chunk index. -/
def keyText (path : String) (index : ℤ) : String := path ++ ":" ++ toString index

def chunkKey (c : Cache) (path : String) (offset : ℤ) : String :=
  keyText path (offset.tdiv (c.chunkSize cfg path))

/-! ### Buffers -/

/-- `AnchorPoolToConfig`: a pool of another capacity starts empty. -/
def anchorPoolToConfig (c : Cache) : Cache :=
  let poolCap := min 64 (max 16 (cfg.globalLimit.tdiv cfg.recycled * 2).toNat)
  if poolCap = c.poolCap then c else { c with pool := [], poolCap := poolCap }

def recycle (b : Slice) (c : Cache) : Cache :=
  if c.heap.cap b.buf = cfg.recycled ∧ c.pool.length < c.poolCap then
    { c with pool := c.pool ++ [b.buf] }
  else c

/-- `allocChunk`: the capacity is rounded up to the base. -/
def allocChunk (size : ℕ) (c : Cache) : Slice × Cache :=
  let (buf, heap) := c.heap.alloc (List.replicate (max size cfg.base.toNat) 0)
  (⟨buf, size⟩, { c with heap := heap })

/-- A pooled buffer that is large enough, or a new one. -/
def takeBuffer (size : ℕ) (c : Cache) : Slice × Cache :=
  match c.pool with
  | buf :: pool =>
    if size ≤ c.heap.cap buf then (⟨buf, size⟩, { c with pool := pool })
    else allocChunk cfg size { c with pool := pool }
  | [] => allocChunk cfg size c

/-- `Put` copies its data before it touches the shard. -/
def dataCopy (d : List UInt8) (c : Cache) : Slice × Cache :=
  let (b, c₁) := c.takeBuffer cfg d.length
  (b, { c₁ with heap := c₁.heap.store b.buf d })

/-! ### Shards -/

def modifyShard (i : Fin 32) (f : RaShard → RaShard) (c : Cache) : Cache :=
  { c with shards := Function.update c.shards i (f (c.shards i)) }

/-- An entry leaves its shard. -/
def discard (i : Fin 32) (key : String) (b : RaBuffer) (c : Cache) : Cache :=
  let c₁ := c.modifyShard i fun s =>
    { s with total := s.total - b.data.len, buffers := s.buffers.erase key }
  recycle cfg b.data { c₁ with used := c₁.used - b.data.len }

/-- The entry a chunk is written over gives its bytes back and its place in the order. -/
def accountOverwrite (i : Fin 32) (key : String) (c : Cache) : Cache :=
  match (c.shards i).buffers.lookup key with
  | none => c
  | some old =>
    let c₁ := c.modifyShard i fun s =>
      { s with total := s.total - old.data.len, order := s.order.erase key }
    recycle cfg old.data { c₁ with used := c₁.used - old.data.len }

def addChunk (i : Fin 32) (key : String) (b : RaBuffer) (c : Cache) : Cache :=
  let c₁ := c.modifyShard i fun s =>
    { order := s.order ++ [key], total := s.total + b.data.len, buffers := s.buffers.insert key b }
  { c₁ with used := c₁.used + b.data.len }

/-- One round of the eviction in `Put`: the oldest key of the shard goes. -/
def evictFirst (i : Fin 32) (c : Cache) : Cache :=
  match (c.shards i).order with
  | [] => c
  | key :: order =>
    let c₁ := c.modifyShard i fun s => { s with order := order }
    match (c.shards i).buffers.lookup key with
    | none => c₁
    | some old => c₁.discard cfg i key old

/-- Evict while over budget, keeping the last key; `rounds` bounds the rounds. -/
def evictOver (i : Fin 32) : ℕ → Cache → Cache
  | 0, c => c
  | rounds + 1, c =>
    if cfg.globalLimit < c.used ∧ 1 < (c.shards i).order.length then
      evictOver i rounds (c.evictFirst cfg i)
    else c

/-- The periodic compaction of an order list. -/
def compact (i : Fin 32) (c : Cache) : Cache :=
  c.modifyShard i fun s =>
    if 100 < s.order.length ∧ s.buffers.entries.length * 2 < s.order.length then
      { s with order := s.order.filter fun key => key ∈ s.buffers }
    else s

/-! ### Evictions across shards -/

/-- The chunk belongs to an old session or has not been used for too long. -/
def stale (now : ℤ) (activePath : String) (activeSessionID : ℤ) (key : String) (b : RaBuffer) :
    Bool :=
  let active := hasPrefix key (activePath ++ ":")
  if b.sessionID ≠ activeSessionID ∧ active = false then true
  else (if active then 60 * 10 ^ 9 else 120 * 10 ^ 9) < now - b.lastAccess

/-- The pass over an order list: stale chunks are discarded, the other keys kept. -/
def sweep (now : ℤ) (activePath : String) (activeSessionID : ℤ) (i : Fin 32) :
    List String → Cache → Cache × List String
  | [], c => (c, [])
  | key :: order, c =>
    match (c.shards i).buffers.lookup key with
    | none =>
      let (c₁, kept) := sweep now activePath activeSessionID i order c
      (c₁, key :: kept)
    | some b =>
      if stale now activePath activeSessionID key b then
        sweep now activePath activeSessionID i order (c.discard cfg i key b)
      else
        let (c₁, kept) := sweep now activePath activeSessionID i order c
        (c₁, key :: kept)

def evictShard (now : ℤ) (activePath : String) (activeSessionID : ℤ) (i : Fin 32) (c : Cache) :
    Cache :=
  let (c₁, kept) := sweep cfg now activePath activeSessionID i (c.shards i).order c
  c₁.modifyShard i fun s => { s with order := kept }

/-- `triggerGlobalEviction`: shards that are busy are skipped, but if all are the
first one is waited for. -/
def triggerGlobalEviction (now : ℤ) (activePath : String) (activeSessionID : ℤ)
    (busy : Fin 32 → Bool) (c : Cache) : Cache :=
  if (List.finRange 32).all busy then evictShard cfg now activePath activeSessionID 0 c
  else ((List.finRange 32).filter fun i => !busy i).foldl
    (fun c i => evictShard cfg now activePath activeSessionID i c) c

/-- `SwitchContext`; the eviction it starts is a call of its own. -/
def switchContext (newPath : String) (c : Cache) : Cache :=
  if newPath ≠ c.activePath then
    { c with activePath := newPath, currentSessionID := c.currentSessionID + 1 }
  else c

section Shards

variable (shardOf : String → Fin 32)

/-! ### Writing -/

/-- `Put` up to its evictions: the chunk is copied and entered. -/
def enterChunk (now : ℤ) (p : String) (start last : ℤ) (d : List UInt8) (c : Cache) : Cache :=
  let sessID := if p ≠ c.activePath then 0 else c.currentSessionID
  let i := shardOf p
  let key := c.chunkKey cfg p start
  let (data, c₁) := c.dataCopy cfg d
  (c₁.accountOverwrite cfg i key).addChunk i key ⟨start, last, data, now, sessID⟩

/-- `Put`; the global eviction it may start is a call of its own. -/
def put (now : ℤ) (p : String) (start last : ℤ) (d : List UInt8) (c : Cache) : Cache :=
  let i := shardOf p
  let c₁ := c.enterChunk cfg shardOf now p start last d
  (c₁.evictOver cfg i (c₁.shards i).order.length).compact i

/-! ### Looking up -/

/-- The time of the last access is stored in the entry. -/
def touch (i : Fin 32) (key : String) (now : ℤ) (c : Cache) : Cache :=
  match (c.shards i).buffers.lookup key with
  | none => c
  | some b => c.modifyShard i fun s =>
    { s with buffers := s.buffers.insert key { b with lastAccess := now } }

def covered (now : ℤ) (p : String) (off last : ℤ) (c : Cache) : Bool × Cache :=
  let i := shardOf p
  let key := c.chunkKey cfg p off
  match (c.shards i).buffers.lookup key with
  | none => (false, c)
  | some b =>
    if b.start ≤ off ∧ off ≤ b.last then
      if last ≤ b.last then (true, c.touch i key now)
      else
        let key₂ := c.chunkKey cfg p last
        match (c.shards i).buffers.lookup key₂ with
        | none => (false, c)
        | some b₂ =>
          if b₂.start = b.last + 1 ∧ last ≤ b₂.last then
            (true, (c.touch i key now).touch i key₂ now)
          else (false, c)
    else (false, c)

/-- `copy(dst, src)`: the number of bytes copied and the new contents of `dst`. -/
def goCopy (dst src : List UInt8) : ℕ × List UInt8 :=
  let n := min dst.length src.length
  (n, src.take n ++ dst.drop n)

/-- What `Get` and `CopyTo` share: the bytes of the range are taken from one chunk or from
two adjacent ones; no answer at all is a slice expression out of range. -/
def lookUp {β : Type} (miss : β) (one : List UInt8 → β) (two : List UInt8 → List UInt8 → β)
    (now : ℤ) (p : String) (off last : ℤ) (c : Cache) : Option (β × Cache) :=
  let i := shardOf p
  let key := c.chunkKey cfg p off
  match (c.shards i).buffers.lookup key with
  | none => some (miss, c)
  | some b =>
    if b.start ≤ off ∧ off ≤ b.last then
      let c₁ := c.touch i key now
      if last ≤ b.last then
        (c.heap.window b.data (off - b.start) (last - b.start + 1)).map fun src => (one src, c₁)
      else
        let key₂ := c.chunkKey cfg p last
        match (c.shards i).buffers.lookup key₂ with
        | none => some (miss, c₁)
        | some b₂ =>
          if b₂.start = b.last + 1 ∧ last ≤ b₂.last then
            (c.heap.window b.data (off - b.start) b.data.len).bind fun src =>
            (c.heap.window b₂.data 0 (last - b₂.start + 1)).map fun src₂ =>
              (two src src₂, c₁.touch i key₂ now)
          else some (miss, c₁)
    else some (miss, c)

/-- `Get`: a copy of the range. -/
def get (now : ℤ) (p : String) (off last : ℤ) (c : Cache) :
    Option (Option (List UInt8) × Cache) :=
  c.lookUp cfg shardOf none (fun src => some (goCopy (List.replicate src.length 0) src).2)
    (fun src src₂ =>
      let (n₁, out) := goCopy (List.replicate (last - off + 1).toNat 0) src
      some (out.take n₁ ++ (goCopy (out.drop n₁) src₂).2))
    now p off last

/-- `CopyTo`: the number of bytes copied and the new contents of `dest`. -/
def copyTo (now : ℤ) (p : String) (off last : ℤ) (dest : List UInt8) (c : Cache) :
    Option ((ℕ × List UInt8) × Cache) :=
  c.lookUp cfg shardOf (0, dest) (goCopy dest)
    (fun src src₂ =>
      let (n₁, dest₁) := goCopy dest src
      let (n₂, rest) := goCopy (dest₁.drop n₁) src₂
      (n₁ + n₂, dest₁.take n₁ ++ rest))
    now p off last

/-! ### Calls -/

inductive Op
  | put (p : String) (start last : ℤ) (d : List UInt8)
  | setPieceLen (p : String) (pl : ℤ)
  | switchContext (newPath : String)
  | triggerGlobalEviction (activePath : String) (activeSessionID : ℤ) (busy : Fin 32 → Bool)
  | anchorPoolToConfig
  | covered (p : String) (off last : ℤ)
  | get (p : String) (off last : ℤ)
  | copyTo (p : String) (off last : ℤ) (dest : List UInt8)

/-- A call with the configuration and the time it sees. -/
structure Call where
  cfg : Config
  now : ℤ
  op : Op

def step (c : Cache) (l : Call) : Option Cache :=
  match l.op with
  | .put p start last d => some (c.put l.cfg shardOf l.now p start last d)
  | .setPieceLen p pl => some (c.setPieceLen l.cfg p pl)
  | .switchContext newPath => some (c.switchContext newPath)
  | .triggerGlobalEviction activePath activeSessionID busy =>
    some (c.triggerGlobalEviction l.cfg l.now activePath activeSessionID busy)
  | .anchorPoolToConfig => some (c.anchorPoolToConfig l.cfg)
  | .covered p off last => some (c.covered l.cfg shardOf l.now p off last).2
  | .get p off last => (c.get l.cfg shardOf l.now p off last).map Prod.snd
  | .copyTo p off last dest => (c.copyTo l.cfg shardOf l.now p off last dest).map Prod.snd

def Step (c : Cache) (l : Call) (c' : Cache) : Prop := step shardOf c l = some c'

end Shards

end Cache

end Tiramisu.ReadAhead
