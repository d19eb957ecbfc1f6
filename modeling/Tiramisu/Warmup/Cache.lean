import Tiramisu.Go.Maps
import Tiramisu.Go.Sort
import Tiramisu.Go.Text
import Tiramisu.Lib.Extents
import Tiramisu.Lib.Program

/-!
# The disk warmup cache

`DiskWarmupCache` keeps the head and the tail of every streamed file in a
directory.  What it knows about the files is spread over several `sync.Map`s:
open handles, cached sizes, paths known to be missing, covered ranges of the
tails.  Every load, store and system call is one operation here, so the
methods are programs of such operations; the choice of an operation holds the
clock and the failures.
-/

namespace Tiramisu.Warmup

open Protocol Extents Go

structure Config where
  dir : String
  fileSize : ℤ
  diskQuotaGB : ℤ

def tailWarmupSize : ℤ := 16 * 1024 * 1024
def warmupQuota : ℤ := 32 * 1024 * 1024 * 1024
def warmupSuffix : String := ".warmup"
def tailSuffix : String := ".warmup-tail"
def missingTTL : ℤ := 10 * 10 ^ 9
def headReadyFloor : ℤ := 2 ^ 20

namespace Config

variable (cfg : Config)

/-- `filepath.Join` of the directory and the name of an entry. -/
def join (name : String) : String := cfg.dir ++ "/" ++ name

def filePath (hash : String) (fileID : ℤ) : String :=
  cfg.join (hash ++ "-" ++ toString fileID ++ warmupSuffix)

def tailPath (hash : String) (fileID : ℤ) : String :=
  cfg.join (hash ++ "-" ++ toString fileID ++ tailSuffix)

def quota : ℤ := if 0 < cfg.diskQuotaGB then cfg.diskQuotaGB * 1024 * 1024 * 1024 else warmupQuota

end Config

/-- The names of head and tail files. -/
def isWarmupName (name : String) : Bool := hasSuffix name warmupSuffix || hasSuffix name tailSuffix

/-! ### Covered ranges of a tail -/

structure TailSpan where
  start : ℤ
  stop : ℤ
  deriving DecidableEq, Repr

namespace TailRange

/-- The loop of `add` over the sorted spans, with the span it may still extend. -/
def merge (last : TailSpan) : List TailSpan → List TailSpan
  | [] => [last]
  | s :: spans =>
    if s.start ≤ last.stop then
      merge (if last.stop < s.stop then { last with stop := s.stop } else last) spans
    else last :: merge s spans

def add (ranges : List TailSpan) (start stop : ℤ) : List TailSpan :=
  if stop ≤ start then ranges
  else
    match (ranges ++ [(⟨start, stop⟩ : TailSpan)]).insertionSort fun a b => a.start ≤ b.start with
    | [] => []
    | s :: spans => merge s spans

def covers (ranges : List TailSpan) (start stop : ℤ) : Bool :=
  if stop ≤ start then false
  else
    let i := search ranges.length fun i => (ranges[i]?).any fun s => start < s.stop
    (ranges[i]?).any fun s => decide (s.start ≤ start) && decide (stop ≤ s.stop)

def complete (ranges : List TailSpan) : Bool := covers ranges 0 tailWarmupSize

end TailRange

/-! ### The state -/

/-- Who wrote to a file. -/
inductive Writer
  | processWrite
  | writeTail
  deriving DecidableEq, Repr

structure Inode where
  file : File Writer UInt8
  modTime : ℤ

/-- A `cachedHandle`; `opened` is the state of its `*os.File`. -/
structure CachedHandle where
  ino : ℕ
  lastUsedNano : ℤ
  closed : Bool
  opened : Bool

structure SizeEntry where
  size : ℤ
  updatedAt : ℤ

structure World where
  totalSize : ℤ
  missing : GoMap String ℤ
  handles : GoMap String ℕ
  sizeCache : GoMap String SizeEntry
  tailCoverage : GoMap String ℕ
  locked : Bool
  cachedHandles : List CachedHandle
  tailRanges : List (List TailSpan)
  names : GoMap String ℕ
  inodes : List Inode

/-- A cache over an empty directory. -/
def World.fresh : World := ⟨0, ∅, ∅, ∅, ∅, false, [], [], ∅, []⟩

/-- The size of the file at a path, nothing when there is none. -/
def World.sizeAt (w : World) (path : String) : ℤ :=
  (((w.names.lookup path).bind (w.inodes[·]?)).map fun f => (f.file.bytes.length : ℤ)).getD 0

/-! ### Operations -/

inductive StatResult
  | size (n : ℤ)
  | notExist
  | failed
  deriving DecidableEq, Repr

/-- What the environment decides about one operation: the clock, whether a
system call fails, the bytes a failing transfer got through, what a listing
returned and in which order a map was ranged over. -/
structure Choice where
  now : ℤ
  fails : Bool
  count : ℕ
  listing : List String

inductive Op
  | now
  | loadSize (path : String)
  | storeSize (path : String) (entry : SizeEntry)
  | deleteSize (path : String)
  | loadMissing (path : String)
  | storeMissing (path : String) (since : ℤ)
  | deleteMissing (path : String)
  | loadHandle (path : String)
  | storeHandle (path : String) (h : ℕ)
  | loadOrStoreHandle (path : String) (h : ℕ)
  | takeHandle (path : String)
  | rangeHandles
  | loadTail (path : String)
  | loadOrStoreTail (path : String)
  | deleteTail (path : String)
  | addSpan (tr : ℕ) (start stop : ℤ)
  | spans (tr : ℕ)
  | touch (h : ℕ) (time : ℤ)
  | lastUsed (h : ℕ)
  | markClosed (h : ℕ)
  | isClosed (h : ℕ)
  | loadTotal
  | storeTotal (n : ℤ)
  | addTotal (n : ℤ)
  | lock
  | unlock
  | stat (path : String)
  | openFile (path : String)
  | createFile (path : String)
  | close (h : ℕ)
  | writeAt (writer : Writer) (h : ℕ) (data : List UInt8) (off : ℤ)
  | readAt (h : ℕ) (len : ℕ) (off : ℤ)
  | remove (path : String)
  | readDir
  | info (path : String)
  | restart

abbrev Op.Res : Op → Type
  | .now | .lastUsed _ | .loadTotal => ℤ
  | .loadSize _ => Option SizeEntry
  | .loadMissing _ => Option ℤ
  | .loadHandle _ | .loadOrStoreHandle _ _ | .takeHandle _ | .loadTail _ => Option ℕ
  | .rangeHandles => List (String × ℕ)
  | .loadOrStoreTail _ => ℕ
  | .spans _ => List TailSpan
  | .isClosed _ | .remove _ => Bool
  | .stat _ => StatResult
  | .openFile _ | .createFile _ => Option ℕ
  | .writeAt _ _ _ _ => ℕ × Bool
  | .readAt _ _ _ => List UInt8 × Bool
  | .readDir => List String
  | .info _ => Option (ℤ × ℤ)
  | _ => Unit

namespace World

variable (w : World)

/-- The inode behind the descriptor of a handle, while it is open. -/
def inodeOf (h : ℕ) : Option (ℕ × Inode) :=
  match w.cachedHandles[h]? with
  | some ch => if ch.opened then (w.inodes[ch.ino]?).map (ch.ino, ·) else none
  | none => none

def modifyHandle (h : ℕ) (f : CachedHandle → CachedHandle) : World :=
  { w with cachedHandles := w.cachedHandles.modify h f }

/-- A new `cachedHandle` around an opened file. -/
def newHandle (ino : ℕ) : ℕ × World :=
  (w.cachedHandles.length,
    { w with cachedHandles := w.cachedHandles ++ [⟨ino, 0, false, true⟩] })

def statPath (path : String) : StatResult :=
  match (w.names.lookup path).bind (w.inodes[·]?) with
  | some f => .size f.file.bytes.length
  | none => .notExist

/-- `os.OpenFile` with `O_CREATE|O_TRUNC`. -/
def create (path : String) (now : ℤ) : ℕ × World :=
  match w.names.lookup path with
  | some ino => newHandle { w with inodes := w.inodes.set ino ⟨.empty, now⟩ } ino
  | none => newHandle { w with
      names := w.names.insert path w.inodes.length
      inodes := w.inodes ++ [⟨.empty, now⟩] } w.inodes.length

/-- The part of the data that a transfer gets through. -/
def sent (c : Choice) (data : List UInt8) : List UInt8 :=
  if c.fails then data.take c.count else data

/-- `(*os.File).WriteAt`: the number of bytes written and whether it failed. -/
def writeFile (c : Choice) (writer : Writer) (h : ℕ) (data : List UInt8) (off : ℤ) :
    (ℕ × Bool) × World :=
  match w.inodeOf h with
  | none => ((0, true), w)
  | some (ino, f) =>
    if off < 0 then ((0, true), w)
    else
      let f' : Inode := ⟨f.file.write 0 writer off.toNat (sent c data), c.now⟩
      (((sent c data).length, c.fails), { w with inodes := w.inodes.set ino f' })

/-- `(*os.File).ReadAt`: the bytes read and whether an error came with them. -/
def readFile (c : Choice) (h len : ℕ) (off : ℤ) : List UInt8 × Bool :=
  match w.inodeOf h with
  | none => ([], true)
  | some (_, f) =>
    if off < 0 then ([], true)
    else
      let bytes := f.file.read off.toNat len
      if c.fails then (bytes.take c.count, true) else (bytes, decide (bytes.length < len))

/-- The memory of a new process, over the same directory. -/
def rebooted : World :=
  { World.fresh with names := w.names, inodes := w.inodes }

end World

def exec (cfg : Config) : (o : Op) → Choice → World → Option (o.Res × World)
  | .now, c, w => some (c.now, w)
  | .loadSize path, _, w => some (w.sizeCache.lookup path, w)
  | .storeSize path entry, _, w =>
    some ((), { w with sizeCache := w.sizeCache.insert path entry })
  | .deleteSize path, _, w => some ((), { w with sizeCache := w.sizeCache.erase path })
  | .loadMissing path, _, w => some (w.missing.lookup path, w)
  | .storeMissing path since, _, w => some ((), { w with missing := w.missing.insert path since })
  | .deleteMissing path, _, w => some ((), { w with missing := w.missing.erase path })
  | .loadHandle path, _, w => some (w.handles.lookup path, w)
  | .storeHandle path h, _, w => some ((), { w with handles := w.handles.insert path h })
  | .loadOrStoreHandle path h, _, w =>
    match w.handles.lookup path with
    | some existing => some (some existing, w)
    | none => some (none, { w with handles := w.handles.insert path h })
  | .takeHandle path, _, w =>
    some (w.handles.lookup path, { w with handles := w.handles.erase path })
  | .rangeHandles, c, w =>
    some (c.listing.filterMap fun path => (w.handles.lookup path).map (path, ·), w)
  | .loadTail path, _, w => some (w.tailCoverage.lookup path, w)
  | .loadOrStoreTail path, _, w =>
    match w.tailCoverage.lookup path with
    | some tr => some (tr, w)
    | none => some (w.tailRanges.length, { w with
        tailCoverage := w.tailCoverage.insert path w.tailRanges.length
        tailRanges := w.tailRanges ++ [[]] })
  | .deleteTail path, _, w => some ((), { w with tailCoverage := w.tailCoverage.erase path })
  | .addSpan tr start stop, _, w =>
    some ((), { w with tailRanges := w.tailRanges.modify tr (TailRange.add · start stop) })
  | .spans tr, _, w => some ((w.tailRanges[tr]?).getD [], w)
  | .touch h time, _, w => some ((), w.modifyHandle h ({ · with lastUsedNano := time }))
  | .lastUsed h, _, w => some (((w.cachedHandles[h]?).map (·.lastUsedNano)).getD 0, w)
  | .markClosed h, _, w => some ((), w.modifyHandle h ({ · with closed := true }))
  | .isClosed h, _, w => some (((w.cachedHandles[h]?).map (·.closed)).getD false, w)
  | .loadTotal, _, w => some (w.totalSize, w)
  | .storeTotal n, _, w => some ((), { w with totalSize := n })
  | .addTotal n, _, w => some ((), { w with totalSize := w.totalSize + n })
  | .lock, _, w => if w.locked then none else some ((), { w with locked := true })
  | .unlock, _, w => some ((), { w with locked := false })
  | .stat path, c, w => some (if c.fails then .failed else w.statPath path, w)
  | .openFile path, c, w =>
    match if c.fails then none else w.names.lookup path with
    | none => some (none, w)
    | some ino => some (some (w.newHandle ino).1, (w.newHandle ino).2)
  | .createFile path, c, w =>
    if c.fails then some (none, w)
    else some (some (w.create path c.now).1, (w.create path c.now).2)
  | .close h, _, w => some ((), w.modifyHandle h ({ · with opened := false }))
  | .writeAt writer h data off, c, w => some (w.writeFile c writer h data off)
  | .readAt h len off, c, w => some (w.readFile c h len off, w)
  | .remove path, c, w =>
    if c.fails then some (false, w)
    else some ((w.names.lookup path).isSome, { w with names := w.names.erase path })
  | .readDir, c, w => some (c.listing.filter fun name => cfg.join name ∈ w.names, w)
  | .info path, c, w =>
    some (if c.fails then none else
      ((w.names.lookup path).bind (w.inodes[·]?)).map fun f =>
        ((f.file.bytes.length : ℤ), f.modTime / 10 ^ 9), w)
  | .restart, _, w => some ((), w.rebooted)

def machine (cfg : Config) : Machine Op Op.Res Choice World := ⟨exec cfg⟩

/-! ### Handles -/

abbrev Prog (α : Type) := Program Op Op.Res α

/-- One operation as a program. -/
abbrev op (o : Op) : Prog o.Res := Program.op o

def getHandle (path : String) : Prog (Option ℕ) := do
  match ← op (.loadHandle path) with
  | some h =>
    op (.touch h (← op .now))
    pure (some h)
  | none =>
    match ← op (.openFile path) with
    | none => pure none
    | some h =>
      op (.touch h (← op .now))
      match ← op (.loadOrStoreHandle path h) with
      | none => pure (some h)
      | some existing =>
        op (.close h)
        op (.touch existing (← op .now))
        pure (some existing)

def closeHandle (path : String) : Prog Unit := do
  match ← op (.takeHandle path) with
  | none => pure ()
  | some h =>
    op (.markClosed h)
    op (.close h)

/-- The steps that take a file away: its handle, its cached size, its coverage, the file. -/
def dropFile (path : String) : Prog Bool := do
  closeHandle path
  op (.deleteSize path)
  op (.deleteTail path)
  op (.remove path)

/-! ### Quota -/

structure WFile where
  path : String
  size : ℤ
  modTime : ℤ

section Methods

variable (cfg : Config)

/-- The files a listing names, with their sizes. -/
def scanFiles : List String → Prog (List WFile)
  | [] => pure []
  | name :: names =>
    if isWarmupName name then do
      let info ← op (.info (cfg.join name))
      let files ← scanFiles names
      pure (match info with
        | some (size, modTime) => ⟨cfg.join name, size, modTime⟩ :: files
        | none => files)
    else scanFiles names

/-- Drop the oldest files until the rest fits; what is left on disk is returned. -/
def evictFiles (needed : ℤ) : ℤ → List WFile → Prog ℤ
  | diskTotal, [] => pure diskTotal
  | diskTotal, f :: files =>
    if diskTotal + needed ≤ cfg.quota then pure diskTotal
    else do
      let _ ← dropFile f.path
      evictFiles needed (diskTotal - f.size) files

def enforceQuotaLocked (needed : ℤ) : Prog Unit := do
  let totalSize ← op .loadTotal
  if totalSize + needed ≤ cfg.quota then pure ()
  else do
    let files ← scanFiles cfg (← op .readDir)
    let diskTotal := (files.map (·.size)).sum
    op (.storeTotal diskTotal)
    if diskTotal + needed ≤ cfg.quota then pure ()
    else do
      let diskTotal ← evictFiles cfg needed diskTotal
        (files.insertionSort fun a b => a.modTime ≤ b.modTime)
      op (.storeTotal diskTotal)

/-! ### Head files -/

def headSize (path : String) : Prog ℤ := do
  match ← op (.loadSize path) with
  | some entry => pure entry.size
  | none =>
    match ← op (.stat path) with
    | .size n => pure n
    | _ => pure 0

/-- The file is already past its cap. -/
def overgrown (path : String) : Prog Bool := do
  match ← op (.loadSize path) with
  | some entry => pure (decide (cfg.fileSize < entry.size))
  | none =>
    match ← op (.stat path) with
    | .size n =>
      if cfg.fileSize < n then do
        op (.storeSize path ⟨n, ← op .now⟩)
        pure true
      else pure false
    | _ => pure false

/-- `processWrite` from `getHandle` on. -/
def writeChunk (path : String) (prevSize : ℤ) (data : List UInt8) (off : ℤ) : Prog Unit := do
  match ← getHandle path with
  | none => pure ()
  | some h =>
    if ← op (.isClosed h) then pure ()
    else do
      let (n, err) ← op (.writeAt .processWrite h data off)
      if err then pure ()
      else do
        op (.deleteMissing path)
        if prevSize < off + n then do
          op (.addTotal (off + n - prevSize))
          op (.storeSize path ⟨off + n, ← op .now⟩)
        else op (.storeSize path ⟨prevSize, ← op .now⟩)

/-- A new file; the quota is enforced before it is created. -/
def startFile (path : String) : Prog Bool := do
  op .lock
  enforceQuotaLocked cfg cfg.fileSize
  op .unlock
  op (.deleteMissing path)
  match ← op (.createFile path) with
  | none => pure false
  | some h =>
    op (.touch h (← op .now))
    op (.storeHandle path h)
    pure true

/-- A chunk that straddles the cap is cut there; one that starts at it is not. -/
def clip (data : List UInt8) (off : ℤ) : List UInt8 :=
  if off < cfg.fileSize ∧ cfg.fileSize < off + data.length then data.take (cfg.fileSize - off).toNat
  else data

def processWrite (hash : String) (fileID : ℤ) (data : List UInt8) (off : ℤ) : Prog Unit :=
  if cfg.fileSize < off then pure ()
  else do
    let path := cfg.filePath hash fileID
    if ← overgrown cfg path then pure ()
    else do
      let prevSize ← headSize path
      if prevSize < off then pure ()
      else do
        match ← op (.stat path) with
        | .notExist =>
          if ← startFile cfg path then writeChunk path prevSize (clip cfg data off) off
          else pure ()
        | _ => writeChunk path prevSize (clip cfg data off) off

/-- `GetAvailableRange` once the size has to be read from the disk; no answer is
the slice `hash[:8]` of its log line out of range. -/
def measure (hash : String) (path : String) : Prog (Option ℤ) := do
  match ← op (.stat path) with
  | .size n =>
    if cfg.fileSize + 16 * 1024 * 1024 < n then
      if hash.utf8ByteSize < 8 then pure none
      else do
        closeHandle path
        op (.deleteSize path)
        let _ ← op (.remove path)
        op (.storeMissing path (← op .now))
        pure (some 0)
    else do
      op (.storeSize path ⟨n, ← op .now⟩)
      pure (some n)
  | _ =>
    op (.storeMissing path (← op .now))
    pure (some 0)

/-- `GetAvailableRange` behind its negative cache. -/
def cachedRange (hash : String) (path : String) : Prog (Option ℤ) := do
  match ← op (.loadSize path) with
  | some entry =>
    if (← op .now) - entry.updatedAt < 10 * 10 ^ 9 then pure (some entry.size)
    else measure cfg hash path
  | none => measure cfg hash path

def getAvailableRange (hash : String) (fileID : ℤ) : Prog (Option ℤ) := do
  let path := cfg.filePath hash fileID
  match ← op (.loadMissing path) with
  | some since =>
    if (← op .now) - since < missingTTL then pure (some 0)
    else do
      op (.deleteMissing path)
      cachedRange cfg hash path
  | none => cachedRange cfg hash path

/-- `ReadAt` into a buffer of `len` bytes. -/
def readAt (hash : String) (fileID : ℤ) (len : ℕ) (off : ℤ) : Prog (Option (List UInt8 × Bool)) :=
  if cfg.fileSize < off then pure (some ([], false))
  else do
    match ← getHandle (cfg.filePath hash fileID) with
    | none => pure (some ([], false))
    | some h =>
      match ← getAvailableRange cfg hash fileID with
      | none => pure none
      | some availSize =>
        if availSize ≤ off then pure (some ([], false))
        else do
          let r ← op (.readAt h (min len (availSize - off).toNat) off)
          pure (some r)

/-! ### Tail files -/

/-- `WriteTail` from `getHandle` on. -/
def writeSpan (path : String) (tr : ℕ) (data : List UInt8) (relOffset : ℤ) : Prog Unit := do
  match ← getHandle path with
  | none => pure ()
  | some h =>
    if ← op (.isClosed h) then pure ()
    else do
      let (n, _) ← op (.writeAt .writeTail h data relOffset)
      if n = 0 then pure ()
      else do
        op (.storeSize path ⟨relOffset + n, ← op .now⟩)
        op (.addSpan tr relOffset (relOffset + n))

def startTail (path : String) : Prog Bool := do
  op (.deleteMissing path)
  match ← op (.createFile path) with
  | none => pure false
  | some h =>
    op (.touch h (← op .now))
    op (.storeHandle path h)
    pure true

/-- What of a chunk lies inside the tail window. -/
def clipTail (tailLen relOffset : ℤ) (data : List UInt8) : List UInt8 :=
  if tailLen < relOffset + data.length then data.take (tailLen - relOffset).toNat else data

def writeTail (hash : String) (fileID : ℤ) (data : List UInt8) (absoluteOffset fileSize : ℤ) :
    Prog Unit :=
  let path := cfg.tailPath hash fileID
  let tailStart := max 0 (fileSize - tailWarmupSize)
  let tailLen := fileSize - tailStart
  let relOffset := absoluteOffset - tailStart
  let data := clipTail tailLen relOffset data
  if absoluteOffset < tailStart ∨ tailLen ≤ relOffset ∨ data = [] then pure ()
  else do
    let tr ← op (.loadOrStoreTail path)
    if TailRange.complete (← op (.spans tr)) then pure ()
    else do
      match ← op (.stat path) with
      | .notExist => if ← startTail path then writeSpan path tr data relOffset else pure ()
      | _ => writeSpan path tr data relOffset

def readTail (hash : String) (fileID : ℤ) (len : ℕ) (absoluteOffset fileSize : ℤ) :
    Prog (List UInt8 × Bool) :=
  let path := cfg.tailPath hash fileID
  let tailStart := max 0 (fileSize - tailWarmupSize)
  let tailLen := fileSize - tailStart
  let relOffset := absoluteOffset - tailStart
  let readEnd := min (relOffset + len) tailLen
  if absoluteOffset < tailStart then pure ([], false)
  else do
    match ← op (.loadTail path) with
    | none => pure ([], false)
    | some tr =>
      if TailRange.covers (← op (.spans tr)) relOffset readEnd then do
        match ← getHandle path with
        | none => pure ([], false)
        | some h => op (.readAt h len relOffset)
      else pure ([], false)

/-! ### Removal -/

/-- The bytes of a file that goes are taken off the total. -/
def discount : Option ℤ → Prog Unit
  | some size => op (.addTotal (-size))
  | none => pure ()

def removeEntries (hash : String) : List String → Prog Unit
  | [] => pure ()
  | name :: names =>
    if hasPrefix name (hash ++ "-") && isWarmupName name then do
      discount ((← op (.info (cfg.join name))).map Prod.fst)
      let _ ← dropFile (cfg.join name)
      removeEntries hash names
    else removeEntries hash names

def removeHash (hash : String) : Prog Unit := do
  removeEntries cfg hash (← op .readDir)

def dropResidue (path : String) : Prog Unit :=
  if hasSuffix path warmupSuffix then do
    match ← op (.loadHandle path) with
    | some _ => pure ()
    | none =>
      match ← op (.stat path) with
      | .size n =>
        if headReadyFloor ≤ n then pure ()
        else do
          op (.deleteSize path)
          discount (if ← op (.remove path) then some n else none)
          op (.storeMissing path (← op .now))
      | _ => pure ()
  else pure ()

/-- `reapIdle` for one handle of the range. -/
def reapHandle (now max : ℤ) (path : String) (h : ℕ) : Prog Unit := do
  if now - (← op (.lastUsed h)) ≤ max then pure ()
  else do
    match ← op (.takeHandle path) with
    | none => pure ()
    | some actual =>
      if now - (← op (.lastUsed actual)) < max then op (.storeHandle path actual)
      else do
        op (.markClosed actual)
        op (.close actual)
        dropResidue path

def reapHandles (now max : ℤ) : List (String × ℕ) → Prog Unit
  | [] => pure ()
  | (path, h) :: rest => do
      reapHandle now max path h
      reapHandles now max rest

def reapIdle (max : ℤ) : Prog Unit := do
  let now ← op .now
  reapHandles now max (← op .rangeHandles)

/-- `scanExisting`: the bytes of the head files that stay. -/
def scanExisting (dropHeads : Bool) : List String → Prog ℤ
  | [] => pure 0
  | name :: names =>
    if hasSuffix name tailSuffix || (dropHeads && hasSuffix name warmupSuffix) then do
      let _ ← op (.remove (cfg.join name))
      scanExisting dropHeads names
    else if hasSuffix name warmupSuffix then do
      match ← op (.info (cfg.join name)) with
      | none => scanExisting dropHeads names
      | some (size, _) =>
        if size < headReadyFloor then do
          let _ ← op (.remove (cfg.join name))
          scanExisting dropHeads names
        else do
          let total ← scanExisting dropHeads names
          pure (size + total)
    else scanExisting dropHeads names

/-- `InitDiskWarmup` in a new process. -/
def initDiskWarmup (dropHeads : Bool) : Prog Unit := do
  op .restart
  op (.storeTotal (← scanExisting cfg dropHeads (← op .readDir)))

/-! ### Calls -/

inductive Call
  | processWrite (hash : String) (fileID : ℤ) (data : List UInt8) (off : ℤ)
  | getAvailableRange (hash : String) (fileID : ℤ)
  | readAt (hash : String) (fileID : ℤ) (len : ℕ) (off : ℤ)
  | writeTail (hash : String) (fileID : ℤ) (data : List UInt8) (absoluteOffset fileSize : ℤ)
  | readTail (hash : String) (fileID : ℤ) (len : ℕ) (absoluteOffset fileSize : ℤ)
  | removeHash (hash : String)
  | reapIdle (max : ℤ)
  | enforceQuota (needed : ℤ)
  | initDiskWarmup (dropHeads : Bool)

inductive Answer
  | done
  | range (n : ℤ)
  | bytes (data : List UInt8) (err : Bool)
  | panics
  deriving DecidableEq, Repr

def Call.program : Call → Prog Answer
  | .processWrite hash fileID data off => do
      Warmup.processWrite cfg hash fileID data off
      pure .done
  | .getAvailableRange hash fileID => do
      match ← Warmup.getAvailableRange cfg hash fileID with
      | some n => pure (.range n)
      | none => pure .panics
  | .readAt hash fileID len off => do
      match ← Warmup.readAt cfg hash fileID len off with
      | some (data, err) => pure (.bytes data err)
      | none => pure .panics
  | .writeTail hash fileID data absoluteOffset fileSize => do
      Warmup.writeTail cfg hash fileID data absoluteOffset fileSize
      pure .done
  | .readTail hash fileID len absoluteOffset fileSize => do
      let (data, err) ← Warmup.readTail cfg hash fileID len absoluteOffset fileSize
      pure (.bytes data err)
  | .removeHash hash => do
      Warmup.removeHash cfg hash
      pure .done
  | .reapIdle max => do
      Warmup.reapIdle max
      pure .done
  | .enforceQuota needed => do
      op .lock
      enforceQuotaLocked cfg needed
      op .unlock
      pure .done
  | .initDiskWarmup dropHeads => do
      Warmup.initDiskWarmup cfg dropHeads
      pure .done

/-- A call that runs to its end while nothing else runs. -/
def Serves (w : World) (l : Call × Answer) (w' : World) : Prop :=
  Steps (machine cfg) (fun _ _ _ => True) (l.1.program cfg) w (.ret l.2) w'

end Methods

end Tiramisu.Warmup
