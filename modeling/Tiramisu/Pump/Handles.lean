import Mathlib
import Tiramisu.Lib.Parallel

/-!
# Handles, shared pumps and the master semaphore

Every open file is an `MkvHandle`.  A handle that streams is served by a pump,
a goroutine that holds one token of `masterDataSemaphore`; handles of one path
share the pump that `activePumps` registers for it.  Attaching is serialized by
`pumpCreationMu`, everything else (a pump's exit, `Release`, `media.stop`, the
grace timer) is not, so the code is given as programs of atomic operations.

Beside the source's own variables a state records who did what: which handle
each count of a `refCount` is for, which pumps run, who holds which token.
-/

namespace Tiramisu.Pump

open Protocol Function

scoped instance two_neZero : NeZero 2 := ⟨by decide⟩

variable {n : ℕ}

/-- `MkvHandle`, as far as pumps are concerned.  `closer` is the party that
runs its `Release` and `released` says that it is through; `refs ps` is what
the handle has added to the `refCount` of `ps`. -/
structure Handle where
  hasSlot : Bool
  pumpState : Option ℕ
  mu : Option ℕ
  closer : Option ℕ
  released : Bool
  refs : ℕ → ℤ

/-- `NativePumpState` with the handle whose goroutine pumps.  `owner` is the
party that is about to launch the goroutine, and then the goroutine itself. -/
structure PumpState (n : ℕ) where
  path : String
  refCount : ℤ
  cancelled : Bool
  creator : Fin n
  owner : Option ℕ

/-- `tokens` is `len(masterDataSemaphore)` and `capacity` its capacity;
`creation` says which party holds `pumpCreationMu`, and for which handle.

Pumps are `fresh` until their goroutine is launched, `running` until it gives
its token back and `leaving` until it has cleared its creator's flag.
`starting` are the parties with a token for a pump not yet launched,
`temporary` those with a token for one read. -/
structure World (n : ℕ) where
  handle : Fin n → Handle
  pump : ℕ → PumpState n
  active : String → Option ℕ
  tokens : ℕ
  capacity : ℕ
  creation : Option (ℕ × Fin n)
  born : Finset ℕ
  fresh : Finset ℕ
  running : Finset ℕ
  leaving : Finset ℕ
  starting : Finset ℕ
  temporary : Finset ℕ

namespace World

def setHandle (w : World n) (h : Fin n) (x : Handle) : World n :=
  { w with handle := update w.handle h x }

def setPump (w : World n) (ps : ℕ) (x : PumpState n) : World n :=
  { w with pump := update w.pump ps x }

def setActive (w : World n) (path : String) (entry : Option ℕ) : World n :=
  { w with active := update w.active path entry }

/-- A new pump state with a `refCount` of one, for the handle that makes it. -/
def addPump (w : World n) (i : ℕ) (h : Fin n) (path : String) (ps : ℕ) : World n :=
  { (w.setPump ps ⟨path, 1, false, h, some i⟩).setHandle h
      { w.handle h with
        refs := update (w.handle h).refs ps ((w.handle h).refs ps + 1) } with
    born := insert ps w.born
    fresh := insert ps w.fresh }

section

variable (w : World n)

include w

@[simp, grind =] lemma handle_setHandle (h y : Fin n) (x : Handle) :
    (w.setHandle h x).handle y = if y = h then x else w.handle y :=
  update_apply ..

@[simp, grind =] lemma pump_setPump (ps qs : ℕ) (x : PumpState n) :
    (w.setPump ps x).pump qs = if qs = ps then x else w.pump qs :=
  update_apply ..

@[simp, grind =] lemma active_setActive (p q : String) (e : Option ℕ) :
    (w.setActive p e).active q = if q = p then e else w.active q :=
  update_apply ..

@[simp, grind =] lemma pump_setHandle (h : Fin n) (x : Handle) (qs : ℕ) :
    (w.setHandle h x).pump qs = w.pump qs := rfl

@[simp, grind =] lemma handle_setPump (ps : ℕ) (x : PumpState n) (y : Fin n) :
    (w.setPump ps x).handle y = w.handle y := rfl

@[simp] lemma pump_addPump (i : ℕ) (h : Fin n) (path : String) (ps qs : ℕ) :
    (w.addPump i h path ps).pump qs = if qs = ps then ⟨path, 1, false, h, some i⟩ else w.pump qs :=
  update_apply ..

@[simp] lemma handle_addPump (i : ℕ) (h y : Fin n) (path : String) (ps : ℕ) :
    (w.addPump i h path ps).handle y
      = { w.handle y with
          refs := update (w.handle y).refs ps
            ((w.handle y).refs ps + if y = h then 1 else 0) } := by
  by_cases hy : y = h
  · simp [addPump, hy]
  · simp [addPump, hy]

end

end World

inductive Caller
  | start
  | read
  deriving DecidableEq

/-- The atomic operations.  `storeSlot`, `claimSlot` and `clearSlot` are the
stores to `hasSlot` of an attach, of a creation and of a pump's exit;
`resolveSlot` is the load at `pumpSlotResolved`. -/
inductive Op (n : ℕ)
  | loadSlot (h : Fin n)
  | storeSlot (h : Fin n)
  | claimSlot (caller : Caller) (h : Fin n)
  | clearSlot (h : Fin n) (ps : ℕ)
  | resolveSlot (h : Fin n)
  | canTakeSlot
  | playbackConfirmed
  | lockCreation (caller : Caller) (h : Fin n)
  | unlockCreation
  | lockHandle (h : Fin n)
  | unlockHandle (h : Fin n)
  | loadActive (path : String)
  | storeActive (path : String) (ps : ℕ)
  | deleteActive (path : String)
  | addRef (h : Fin n) (ps : ℕ)
  | dropRef (h : Fin n) (ps : ℕ)
  | loadRef (ps : ℕ)
  | loadState (h : Fin n)
  | storeState (h : Fin n) (ps : ℕ)
  | tryAcquire
  | giveBack
  | acquireTemporary
  | releaseTemporary
  | newPump (h : Fin n) (path : String)
  | launch (ps : ℕ)
  | nextPump
  | pumpBody (ps : ℕ)
  | returnToken (ps : ℕ)
  | endPump (ps : ℕ)
  | closeHandle (h : Fin n)
  | endRelease (h : Fin n)
  | cancel (ps : ℕ)

abbrev Op.Res : Op n → Type
  | loadSlot _ | resolveSlot _ | canTakeSlot | playbackConfirmed => Bool
  | tryAcquire | acquireTemporary => Bool
  | loadActive _ | loadState _ => Option ℕ
  | addRef _ _ | dropRef _ _ | loadRef _ => ℤ
  | newPump _ _ => ℕ
  | nextPump => ℕ × Fin n × String
  | _ => Unit

/-- What the surroundings decide: the answer of the playback registry and of
the strategic reserve (or whether a read keeps waiting for a token), and the
address of a new pump state (or which launched goroutine starts). -/
structure Choice where
  decision : Bool
  id : ℕ
  deriving DecidableEq

open World in
/-- One operation of party `i`. -/
def exec (i : ℕ) : (o : Op n) → Choice → World n → Option (o.Res × World n)
  | .loadSlot h, _, w => some ((w.handle h).hasSlot, w)
  | .storeSlot h, _, w => some ((), w.setHandle h { w.handle h with hasSlot := true })
  | .claimSlot _ h, _, w => some ((), w.setHandle h { w.handle h with hasSlot := true })
  | .clearSlot h ps, _, w =>
    some ((), { w.setHandle h { w.handle h with hasSlot := false } with
      leaving := w.leaving.erase ps })
  | .resolveSlot h, _, w => some ((w.handle h).hasSlot, w)
  | .canTakeSlot, c, w => some (c.decision, w)
  | .playbackConfirmed, c, w => some (c.decision, w)
  | .lockCreation _ h, _, w =>
    if w.creation = none then some ((), { w with creation := some (i, h) }) else none
  | .unlockCreation, _, w => some ((), { w with creation := none })
  | .lockHandle h, _, w =>
    if (w.handle h).mu = none then some ((), w.setHandle h { w.handle h with mu := some i })
    else none
  | .unlockHandle h, _, w => some ((), w.setHandle h { w.handle h with mu := none })
  | .loadActive path, _, w => some (w.active path, w)
  | .storeActive path ps, _, w => some ((), w.setActive path (some ps))
  | .deleteActive path, _, w => some ((), w.setActive path none)
  | .addRef h ps, _, w =>
    some ((w.pump ps).refCount + 1,
      (w.setPump ps { w.pump ps with refCount := (w.pump ps).refCount + 1 }).setHandle h
        { w.handle h with
          refs := update (w.handle h).refs ps ((w.handle h).refs ps + 1) })
  | .dropRef h ps, _, w =>
    some ((w.pump ps).refCount - 1,
      (w.setPump ps { w.pump ps with refCount := (w.pump ps).refCount - 1 }).setHandle h
        { w.handle h with
          refs := update (w.handle h).refs ps ((w.handle h).refs ps - 1) })
  | .loadRef ps, _, w => some ((w.pump ps).refCount, w)
  | .loadState h, _, w => some ((w.handle h).pumpState, w)
  | .storeState h ps, _, w => some ((), w.setHandle h { w.handle h with pumpState := some ps })
  | .tryAcquire, _, w =>
    if w.tokens < w.capacity then
      some (true, { w with tokens := w.tokens + 1, starting := insert i w.starting })
    else some (false, w)
  | .giveBack, _, w =>
    if 0 < w.tokens then
      some ((), { w with tokens := w.tokens - 1, starting := w.starting.erase i })
    else none
  | .acquireTemporary, c, w =>
    -- a read gives up when its caller goes away or after thirty seconds
    if c.decision then
      if w.tokens < w.capacity then
        some (true, { w with tokens := w.tokens + 1, temporary := insert i w.temporary })
      else none
    else some (false, w)
  | .releaseTemporary, _, w =>
    if 0 < w.tokens then
      some ((), { w with tokens := w.tokens - 1, temporary := w.temporary.erase i })
    else none
  | .newPump h path, c, w =>
    if c.id ∈ w.born then none
    else some (c.id, w.addPump i h path c.id)
  | .launch ps, _, w =>
    some ((), { w.setPump ps { w.pump ps with owner := none } with
      fresh := w.fresh.erase ps
      running := insert ps w.running
      starting := w.starting.erase i })
  | .nextPump, c, w =>
    if c.id ∈ w.running ∧ (w.pump c.id).owner = none then
      some ((c.id, (w.pump c.id).creator, (w.pump c.id).path),
        w.setPump c.id { w.pump c.id with owner := some i })
    else none
  -- end of file, an idle timeout, a read error or a cancelled context: at any time
  | .pumpBody _, _, w => some ((), w)
  | .returnToken ps, _, w =>
    some ((), { w with
      tokens := w.tokens - 1
      running := w.running.erase ps
      leaving := insert ps w.leaving })
  | .endPump ps, _, w => some ((), { w with running := w.running.erase ps })
  | .closeHandle h, _, w => some ((), w.setHandle h { w.handle h with closer := some i })
  | .endRelease h, _, w => some ((), w.setHandle h { w.handle h with released := true })
  | .cancel ps, _, w => some ((), w.setPump ps { w.pump ps with cancelled := true })

def machine (i : ℕ) : Machine (Op n) Op.Res Choice (World n) := ⟨exec i⟩

abbrev Prog (n : ℕ) := Program (Op n) Op.Res

abbrev op (o : Op n) : Prog n o.Res := Program.op o

/-! ### The programs -/

/-- The branch of `startNativePump` that joins a registered pump; the caller
holds `pumpCreationMu` and no longer looks at `hasSlot`. -/
def joinPump (h : Fin n) (ps : ℕ) : Prog n Unit := do
  let _ ← op (.addRef h ps)
  op (.lockHandle h)
  op (.storeSlot h)
  op (.storeState h ps)
  op (.unlockHandle h)
  op .unlockCreation

def attachToExistingPump (h : Fin n) (ps : ℕ) : Prog n Bool := do
  op (.lockHandle h)
  if ← op (.loadSlot h) then
    op (.unlockHandle h)
    return false
  else
    op (.storeSlot h)
    op (.storeState h ps)
    op (.unlockHandle h)
    let _ ← op (.addRef h ps)
    return true

/-- What `startNativePump` and the upgrade in `readInner` do with a token. -/
def createPump (caller : Caller) (h : Fin n) (path : String) : Prog n ℕ := do
  op (.claimSlot caller h)
  let ps ← op (.newPump h path)
  op (.storeActive path ps)
  op (.storeState h ps)
  return ps

/-- The second half of `startNativePump`, with a token in hand. -/
def startWithToken (h : Fin n) (path : String) : Prog n Unit := do
  op (.lockCreation .start h)
  match ← op (.loadActive path) with
  | some ps =>
    op .giveBack
    joinPump h ps
  | none =>
    let ps ← createPump .start h path
    op .unlockCreation
    op (.launch ps)

def startUnderLock (h : Fin n) (path : String) : Prog n Unit := do
  op (.lockCreation .start h)
  match ← op (.loadActive path) with
  | some ps => joinPump h ps
  | none =>
    op .unlockCreation
    if ← op .tryAcquire then startWithToken h path else return ()

def startNativePump (h : Fin n) (path : String) : Prog n Unit := do
  if ← op (.loadSlot h) then return ()
  else if ← op .canTakeSlot then startUnderLock h path
  else return ()

/-- The upgrade of a confirmed playback to a pump of its own. -/
def upgrade (h : Fin n) (path : String) : Prog n Unit := do
  if ← op .playbackConfirmed then
    if ← op .tryAcquire then
      let ps ← createPump .read h path
      op (.launch ps)
      op .unlockCreation
    else op .unlockCreation
  else op .unlockCreation

def upgradeUnlessAttached (h : Fin n) (path : String) : Prog n Unit := do
  if ← op (.loadSlot h) then op .unlockCreation else upgrade h path

def attachOrUpgrade (h : Fin n) (path : String) : Prog n Unit := do
  op (.lockCreation .read h)
  if ← op (.loadSlot h) then op .unlockCreation
  else
    match ← op (.loadActive path) with
    | some ps =>
      let _ ← attachToExistingPump h ps
      upgradeUnlessAttached h path
    | none => upgradeUnlessAttached h path

/-- A read without a slot takes a token for its own duration. -/
def temporarySlot (h : Fin n) : Prog n Unit := do
  if ← op (.resolveSlot h) then return ()
  else if ← op .acquireTemporary then op .releaseTemporary
  else return ()

/-- The prefetches that `readInner` starts: a token for one fetch, or none. -/
def prefetch : Prog n Unit := do
  if ← op .acquireTemporary then op .releaseTemporary else return ()

/-- `readInner` from its first look at `hasSlot` on. -/
def readInner (h : Fin n) (path : String) : Prog n Unit := do
  if ← op (.loadSlot h) then temporarySlot h
  else
    attachOrUpgrade h path
    temporarySlot h

/-- The deferred return of the master slot. -/
def returnSlot (ps : ℕ) (h : Fin n) : Prog n Unit := do
  if ← op (.loadSlot h) then
    op (.returnToken ps)
    op (.clearSlot h ps)
  else op (.endPump ps)

/-- A pump goroutine from its launch to its end. -/
def nativePump : Prog n Unit := do
  let (ps, h, path) ← op .nextPump
  op (.pumpBody ps)
  op (.lockHandle h)
  if (← op (.loadActive path)) = some ps then
    op (.deleteActive path)
    op (.unlockHandle h)
    returnSlot ps h
  else
    op (.unlockHandle h)
    returnSlot ps h

/-- `Release`; the grace timer it may set is a party of its own. -/
def release (h : Fin n) (path : String) : Prog n Unit := do
  op (.closeHandle h)
  match ← op (.loadActive path) with
  | none => op (.endRelease h)
  | some ps =>
    if ← op (.loadSlot h) then
      if (← op (.loadState h)) = some ps then
        let _ ← op (.dropRef h ps)
        op (.endRelease h)
      else op (.endRelease h)
    else op (.endRelease h)

/-- `media.stop`, an unlink and the cleanup sweep cancel and forget a pump. -/
def terminatePump (path : String) : Prog n Unit := do
  match ← op (.loadActive path) with
  | none => return ()
  | some ps =>
    op (.cancel ps)
    op (.deleteActive path)

def graceTimer (path : String) : Prog n Unit := do
  match ← op (.loadActive path) with
  | none => return ()
  | some ps =>
    if (← op (.loadRef ps)) ≤ 0 then
      op (.cancel ps)
      op (.deleteActive path)
    else return ()

/-- What may run beside each other, in any number. -/
inductive Goroutine (n : ℕ)
  | start (h : Fin n)
  | read (h : Fin n)
  | prefetch
  | pump
  | release (h : Fin n)
  | stop (path : String)
  | grace (path : String)

def Goroutine.program (pathOf : Fin n → String) : Goroutine n → Prog n Unit
  | start h => startNativePump h (pathOf h)
  | read h => readInner h (pathOf h)
  | prefetch => Pump.prefetch
  | pump => nativePump
  | release h => Pump.release h (pathOf h)
  | stop path => terminatePump path
  | grace path => graceTimer path

def pumpSystem (n : ℕ) : System (Op n) Op.Res Choice (World n) where
  machine := machine
  leave _ w := w

def Handle.opened : Handle := ⟨false, none, none, none, false, fun _ => 0⟩

/-- Every handle opened, nothing started. -/
def World.opened [NeZero n] (capacity : ℕ) : World n where
  handle _ := Handle.opened
  pump _ := ⟨"", 0, false, 0, none⟩
  active _ := none
  tokens := 0
  capacity := capacity
  creation := none
  born := ∅
  fresh := ∅
  running := ∅
  leaving := ∅
  starting := ∅
  temporary := ∅

def together [NeZero n] (pathOf : Fin n → String) (capacity : ℕ) (gs : List (Goroutine n)) :
    Config (Op n) Op.Res Unit (World n) :=
  ⟨gs.map (Goroutine.program pathOf), World.opened capacity⟩

end Tiramisu.Pump
