import Tiramisu.Go.Maps
import Tiramisu.Lib.KeyedLocks

/-!
# The per-key locks of the library and of the file handles

`keyLocks` counts in a map beside the table of its locks, `LockManager` in the
entry itself.  Both make the locks of a key on demand and drop them with the
last call on the key, and both refine the keyed locks of the library `Keyed`:
a call that has taken a reference finds the same lock as every other.
-/

namespace Tiramisu.Library

open Keyed Transition List Option Function
open Go

/-! ### keyLocks -/

/-- Where a call of `Lock`, `RLock` or `TryLock` stands with the function it
returns: blocked in the mutex, before the answer of `TryLock`, holding the key,
between `Unlock` (or a refusal) and the end of `done`, or past it. -/
inductive CallPlace
  | locking (key : String) (mode : Mode) (obj : ℕ)
  | trying (key : String) (obj : ℕ)
  | holding (key : String) (mode : Mode) (obj : ℕ)
  | releasing (key : String) (obj : ℕ)
  | returned
  deriving DecidableEq, Repr

namespace CallPlace

/-- The call holds the key or waits for it. -/
def HoldsOrWaits (key : String) : CallPlace → Prop
  | .locking k _ _ | .holding k _ _ => k = key
  | _ => False

/-- The call is inside `TryLock` or inside the release of the key. -/
def Passing (key : String) : CallPlace → Prop
  | .trying k _ | .releasing k _ => k = key
  | _ => False

end CallPlace

/-- The mutexes are numbered in the order of their making; a mutex that has left
the map is not reached any more. -/
structure KeyLocks where
  locks : GoMap String ℕ
  waiters : GoMap String ℤ
  mutexes : List RWLock
  calls : List CallPlace

inductive KeyLockLabel
  | lock (key : String)
  | rLock (key : String)
  | tryLock (key : String)
  | granted (i : ℕ)
  | refused (i : ℕ)
  | unlock (i : ℕ)
  | done (i : ℕ)
  deriving DecidableEq, Repr

namespace KeyLocks

def newKeyLocks : KeyLocks := ⟨∅, ∅, [], []⟩

def acquire (k : KeyLocks) (key : String) : ℕ × KeyLocks :=
  let counted := k.waiters.insert key ((k.waiters.lookup key).getD 0 + 1)
  match k.locks.lookup key with
  | some obj => (obj, { k with waiters := counted })
  | none =>
    (k.mutexes.length, { k with
      locks := k.locks.insert key k.mutexes.length
      waiters := counted
      mutexes := k.mutexes ++ [.free] })

def done (k : KeyLocks) (key : String) : KeyLocks :=
  let left := (k.waiters.lookup key).getD 0 - 1
  if left ≤ 0 then
    { k with
      waiters := k.waiters.erase key
      locks := k.locks.erase key }
  else { k with waiters := k.waiters.insert key left }

/-- A call takes its reference and goes on to its mutex. -/
def enter (k : KeyLocks) (key : String) (place : ℕ → CallPlace) : KeyLocks :=
  let (obj, k) := k.acquire key
  { k with calls := k.calls ++ [place obj] }

/-- The mutex lets the call in, if it can. -/
def grant (k : KeyLocks) (i : ℕ) (key : String) (mode : Mode) (obj : ℕ) : Option KeyLocks :=
  match k.mutexes[obj]? with
  | some l =>
    if l.admits mode then
      some { k with
        mutexes := k.mutexes.set obj (l.take mode)
        calls := k.calls.set i (.holding key mode obj) }
    else none
  | none => none

/-- One critical section or one step of a mutex.  A `TryLock` may be refused
whatever the mutex holds: it also gives up on a mutex in passing. -/
def step (k : KeyLocks) : KeyLockLabel → Option KeyLocks
  | .lock key => some (k.enter key (.locking key .exclusive))
  | .rLock key => some (k.enter key (.locking key .shared))
  | .tryLock key => some (k.enter key (.trying key))
  | .granted i =>
    match k.calls[i]? with
    | some (.locking key mode obj) => k.grant i key mode obj
    | some (.trying key obj) => k.grant i key .exclusive obj
    | _ => none
  | .refused i =>
    match k.calls[i]? with
    | some (.trying key obj) => some { k with calls := k.calls.set i (.releasing key obj) }
    | _ => none
  | .unlock i =>
    match k.calls[i]? with
    | some (.holding key mode obj) =>
      (k.mutexes[obj]?).map fun l => { k with
        mutexes := k.mutexes.set obj (l.drop mode)
        calls := k.calls.set i (.releasing key obj) }
    | _ => none
  | .done i =>
    match k.calls[i]? with
    | some (.releasing key _) => some { k.done key with calls := k.calls.set i .returned }
    | _ => none

def Step (k : KeyLocks) (l : KeyLockLabel) (k' : KeyLocks) : Prop := k.step l = some k'

end KeyLocks

/-- A call of `TryLock` waits like any other that may give up. -/
def CallPlace.client : CallPlace → Place String
  | .locking key mode obj => .waiting key mode obj
  | .trying key obj => .waiting key .exclusive obj
  | .holding key mode obj => .holding key mode obj
  | .releasing key obj => .leaving key obj
  | .returned => .gone

/-- The maps of the keyed locks and what they stand for. -/
structure KeyLocks.Refines (k : KeyLocks) (a : State String) : Prop where
  table : ∀ key, a.table key = k.locks.lookup key
  count : ∀ key, (a.count key : ℤ) = (k.waiters.lookup key).getD 0
  heap : a.heap = k.mutexes
  clients : a.clients = k.calls.map CallPlace.client

namespace KeyLocks

variable {k k' : KeyLocks} {a : State String} {i obj : ℕ} {key : String} {mode : Mode}

section

variable (h : k.Refines a)

include h

lemma Refines.client {place : CallPlace} (hi : k.calls[i]? = some place) :
    a.clients[i]? = some place.client := by
  rw [h.clients, getElem?_map, hi]
  rfl

lemma Refines.count_update {n : ℕ} {o : Option ℤ} (hn : (n : ℤ) = o.getD 0) (key' : String) :
    (update a.count key n key' : ℤ)
      = (update (fun l => k.waiters.lookup l) key o key').getD 0 := by
  by_cases hk : key' = key
  · rw [hk, update_self, update_self, hn]
  · rw [update_of_ne hk, update_of_ne hk]
    exact h.count key'

lemma refines_enter {place : ℕ → CallPlace}
    (hplace : ∀ obj, (place obj).client = .waiting key mode obj) :
    (k.enter key place).Refines (a.arrive key mode) := by
  have hcount : ∀ key', (update a.count key (a.count key + 1) key' : ℤ)
      = ((k.waiters.insert key ((k.waiters.lookup key).getD 0 + 1)).lookup key').getD 0 := by
    intro key'
    rw [Writes.lookup_insert]
    apply h.count_update
    rw [getD_some, ← h.count]
    rfl
  unfold enter acquire State.arrive
  rw [h.table key]
  cases htable : k.locks.lookup key with
  | some obj =>
    refine ⟨h.table, hcount, h.heap, ?_⟩
    simp [h.clients, hplace]
  | none =>
    refine ⟨fun key' => ?_, hcount, by simp [h.heap], ?_⟩
    · rw [Writes.lookup_insert, ← funext h.table, h.heap]
    · simp [h.clients, h.heap, hplace]

lemma refines_grant (hi : a.clients[i]? = some (.waiting key mode obj))
    (hgrant : k.grant i key mode obj = some k') :
    ∃ a', State.Step a (.grant i) a' ∧ k'.Refines a' := by
  unfold grant at hgrant
  cases hl : k.mutexes[obj]? with
  | none => simp [hl] at hgrant
  | some l =>
    simp only [hl] at hgrant
    split_ifs at hgrant with hadmits
    cases hgrant
    refine ⟨_, .grant hi (h.heap ▸ hl) hadmits, h.table, h.count, ?_, ?_⟩
    · simp [h.heap]
    · simp [h.clients, map_set, CallPlace.client]

lemma refines_done :
    ({ k.done key with calls := k.calls.set i .returned } : KeyLocks).Refines (a.leave i key) := by
  have hclients : a.clients.set i .gone = (k.calls.set i .returned).map CallPlace.client := by
    simp [h.clients, map_set, CallPlace.client]
  have hcount := h.count key
  unfold done State.leave
  by_cases hlast : a.count key ≤ 1
  · have hleft : (k.waiters.lookup key).getD 0 - 1 ≤ 0 := by omega
    simp only [if_pos hlast, if_pos hleft]
    refine ⟨fun key' => ?_, fun key' => ?_, h.heap, hclients⟩
    · rw [Writes.lookup_erase, ← funext h.table]
    · dsimp only
      rw [Writes.lookup_erase]
      exact h.count_update rfl key'
  · have hleft : ¬ (k.waiters.lookup key).getD 0 - 1 ≤ 0 := by omega
    simp only [if_neg hlast, if_neg hleft]
    refine ⟨h.table, fun key' => ?_, h.heap, hclients⟩
    dsimp only
    rw [Writes.lookup_insert]
    apply h.count_update
    rw [getD_some]
    omega

/-- Every step of the code is a step of the keyed locks. -/
lemma refines_step {l : KeyLockLabel} (hstep : k.Step l k') :
    ∃ l' a', State.Step a l' a' ∧ k'.Refines a' := by
  unfold Step step at hstep
  cases l with
  | rLock key =>
    cases hstep
    exact ⟨_, _, .arrive a key .shared, refines_enter h fun _ => rfl⟩
  | lock key | tryLock key =>
    cases hstep
    exact ⟨_, _, .arrive a key .exclusive, refines_enter h fun _ => rfl⟩
  | granted i =>
    dsimp only at hstep
    split at hstep
    · rename_i hi
      exact ⟨_, refines_grant h (h.client hi) hstep⟩
    · rename_i hi
      exact ⟨_, refines_grant h (h.client hi) hstep⟩
    · cases hstep
  | refused i =>
    dsimp only at hstep
    split at hstep <;> cases hstep
    rename_i hi
    refine ⟨_, _, .giveUp (h.client hi), h.table, h.count, h.heap, ?_⟩
    simp [h.clients, map_set, CallPlace.client]
  | unlock i =>
    dsimp only at hstep
    split at hstep
    · rename_i hi
      obtain ⟨l, hl, rfl⟩ := map_eq_some_iff.mp hstep
      refine ⟨_, _, .unlock (h.client hi) (h.heap ▸ hl), h.table, h.count, ?_, ?_⟩
      · simp [h.heap]
      · simp [h.clients, map_set, CallPlace.client]
    · cases hstep
  | done i =>
    dsimp only at hstep
    split at hstep <;> cases hstep
    rename_i hi
    exact ⟨_, _, .leave (h.client hi), refines_done h⟩

end

lemma refines_new : newKeyLocks.Refines State.start :=
  ⟨fun _ => rfl, fun _ => rfl, rfl, rfl⟩

lemma ref_client_iff {place : CallPlace} :
    (∃ obj, place.client.ref = some (key, obj)) ↔
      place.HoldsOrWaits key ∨ place.Passing key := by
  cases place <;> simp [CallPlace.client, Place.ref, CallPlace.HoldsOrWaits, CallPlace.Passing]

lemma Refines.lookup_iff (h : k.Refines a) (ha : Sound a) :
    (k.locks.lookup key).isSome = true ↔
      ∃ place ∈ k.calls, place.HoldsOrWaits key ∨ place.Passing key := by
  rw [← h.table, ha.table_iff, h.clients]
  simp only [List.mem_map, exists_exists_and_eq_and, ref_client_iff]

lemma sound_of_run {ls : List KeyLockLabel} (hrun : Run Step newKeyLocks ls k) :
    ∃ a, k.Refines a ∧ Sound a :=
  exists_sound_of_run (fun _ _ _ _ _ h hstep => refines_step h hstep) refines_new hrun

end KeyLocks

/-! ### LockManager -/

/-- A mutex with its usage counter. -/
structure LockEntry where
  locked : Bool
  refCount : ℤ
  deriving DecidableEq, Repr

/-- The places of the calls are those of the keyed locks, all exclusive. -/
structure LockManager where
  locks : GoMap String ℕ
  entries : List LockEntry
  calls : List (Place String)

inductive ManagerLabel
  | lock (path : String)
  | granted (i : ℕ)
  | unlock (i : ℕ)
  | release (i : ℕ)
  deriving DecidableEq, Repr

namespace LockManager

def newLockManager : LockManager := ⟨∅, [], []⟩

def step (m : LockManager) : ManagerLabel → Option LockManager
  | .lock path =>
    match m.locks.lookup path with
    | some obj =>
      (m.entries[obj]?).map fun e => { m with
        entries := m.entries.set obj { e with refCount := e.refCount + 1 }
        calls := m.calls ++ [.waiting path .exclusive obj] }
    | none => some
        { locks := m.locks.insert path m.entries.length
          entries := m.entries ++ [⟨false, 1⟩]
          calls := m.calls ++ [.waiting path .exclusive m.entries.length] }
  | .granted i =>
    match m.calls[i]? with
    | some (.waiting path .exclusive obj) =>
      match m.entries[obj]? with
      | some e =>
        if e.locked then none else
        some { m with
          entries := m.entries.set obj { e with locked := true }
          calls := m.calls.set i (.holding path .exclusive obj) }
      | none => none
    | _ => none
  | .unlock i =>
    match m.calls[i]? with
    | some (.holding path .exclusive obj) =>
      (m.entries[obj]?).map fun e => { m with
        entries := m.entries.set obj { e with locked := false }
        calls := m.calls.set i (.leaving path obj) }
    | _ => none
  | .release i =>
    match m.calls[i]? with
    | some (.leaving path obj) =>
      (m.entries[obj]?).map fun e =>
        { locks := if e.refCount - 1 ≤ (0 : ℤ) then m.locks.erase path else m.locks
          entries := m.entries.set obj { e with refCount := e.refCount - 1 }
          calls := m.calls.set i .gone }
    | _ => none

def Step (m : LockManager) (l : ManagerLabel) (m' : LockManager) : Prop := m.step l = some m'

/-- The call holds the path or waits for it. -/
def HoldsOrWaits (path : String) : Place String → Prop
  | .waiting p _ _ | .holding p _ _ => p = path
  | _ => False

/-- The call is inside the release of the path. -/
def Passing (path : String) : Place String → Prop
  | .leaving p _ => p = path
  | _ => False

/-- The counter of an entry in the table counts the clients of its path. -/
structure Refines (m : LockManager) (a : State String) : Prop where
  table : ∀ path, a.table path = m.locks.lookup path
  count : ∀ (path : String) (obj : ℕ) (e : LockEntry), a.table path = some obj →
    m.entries[obj]? = some e → e.refCount = a.count path
  heap : a.heap = m.entries.map fun e => ⟨e.locked, 0⟩
  clients : a.clients = m.calls

variable {m m' : LockManager} {a : State String} {i obj : ℕ} {path : String} {e e' : LockEntry}

section

variable (h : m.Refines a)

include h

lemma Refines.lock_object (he : m.entries[obj]? = some e) : a.heap[obj]? = some ⟨e.locked, 0⟩ := by
  rw [h.heap, getElem?_map, he]
  rfl

/-- An entry changes without its mutex. -/
lemma Refines.heap_set (he : m.entries[obj]? = some e) (hlocked : e'.locked = e.locked) :
    a.heap = (m.entries.set obj e').map fun e => ⟨e.locked, 0⟩ := by
  obtain ⟨hlt, rfl⟩ := List.getElem?_eq_some_iff.mp he
  rw [h.heap, map_set, hlocked]
  apply ext_getElem?
  intro j
  by_cases hj : obj = j
  · subst hj
    simp [hlt]
  · rw [getElem?_set_ne hj]

/-- An entry changes without its counter. -/
lemma Refines.count_set (he : m.entries[obj]? = some e) (hcount : e'.refCount = e.refCount)
    {p : String} {o : ℕ} {x : LockEntry} (hp : a.table p = some o)
    (hx : (m.entries.set obj e')[o]? = some x) : x.refCount = a.count p := by
  rcases Places.of_set hx with ⟨rfl, rfl⟩ | ⟨-, hold⟩
  · rw [hcount]
    exact h.count p o e hp he
  · exact h.count p o x hp hold

/-- The entry of the path counts anew. -/
lemma Refines.count_update (ha : Sound a) (htable : a.table path = some obj) {n : ℕ}
    (hn : e'.refCount = n) {p : String} {o : ℕ} {x : LockEntry} (hp : a.table p = some o)
    (hx : (m.entries.set obj e')[o]? = some x) : x.refCount = update a.count path n p := by
  rcases Places.of_set hx with ⟨rfl, rfl⟩ | ⟨ho, hold⟩
  · obtain rfl := ha.listed.apart p path o hp htable
    rw [update_self, hn]
  · have hne : p ≠ path := by
      rintro rfl
      exact ho (Option.some.inj (hp.symm.trans htable))
    rw [update_of_ne hne]
    exact h.count p o x hp hold

lemma refines_lock_known (ha : Sound a) (hpath : m.locks.lookup path = some obj)
    (he : m.entries[obj]? = some e) :
    ({ m with
      entries := m.entries.set obj { e with refCount := e.refCount + 1 }
      calls := m.calls ++ [.waiting path .exclusive obj] } : LockManager).Refines
      (a.arrive path .exclusive) := by
  have htable : a.table path = some obj := (h.table path).trans hpath
  rw [State.arrive, htable]
  refine ⟨h.table, fun p o x hp hx => h.count_update ha htable ?_ hp hx,
    h.heap_set he (by rfl), by simp [h.clients]⟩
  push_cast
  rw [h.count path obj e htable he]

lemma refines_lock_new (ha : Sound a) (hpath : m.locks.lookup path = none) :
    (⟨m.locks.insert path m.entries.length, m.entries ++ [⟨false, 1⟩],
      m.calls ++ [.waiting path .exclusive m.entries.length]⟩ : LockManager).Refines
      (a.arrive path .exclusive) := by
  have htable : a.table path = none := (h.table path).trans hpath
  have hlength : a.heap.length = m.entries.length := by rw [h.heap, length_map]
  rw [State.arrive, htable]
  refine ⟨fun p => ?_, fun p o x hp hx => ?_, ?_, by simp [h.clients, hlength]⟩
  · rw [Writes.lookup_insert, ← funext h.table, hlength]
  · dsimp only at hp ⊢
    by_cases hpp : p = path
    · subst hpp
      rw [update_self] at hp
      rw [← Option.some.inj hp, hlength, getElem?_concat_length] at hx
      rw [update_self, (ha.listed.entry p).mp htable, ← Option.some.inj hx]
      rfl
    · rw [update_of_ne hpp] at hp
      rw [update_of_ne hpp]
      have hlt : o < m.entries.length := hlength ▸ ha.listed.inHeap p o hp
      rw [getElem?_append_left hlt] at hx
      exact h.count p o x hp hx
  · simp [h.heap, RWLock.free]

lemma refines_release (ha : Sound a) (hi : m.calls[i]? = some (.leaving path obj))
    (he : m.entries[obj]? = some e) :
    (⟨if e.refCount - 1 ≤ 0 then m.locks.erase path else m.locks,
      m.entries.set obj { e with refCount := e.refCount - 1 }, m.calls.set i .gone⟩ :
      LockManager).Refines (a.leave i path) := by
  have htable : a.table path = some obj := ha.listed.bound i _ path obj (h.clients ▸ hi) rfl
  have hcount := h.count path obj e htable he
  unfold State.leave
  by_cases hlast : a.count path ≤ 1
  · have hleft : e.refCount - 1 ≤ 0 := by omega
    rw [if_pos hlast, if_pos hleft]
    refine ⟨fun p => ?_, fun p o x hp hx => ?_, h.heap_set he (by rfl), by simp [h.clients]⟩
    · rw [Writes.lookup_erase, ← funext h.table]
    · rcases Writes.of_update hp with ⟨-, hnone⟩ | ⟨hpp, hp⟩
      · cases hnone
      -- an entry that stays in the table under another path has another counter
      dsimp only
      rw [update_of_ne hpp]
      rcases Places.of_set hx with ⟨rfl, -⟩ | ⟨-, hold⟩
      · exact absurd (ha.listed.apart p path o hp htable) hpp
      · exact h.count p o x hp hold
  · have hleft : ¬ e.refCount - 1 ≤ 0 := by omega
    rw [if_neg hlast, if_neg hleft]
    refine ⟨h.table, fun p o x hp hx => h.count_update ha htable ?_ hp hx,
      h.heap_set he (by rfl), by simp [h.clients]⟩
    dsimp only
    omega

lemma refines_step {l : ManagerLabel} (ha : Sound a) (hstep : m.Step l m') :
    ∃ l' a', State.Step a l' a' ∧ m'.Refines a' := by
  unfold Step step at hstep
  cases l with
  | lock path =>
    dsimp only at hstep
    split at hstep
    · rename_i obj hpath
      obtain ⟨e, he, rfl⟩ := map_eq_some_iff.mp hstep
      exact ⟨_, _, .arrive a path .exclusive, refines_lock_known h ha hpath he⟩
    · rename_i hpath
      cases hstep
      exact ⟨_, _, .arrive a path .exclusive, refines_lock_new h ha hpath⟩
  | granted i =>
    dsimp only at hstep
    split at hstep
    · rename_i path obj hi
      split at hstep
      · rename_i e he
        split_ifs at hstep with hlocked
        cases hstep
        have hfree : (⟨e.locked, 0⟩ : RWLock).admits .exclusive = true := by
          simp [RWLock.admits, hlocked]
        refine ⟨_, _, .grant (h.clients ▸ hi) (h.lock_object he) hfree, h.table,
          fun p o x hp hx => h.count_set he (by rfl) hp hx, ?_, by simp [h.clients]⟩
        simp [h.heap, map_set, RWLock.take]
      · cases hstep
    · cases hstep
  | unlock i =>
    dsimp only at hstep
    split at hstep
    · rename_i path obj hi
      obtain ⟨e, he, rfl⟩ := map_eq_some_iff.mp hstep
      refine ⟨_, _, .unlock (h.clients ▸ hi) (h.lock_object he), h.table,
        fun p o x hp hx => h.count_set he (by rfl) hp hx, ?_, by simp [h.clients]⟩
      simp [h.heap, map_set, RWLock.drop]
    · cases hstep
  | release i =>
    dsimp only at hstep
    split at hstep
    · rename_i path obj hi
      obtain ⟨e, he, rfl⟩ := map_eq_some_iff.mp hstep
      exact ⟨_, _, .leave (h.clients ▸ hi), refines_release h ha hi he⟩
    · cases hstep

end

lemma refines_new : newLockManager.Refines State.start :=
  ⟨fun _ => rfl, fun _ _ _ h => (by cases h), rfl, rfl⟩

lemma ref_iff {place : Place String} :
    (∃ obj, place.ref = some (path, obj)) ↔ HoldsOrWaits path place ∨ Passing path place := by
  cases place <;> simp [Place.ref, HoldsOrWaits, Passing]

lemma Refines.lookup_iff (h : m.Refines a) (ha : Sound a) :
    (m.locks.lookup path).isSome = true ↔
      ∃ place ∈ m.calls, HoldsOrWaits path place ∨ Passing path place := by
  rw [← h.table, ha.table_iff, h.clients]
  simp only [ref_iff]

lemma sound_of_run {ls : List ManagerLabel} (hrun : Run Step newLockManager ls m) :
    ∃ a, m.Refines a ∧ Sound a :=
  exists_sound_of_run (fun _ _ _ _ ha h hstep => refines_step h ha hstep) refines_new hrun

end LockManager

/-! ### Both -/

/-- Whoever holds a key exclusively is alone with it.  The table has an entry
for a key while a call holds it, waits for it or is still inside `TryLock` or
the release of it. -/
theorem locks_exclude_and_entries_last :
    (∀ (ls : List KeyLockLabel) (k : KeyLocks), Run KeyLocks.Step KeyLocks.newKeyLocks ls k →
      ∀ key : String,
        (∀ (i j obj obj' : ℕ) (mode : Mode), k.calls[i]? = some (.holding key .exclusive obj) →
          k.calls[j]? = some (.holding key mode obj') → i = j) ∧
        ((k.locks.lookup key).isSome = true ↔
          ∃ place ∈ k.calls, place.HoldsOrWaits key ∨ place.Passing key)) ∧
    ∀ (ls : List ManagerLabel) (m : LockManager),
      Run LockManager.Step LockManager.newLockManager ls m →
      ∀ path : String,
        (∀ (i j obj obj' : ℕ) (mode : Mode), m.calls[i]? = some (.holding path .exclusive obj) →
          m.calls[j]? = some (.holding path mode obj') → i = j) ∧
        ((m.locks.lookup path).isSome = true ↔
          ∃ place ∈ m.calls, LockManager.HoldsOrWaits path place ∨
            LockManager.Passing path place) := by
  constructor
  · intro ls k hrun key
    obtain ⟨a, hrefines, hsound⟩ := KeyLocks.sound_of_run hrun
    constructor
    · intro i j obj obj' mode hi hj
      exact hsound.eq_of_holding (hrefines.client hi) (hrefines.client hj)
    · exact hrefines.lookup_iff hsound
  · intro ls m hrun path
    obtain ⟨a, hrefines, hsound⟩ := LockManager.sound_of_run hrun
    constructor
    · intro i j obj obj' mode hi hj
      rw [← hrefines.clients] at hi hj
      exact hsound.eq_of_holding hi hj
    · exact hrefines.lookup_iff hsound

/-- A second `Lock` of the path waits beside the holder. -/
theorem second_lock_waits_for_holder :
    (∃ k, Run KeyLocks.Step KeyLocks.newKeyLocks [.lock "h", .tryLock "h", .granted 0] k ∧
      k.calls = [.holding "h" .exclusive 0, .trying "h" 0] ∧
      (k.locks.lookup "h").isSome = true) ∧
    ∃ m, Run LockManager.Step LockManager.newLockManager [.lock "p", .lock "p", .granted 1] m ∧
      m.calls = [.waiting "p" .exclusive 0, .holding "p" .exclusive 0] ∧
      (m.locks.lookup "p").isSome = true := by
  constructor
  · obtain ⟨k, hrun, hcalls⟩ : ∃ k, Run KeyLocks.Step KeyLocks.newKeyLocks
        [.lock "h", .tryLock "h", .granted 0] k ∧
        k.calls = [.holding "h" .exclusive 0, .trying "h" 0] :=
      exists_run_of_foldlM (f := KeyLocks.step) (by decide)
    refine ⟨k, hrun, hcalls, ((locks_exclude_and_entries_last.1 _ k hrun "h").2).mpr ?_⟩
    rw [hcalls]
    exact ⟨_, mem_cons_self, Or.inl (Eq.refl "h")⟩
  · obtain ⟨m, hrun, hcalls⟩ : ∃ m, Run LockManager.Step LockManager.newLockManager
        [.lock "p", .lock "p", .granted 1] m ∧
        m.calls = [.waiting "p" .exclusive 0, .holding "p" .exclusive 0] :=
      exists_run_of_foldlM (f := LockManager.step) (by decide)
    refine ⟨m, hrun, hcalls, ((locks_exclude_and_entries_last.2 _ m hrun "p").2).mpr ?_⟩
    rw [hcalls]
    exact ⟨_, mem_cons_self, Or.inl (Eq.refl "p")⟩

/-- Between `Unlock` and `done` nobody holds or waits, and the entries are still
there. -/
theorem entries_outlast_unlock :
    (∃ k, Run KeyLocks.Step KeyLocks.newKeyLocks [.lock "h", .granted 0, .unlock 0] k ∧
      (k.locks.lookup "h").isSome = true ∧ ∀ place ∈ k.calls, ¬ place.HoldsOrWaits "h") ∧
    ∃ m, Run LockManager.Step LockManager.newLockManager [.lock "p", .granted 0, .unlock 0] m ∧
      (m.locks.lookup "p").isSome = true ∧
      ∀ place ∈ m.calls, ¬ LockManager.HoldsOrWaits "p" place := by
  constructor
  · obtain ⟨k, hrun, hcalls, hentry⟩ : ∃ k, Run KeyLocks.Step KeyLocks.newKeyLocks
        [.lock "h", .granted 0, .unlock 0] k ∧ k.calls = [.releasing "h" 0] ∧
        (k.locks.lookup "h").isSome = true :=
      exists_run_of_foldlM (f := KeyLocks.step) (by decide)
    refine ⟨k, hrun, hentry, fun place hplace => ?_⟩
    rw [hcalls, mem_singleton] at hplace
    rw [hplace]
    exact id
  · obtain ⟨m, hrun, hcalls, hentry⟩ : ∃ m, Run LockManager.Step LockManager.newLockManager
        [.lock "p", .granted 0, .unlock 0] m ∧ m.calls = [.leaving "p" 0] ∧
        (m.locks.lookup "p").isSome = true :=
      exists_run_of_foldlM (f := LockManager.step) (by decide)
    refine ⟨m, hrun, hentry, fun place hplace => ?_⟩
    rw [hcalls, mem_singleton] at hplace
    rw [hplace]
    exact id

end Tiramisu.Library
