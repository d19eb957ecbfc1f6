import Mathlib.Data.Int.Notation
import Tiramisu.Lib.Places
import Tiramisu.Lib.Runs
import Tiramisu.Lib.Writes

/-!
# Locks by key, made on demand

A table leads from a key to a lock object.  A client that arrives counts itself
in and takes the object of its key, or a fresh one; it waits for the object,
holds it, gives it back and counts itself out, and the last one takes the
object out of the table.  `Sound` ties the table, the counts and the objects to
the places of the clients: whoever is counted in under a key has the object
the table has, so two holders of a key are two holders of one object.
-/

namespace Keyed

open Function Places List Bool

inductive Mode
  | exclusive
  | shared
  deriving DecidableEq, Repr

/-- The state of a reader-writer lock. -/
structure RWLock where
  writer : Bool
  readers : ℕ
  deriving DecidableEq, Repr

namespace RWLock

def free : RWLock := ⟨false, 0⟩

def admits (l : RWLock) : Mode → Bool
  | .exclusive => !l.writer && l.readers = 0
  | .shared => !l.writer

def take (l : RWLock) : Mode → RWLock
  | .exclusive => { l with writer := true }
  | .shared => { l with readers := l.readers + 1 }

def drop (l : RWLock) : Mode → RWLock
  | .exclusive => { l with writer := false }
  | .shared => { l with readers := l.readers - 1 }

end RWLock

/-- Where a client stands; an object is its number in the heap. -/
inductive Place (κ : Type)
  | waiting (key : κ) (mode : Mode) (obj : ℕ)
  | holding (key : κ) (mode : Mode) (obj : ℕ)
  | leaving (key : κ) (obj : ℕ)
  | gone
  deriving DecidableEq, Repr

structure State (κ : Type) where
  table : κ → Option ℕ
  count : κ → ℕ
  heap : List RWLock
  clients : List (Place κ)

inductive Label (κ : Type)
  | arrive (key : κ) (mode : Mode)
  | grant (i : ℕ)
  | giveUp (i : ℕ)
  | unlock (i : ℕ)
  | leave (i : ℕ)

variable {κ : Type}

/-- The object a client counts on, with its key. -/
def Place.ref : Place κ → Option (κ × ℕ)
  | .waiting key _ obj | .holding key _ obj | .leaving key obj => some (key, obj)
  | .gone => none

def Place.holds (mode : Mode) (obj : ℕ) : Place κ → Bool
  | .holding _ m o => m = mode && o = obj
  | _ => false

/-- The objects against the clients. -/
structure Locked (heap : List RWLock) (clients : List (Place κ)) : Prop where
  writer : ∀ (obj : ℕ) (l : RWLock), heap[obj]? = some l →
    l.writer.toNat = clients.countP (Place.holds .exclusive obj)
  readers : ∀ (obj : ℕ) (l : RWLock), heap[obj]? = some l →
    l.readers = clients.countP (Place.holds .shared obj)
  alone : ∀ (obj : ℕ) (l : RWLock), heap[obj]? = some l → l.writer = true → l.readers = 0

lemma Place.ref_of_holds {place : Place κ} {mode : Mode} {obj : ℕ}
    (h : place.holds mode obj = true) :
    ∃ key, place.ref = some (key, obj) := by
  cases place with
  | holding key m o =>
    obtain ⟨-, rfl⟩ : m = mode ∧ o = obj := by simpa [Place.holds] using h
    exact ⟨key, rfl⟩
  | waiting key m o => cases h
  | leaving key o => cases h
  | gone => cases h

section Locked

variable {heap : List RWLock} {clients : List (Place κ)} {obj i : ℕ} {place place' : Place κ}

section

variable (h : Locked heap clients)

include h

/-- A client moves and holds what it held. -/
lemma Locked.move (hi : clients[i]? = some place)
    (hsame : ∀ mode obj, place'.holds mode obj = place.holds mode obj) :
    Locked heap (clients.set i place') := by
  have hcount : ∀ mode obj, (clients.set i place').countP (Place.holds mode obj)
      = clients.countP (Place.holds mode obj) := by
    intro mode obj
    have hset := count_set (y := place') (Place.holds mode obj) hi
    rw [hsame mode obj] at hset
    omega
  constructor
  · intro o l hl
    rw [hcount]
    exact h.writer o l hl
  · intro o l hl
    rw [hcount]
    exact h.readers o l hl
  · exact h.alone

lemma Locked.join (hnone : ∀ mode obj, place.holds mode obj = false) :
    Locked heap (clients ++ [place]) where
  writer o l hl := by
    rw [count_join, hnone]
    exact h.writer o l hl
  readers o l hl := by
    rw [count_join, hnone]
    exact h.readers o l hl
  alone := h.alone

lemma Locked.alloc
    (hfresh : ∀ (i : ℕ) (place : Place κ) (mode : Mode), clients[i]? = some place →
      place.holds mode heap.length = false) : Locked (heap ++ [.free]) clients := by
  have hzero : ∀ mode, clients.countP (Place.holds mode heap.length) = 0 := by
    intro mode
    rw [countP_eq_zero]
    intro place hmem
    obtain ⟨i, hi⟩ := mem_iff_getElem?.mp hmem
    simp [hfresh i place mode hi]
  constructor
  · intro o l hl
    rcases of_join hl with ⟨rfl, rfl⟩ | hl
    · rw [hzero]
      rfl
    · exact h.writer o l hl
  · intro o l hl
    rcases of_join hl with ⟨rfl, rfl⟩ | hl
    · rw [hzero]
      rfl
    · exact h.readers o l hl
  · intro o l hl hwriter
    rcases of_join hl with ⟨rfl, rfl⟩ | hl
    · rfl
    · exact h.alone o l hl hwriter

lemma Locked.grant {key : κ} {mode : Mode} {l : RWLock}
    (hi : clients[i]? = some (.waiting key mode obj)) (hl : heap[obj]? = some l)
    (hadmits : l.admits mode = true) :
    Locked (heap.set obj (l.take mode)) (clients.set i (.holding key mode obj)) := by
  have hcount : ∀ m o, (clients.set i (.holding key mode obj)).countP (Place.holds m o)
      = clients.countP (Place.holds m o) + (decide (mode = m) && decide (obj = o)).toNat :=
    fun m o => count_set (y := Place.holding key mode obj) (Place.holds m o) hi
  have hfree : l.writer = false := by
    cases mode with
    | exclusive => exact (by simpa [RWLock.admits] using hadmits : _ ∧ l.readers = 0).1
    | shared => simpa [RWLock.admits] using hadmits
  constructor
  · intro o l' hl'
    rw [hcount]
    rcases of_set hl' with ⟨rfl, rfl⟩ | ⟨ho, hold⟩
    · rw [← h.writer o l hl]
      cases mode <;> simp [RWLock.take, hfree]
    · simp [h.writer o l' hold, Ne.symm ho]
  · intro o l' hl'
    rw [hcount]
    rcases of_set hl' with ⟨rfl, rfl⟩ | ⟨ho, hold⟩
    · rw [← h.readers o l hl]
      cases mode <;> simp [RWLock.take]
    · simp [h.readers o l' hold, Ne.symm ho]
  · intro o l' hl' hwriter
    rcases of_set hl' with ⟨rfl, rfl⟩ | ⟨-, hold⟩
    · cases mode with
      | exclusive => exact (by simpa [RWLock.admits] using hadmits : _ ∧ l.readers = 0).2
      | shared =>
        rw [RWLock.take, hfree] at hwriter
        cases hwriter
    · exact h.alone o l' hold hwriter

lemma Locked.unlock {key : κ} {mode : Mode} {l : RWLock}
    (hi : clients[i]? = some (.holding key mode obj)) (hl : heap[obj]? = some l) :
    Locked (heap.set obj (l.drop mode)) (clients.set i (.leaving key obj)) := by
  have hcount : ∀ m o, (clients.set i (.leaving key obj)).countP (Place.holds m o)
      + (decide (mode = m) && decide (obj = o)).toNat = clients.countP (Place.holds m o) :=
    fun m o => count_set (y := Place.leaving key obj) (Place.holds m o) hi
  constructor
  · intro o l' hl'
    have hset := hcount .exclusive o
    rcases of_set hl' with ⟨rfl, rfl⟩ | ⟨ho, hold⟩
    · rw [← h.writer o l hl] at hset
      have hbound := toNat_le l.writer
      cases mode with
      | exclusive =>
        simp only [decide_true, Bool.and_self, toNat_true] at hset
        simp only [RWLock.drop, toNat_false]
        omega
      | shared => simpa [RWLock.drop] using hset.symm
    · rw [h.writer o l' hold, ← hset]
      simp [Ne.symm ho]
  · intro o l' hl'
    have hset := hcount .shared o
    rcases of_set hl' with ⟨rfl, rfl⟩ | ⟨ho, hold⟩
    · rw [← h.readers o l hl] at hset
      cases mode with
      | exclusive => simpa [RWLock.drop] using hset.symm
      | shared =>
        simp only [decide_true, Bool.and_self, toNat_true] at hset
        simp only [RWLock.drop]
        omega
    · rw [h.readers o l' hold, ← hset]
      simp [Ne.symm ho]
  · intro o l' hl' hwriter
    rcases of_set hl' with ⟨rfl, rfl⟩ | ⟨-, hold⟩
    · cases mode with
      | exclusive => cases hwriter
      | shared =>
        simp only [RWLock.drop, h.alone o l hl hwriter, Nat.zero_sub]
    · exact h.alone o l' hold hwriter

end

end Locked

variable [DecidableEq κ]

/-- The client is counted in under the key. -/
def Place.on (key : κ) (place : Place κ) : Bool := place.ref.any fun r => r.1 = key

def State.start : State κ := ⟨fun _ => none, fun _ => 0, [], []⟩

namespace State

def arrive (s : State κ) (key : κ) (mode : Mode) : State κ :=
  match s.table key with
  | some obj =>
    { s with
      count := update s.count key (s.count key + 1)
      clients := s.clients ++ [.waiting key mode obj] }
  | none =>
    { table := update s.table key (some s.heap.length)
      count := update s.count key (s.count key + 1)
      heap := s.heap ++ [.free]
      clients := s.clients ++ [.waiting key mode s.heap.length] }

def leave (s : State κ) (i : ℕ) (key : κ) : State κ :=
  if s.count key ≤ 1 then
    { s with
      table := update s.table key none
      count := update s.count key 0
      clients := s.clients.set i .gone }
  else
    { s with
      count := update s.count key (s.count key - 1)
      clients := s.clients.set i .gone }

inductive Step : State κ → Label κ → State κ → Prop
  | arrive (s : State κ) (key : κ) (mode : Mode) : Step s (.arrive key mode) (s.arrive key mode)
  | grant {s : State κ} {i : ℕ} {key : κ} {mode : Mode} {obj : ℕ} {l : RWLock} :
      s.clients[i]? = some (.waiting key mode obj) → s.heap[obj]? = some l →
      l.admits mode = true → Step s (.grant i) { s with
        heap := s.heap.set obj (l.take mode)
        clients := s.clients.set i (.holding key mode obj) }
  | giveUp {s : State κ} {i : ℕ} {key : κ} {mode : Mode} {obj : ℕ} :
      s.clients[i]? = some (.waiting key mode obj) →
      Step s (.giveUp i) { s with clients := s.clients.set i (.leaving key obj) }
  | unlock {s : State κ} {i : ℕ} {key : κ} {mode : Mode} {obj : ℕ} {l : RWLock} :
      s.clients[i]? = some (.holding key mode obj) → s.heap[obj]? = some l →
      Step s (.unlock i) { s with
        heap := s.heap.set obj (l.drop mode)
        clients := s.clients.set i (.leaving key obj) }
  | leave {s : State κ} {i : ℕ} {key : κ} {obj : ℕ} :
      s.clients[i]? = some (.leaving key obj) → Step s (.leave i) (s.leave i key)

end State

/-- The table against the clients. -/
structure Listed (table : κ → Option ℕ) (count : κ → ℕ) (objects : ℕ)
    (clients : List (Place κ)) : Prop where
  bound : ∀ (i : ℕ) (place : Place κ) (key : κ) (obj : ℕ), clients[i]? = some place →
    place.ref = some (key, obj) → table key = some obj
  counted : ∀ key, count key = clients.countP (Place.on key)
  entry : ∀ key, table key = none ↔ count key = 0
  inHeap : ∀ key obj, table key = some obj → obj < objects
  apart : ∀ key key' obj, table key = some obj → table key' = some obj → key = key'

structure Sound (s : State κ) : Prop where
  listed : Listed s.table s.count s.heap.length s.clients
  locked : Locked s.heap s.clients

section Listed

variable {table : κ → Option ℕ} {count : κ → ℕ} {objects : ℕ} {clients : List (Place κ)}
  {key : κ} {obj i : ℕ} {place place' : Place κ}

/-- A client moves and stays counted in. -/
lemma Listed.move (h : Listed table count objects clients) (hi : clients[i]? = some place)
    (href : place'.ref = place.ref) : Listed table count objects (clients.set i place') where
  bound j q k o hj hq := by
    rcases of_set hj with ⟨-, rfl⟩ | ⟨-, hj⟩
    · exact h.bound i place k o hi (href ▸ hq)
    · exact h.bound j q k o hj hq
  counted k := by
    have hset := count_set (y := place') (Place.on k) hi
    have hsame : Place.on k place' = Place.on k place := by rw [Place.on, Place.on, href]
    rw [hsame] at hset
    rw [h.counted k]
    omega
  entry := h.entry
  inHeap := h.inHeap
  apart := h.apart

lemma Place.on_of_ref (href : place.ref = some (key, obj)) (k : κ) :
    place.on k = decide (key = k) := by
  simp [Place.on, href]

section

variable (h : Listed table count objects clients)

include h

/-- A client counts itself in. -/
lemma Listed.counted_join (href : place.ref = some (key, obj)) (k : κ) :
    update count key (count key + 1) k = (clients ++ [place]).countP (Place.on k) := by
  rw [count_join, ← h.counted k, Place.on_of_ref href]
  by_cases hk : k = key
  · subst hk
    simp
  · simp [update_of_ne hk, Ne.symm hk]

/-- A client counts itself out. -/
lemma Listed.counted_gone (hi : clients[i]? = some place) (href : place.ref = some (key, obj))
    (k : κ) : update count key (count key - 1) k = (clients.set i .gone).countP (Place.on k) := by
  have hset := count_set (y := Place.gone) (Place.on k) hi
  rw [Place.on_of_ref href k, ← h.counted k] at hset
  by_cases hk : k = key
  · subst hk
    rw [decide_eq_true rfl, toNat_true] at hset
    rw [update_self]
    exact Nat.sub_eq_of_eq_add hset.symm
  · rw [decide_eq_false (Ne.symm hk), toNat_false] at hset
    rw [update_of_ne hk]
    exact hset.symm

/-- A client joins under a key that has its object. -/
lemma Listed.join (htable : table key = some obj) (href : place.ref = some (key, obj)) :
    Listed table (update count key (count key + 1)) objects (clients ++ [place]) where
  bound j q k o hj hq := by
    rcases of_join hj with ⟨-, rfl⟩ | hj
    · rw [href] at hq
      cases hq
      exact htable
    · exact h.bound j q k o hj hq
  counted := h.counted_join href
  entry k := by
    by_cases hk : k = key
    · subst hk
      simp [htable]
    · rw [update_of_ne hk]
      exact h.entry k
  inHeap := h.inHeap
  apart := h.apart

/-- A fresh object for a key that has none. -/
lemma Listed.alloc (htable : table key = none) (href : place.ref = some (key, objects)) :
    Listed (update table key (some objects)) (update count key (count key + 1))
      (objects + 1) (clients ++ [place]) := by
  have hother : ∀ (j : ℕ) (q : Place κ) (k : κ) (o : ℕ), clients[j]? = some q →
      q.ref = some (k, o) → k ≠ key := by
    rintro j q k o hj hq rfl
    rw [h.bound j q k o hj hq] at htable
    cases htable
  constructor
  · intro j q k o hj hq
    rcases of_join hj with ⟨-, rfl⟩ | hj
    · rw [href] at hq
      cases hq
      exact update_self _ _ _
    · rw [update_of_ne (hother j q k o hj hq)]
      exact h.bound j q k o hj hq
  · exact h.counted_join href
  · intro k
    by_cases hk : k = key
    · subst hk
      simp
    · rw [update_of_ne hk, update_of_ne hk]
      exact h.entry k
  · intro k o ho
    rcases Writes.of_update ho with ⟨-, ho⟩ | ⟨-, ho⟩
    · rw [← Option.some.inj ho]
      exact Nat.lt_succ_self _
    · exact Nat.lt_succ_of_lt (h.inHeap k o ho)
  · intro k k' o hk hk'
    rcases Writes.of_update hk with ⟨hkey, ho⟩ | ⟨-, hk⟩ <;>
      rcases Writes.of_update hk' with ⟨hkey', ho'⟩ | ⟨-, hk'⟩
    · exact hkey.trans hkey'.symm
    · exact absurd (h.inHeap k' o hk') (by simp [← Option.some.inj ho])
    · exact absurd (h.inHeap k o hk) (by simp [← Option.some.inj ho'])
    · exact h.apart k k' o hk hk'

/-- The last client of a key takes the object out of the table. -/
lemma Listed.leave_last (hi : clients[i]? = some place) (href : place.ref = some (key, obj))
    (hlast : count key ≤ 1) :
    Listed (update table key none) (update count key 0) objects (clients.set i .gone) := by
  have hone : clients.countP (Place.on key) ≤ 1 := h.counted key ▸ hlast
  have hself : place.on key = true := by simp [Place.on, href]
  have hold : ∀ k o, update table key none k = some o → table k = some o := by
    intro k o ho
    rcases Writes.of_update ho with ⟨-, hnone⟩ | ⟨-, ho⟩
    · cases hnone
    · exact ho
  constructor
  · intro j q k o hj hq
    rcases of_set hj with ⟨-, rfl⟩ | ⟨hji, hj⟩
    · cases hq
    have hk : k ≠ key := by
      rintro rfl
      exact hji (eq_of_count_le_one hone hj (by simp [Place.on, hq]) hi hself)
    rw [update_of_ne hk]
    exact h.bound j q k o hj hq
  · rw [← Nat.sub_eq_zero_of_le hlast]
    exact h.counted_gone hi href
  · intro k
    by_cases hk : k = key
    · subst hk
      simp
    · rw [update_of_ne hk, update_of_ne hk]
      exact h.entry k
  · exact fun k o ho => h.inHeap k o (hold k o ho)
  · exact fun k k' o hk hk' => h.apart k k' o (hold k o hk) (hold k' o hk')

lemma Listed.leave_more (hi : clients[i]? = some place) (href : place.ref = some (key, obj))
    (hmore : ¬ count key ≤ 1) :
    Listed table (update count key (count key - 1)) objects (clients.set i .gone) where
  bound j q k o hj hq := by
    rcases of_set hj with ⟨-, rfl⟩ | ⟨-, hj⟩
    · cases hq
    · exact h.bound j q k o hj hq
  counted := h.counted_gone hi href
  entry k := by
    by_cases hk : k = key
    · subst hk
      have hsome : table k ≠ none := fun hnone => hmore (by rw [(h.entry k).mp hnone]; omega)
      rw [update_self]
      exact iff_of_false hsome (by omega)
    · rw [update_of_ne hk]
      exact h.entry k
  inHeap := h.inHeap
  apart := h.apart

end

end Listed

/-! ### One step and every run -/

variable {s s' : State κ} {key : κ} {obj i j : ℕ} {mode : Mode}

lemma sound_arrive (h : Sound s) (key : κ) (mode : Mode) : Sound (s.arrive key mode) := by
  unfold State.arrive
  cases htable : s.table key with
  | some obj =>
    exact ⟨h.listed.join htable rfl, h.locked.join fun _ _ => rfl⟩
  | none =>
    refine ⟨?_, (h.locked.alloc ?_).join fun _ _ => rfl⟩
    · rw [length_append, length_singleton]
      exact h.listed.alloc htable rfl
    · intro i place m hi
      by_contra hholds
      obtain ⟨k, href⟩ := Place.ref_of_holds (by simpa using hholds)
      exact absurd (h.listed.inHeap k _ (h.listed.bound i place k _ hi href)) (Nat.lt_irrefl _)

lemma sound_step {l : Label κ} (h : Sound s) (hstep : State.Step s l s') : Sound s' := by
  cases hstep with
  | arrive key mode => exact sound_arrive h key mode
  | grant hi hl hadmits =>
    refine ⟨?_, h.locked.grant hi hl hadmits⟩
    rw [length_set]
    exact h.listed.move hi rfl
  | giveUp hi => exact ⟨h.listed.move hi rfl, h.locked.move hi fun _ _ => rfl⟩
  | unlock hi hl =>
    refine ⟨?_, h.locked.unlock hi hl⟩
    rw [length_set]
    exact h.listed.move hi rfl
  | leave hi =>
    unfold State.leave
    split_ifs with hlast
    · exact ⟨h.listed.leave_last hi rfl hlast, h.locked.move hi fun _ _ => rfl⟩
    · exact ⟨h.listed.leave_more hi rfl hlast, h.locked.move hi fun _ _ => rfl⟩

theorem sound_start : Sound (State.start : State κ) where
  listed :=
    { bound := fun i place key obj hi => by simp [State.start] at hi
      counted := fun _ => rfl
      entry := fun _ => iff_of_true rfl rfl
      inHeap := fun key obj hobj => by cases hobj
      apart := fun key key' obj hobj => by cases hobj }
  locked :=
    { writer := fun obj l hl => by simp [State.start] at hl
      readers := fun obj l hl => by simp [State.start] at hl
      alone := fun obj l hl => by simp [State.start] at hl }

/-! ### What the locks give -/

/-- A holder of a key whose hold is exclusive is its only holder. -/
theorem Sound.eq_of_holding (h : Sound s) {obj' : ℕ}
    (hi : s.clients[i]? = some (.holding key .exclusive obj))
    (hj : s.clients[j]? = some (.holding key mode obj')) : i = j := by
  obtain rfl : obj = obj' := by
    have hobj := h.listed.bound i _ key obj hi rfl
    have hobj' := h.listed.bound j _ key obj' hj rfl
    exact Option.some.inj (hobj.symm.trans hobj')
  have hlt := h.listed.inHeap key obj (h.listed.bound i _ key obj hi rfl)
  obtain ⟨l, hl⟩ : ∃ l, s.heap[obj]? = some l := ⟨_, getElem?_eq_getElem hlt⟩
  have hwriter := h.locked.writer obj l hl
  have hexcl : (Place.holding key .exclusive obj).holds .exclusive obj = true := by
    simp [Place.holds]
  cases mode with
  | exclusive =>
    have hone : s.clients.countP (Place.holds .exclusive obj) ≤ 1 := by
      rw [← hwriter]
      exact toNat_le _
    exact eq_of_count_le_one hone hi hexcl hj (by simp [Place.holds])
  | shared =>
    -- a writer has the object to itself
    have hpos := one_le_count hi hexcl
    have hw : l.writer = true := by
      by_contra hfalse
      rw [not_eq_true] at hfalse
      rw [hfalse, toNat_false] at hwriter
      omega
    have hreaders := h.locked.readers obj l hl
    have hshared := one_le_count hj (p := Place.holds .shared obj) (by simp [Place.holds])
    rw [← hreaders, h.locked.alone obj l hl hw] at hshared
    omega

/-- A key is in the table while somebody is counted in under it. -/
theorem Sound.table_iff (h : Sound s) :
    (s.table key).isSome = true ↔ ∃ place ∈ s.clients, ∃ obj, place.ref = some (key, obj) := by
  constructor
  · intro hsome
    have hpos : 0 < s.clients.countP (Place.on key) := by
      rw [← h.listed.counted key, Nat.pos_iff_ne_zero]
      intro hzero
      rw [(h.listed.entry key).mpr hzero] at hsome
      cases hsome
    obtain ⟨place, hmem, hon⟩ := countP_pos_iff.mp hpos
    cases href : place.ref with
    | none => simp [Place.on, href] at hon
    | some r =>
      obtain ⟨k, obj⟩ := r
      obtain rfl : k = key := by simpa [Place.on, href] using hon
      exact ⟨place, hmem, obj, href⟩
  · rintro ⟨place, hmem, obj, href⟩
    obtain ⟨i, hi⟩ := mem_iff_getElem?.mp hmem
    rw [h.listed.bound i place key obj hi href]
    rfl

/-- A system whose steps are steps of the keyed locks is always over sound ones. -/
theorem exists_sound_of_run {σ ℓ : Type*} {step : σ → ℓ → σ → Prop} {c c' : σ}
    {refines : σ → State κ → Prop} {ls : List ℓ}
    (hstep : ∀ c l c' a, Sound a → refines c a → step c l c' →
      ∃ l' a', State.Step a l' a' ∧ refines c' a')
    (hstart : refines c State.start) (hrun : Transition.Run step c ls c') :
    ∃ a, refines c' a ∧ Sound a := by
  refine hrun.invariant (I := fun c => ∃ a, refines c a ∧ Sound a) ?_ ⟨_, hstart, sound_start⟩
  rintro c l c' ⟨a, hc, ha⟩ hcc
  obtain ⟨l', a', hst, hc'⟩ := hstep c l c' a ha hc hcc
  exact ⟨a', hc', sound_step ha hst⟩

end Keyed
