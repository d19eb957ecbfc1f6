import Tiramisu.Lib.Runs
import Tiramisu.ReadAhead.Cache

/-!
# The books of the read-ahead cache

Counters, order lists, maps and the buffer pool are updated in separate steps.
Three invariants tie them together: `Balanced` for the counters, `Ordered` for
each shard's order list, `Owned` for the backing arrays.  Each small step of a
call keeps what it does not touch, and every call keeps all three.
-/

namespace Tiramisu.ReadAhead

open Buffers Go Transition List Option Function AList

/-- The bytes of all chunks of a shard. -/
def RaShard.stored (s : RaShard) : ℤ := GoMap.sum (fun b => (b.data.len : ℤ)) s.buffers

/-- The order list holds each stored key exactly once and nothing else. -/
def RaShard.Ordered (s : RaShard) : Prop := s.order.Nodup ∧ ∀ key, key ∈ s.order ↔ key ∈ s.buffers

namespace Cache

structure Balanced (c : Cache) : Prop where
  total : ∀ i, (c.shards i).total = (c.shards i).stored
  used : c.used = ∑ i, (c.shards i).total

/-- The array behind the entry of a key. -/
def owner (c : Cache) (x : Fin 32 × String) : Option ℕ :=
  ((c.shards x.1).buffers.lookup x.2).map (·.data.buf)

structure Owned (c : Cache) : Prop where
  exclusive : Exclusive c.owner c.pool
  bound : ∀ {x buf}, c.owner x = some buf → buf < c.heap.arrays.length
  pooled : ∀ {buf}, buf ∈ c.pool → buf < c.heap.arrays.length

variable (cfg : Config) {c c' : Cache} {i j : Fin 32} {key : String} {b : RaBuffer}
variable {f : RaShard → RaShard} {s : Slice}

/-! ### One shard at a time -/

@[simp] lemma shards_modifyShard_self :
    (c.modifyShard i f).shards i = f (c.shards i) := by simp [modifyShard]

lemma shards_modifyShard_ne (h : j ≠ i) :
    (c.modifyShard i f).shards j = c.shards j := by simp [modifyShard, h]

@[simp] lemma recycle_shards : (c.recycle cfg s).shards = c.shards := by
  unfold recycle
  split_ifs <;> rfl

@[simp] lemma recycle_used : (c.recycle cfg s).used = c.used := by
  unfold recycle
  split_ifs <;> rfl

@[simp] lemma recycle_heap : (c.recycle cfg s).heap = c.heap := by
  unfold recycle
  split_ifs <;> rfl

lemma discard_shards :
    (c.discard cfg i key b).shards = (c.modifyShard i fun s =>
      { s with total := s.total - b.data.len, buffers := s.buffers.erase key }).shards := by
  rw [discard, recycle_shards]

lemma Balanced.congr (h : Balanced c) (hs : c'.shards = c.shards) (hu : c'.used = c.used) :
    Balanced c' :=
  ⟨fun i => by rw [hs]; exact h.total i, by rw [hu, hs]; exact h.used⟩

/-- What holds of every shard still does when one has changed. -/
lemma forall_modify {P : RaShard → Prop}
    (hs : c'.shards = (c.modifyShard i f).shards) (hself : P (f (c.shards i)))
    (hother : ∀ j, j ≠ i → P (c.shards j)) : ∀ j, P (c'.shards j) := by
  intro j
  rw [hs]
  by_cases hj : j = i
  · subst hj
    rw [shards_modifyShard_self]
    exact hself
  · rw [shards_modifyShard_ne hj]
    exact hother j hj

/-- A shard changes and the global counter follows its total. -/
lemma Balanced.modify (h : Balanced c) (hf : (f (c.shards i)).total = (f (c.shards i)).stored)
    (hs : c'.shards = (c.modifyShard i f).shards)
    (hu : c'.used = c.used + ((f (c.shards i)).total - (c.shards i).total)) : Balanced c' := by
  refine ⟨forall_modify (P := fun s => s.total = s.stored) hs hf fun j _ => h.total j, ?_⟩
  have hsum : ∀ g : Fin 32 → RaShard, ∑ j, (g j).total
      = (g i).total + ∑ j ∈ Finset.univ.erase i, (g j).total := fun g =>
    (Finset.add_sum_erase _ (fun j => (g j).total) (Finset.mem_univ i)).symm
  have hrest : ∑ j ∈ Finset.univ.erase i, ((c.modifyShard i f).shards j).total
      = ∑ j ∈ Finset.univ.erase i, (c.shards j).total :=
    Finset.sum_congr rfl fun j hj => by rw [shards_modifyShard_ne (Finset.ne_of_mem_erase hj)]
  rw [hu, hs, hsum, hrest, shards_modifyShard_self, h.used, hsum c.shards]
  omega

lemma stored_erase {s : RaShard} (h : s.buffers.lookup key = some b) :
    (GoMap.sum (fun b => (b.data.len : ℤ)) (s.buffers.erase key)) = s.stored - b.data.len :=
  GoMap.sum_erase h

/-- What a key holds so far. -/
def lenAt (s : RaShard) (key : String) : ℤ :=
  ((s.buffers.lookup key).map fun b => (b.data.len : ℤ)).getD 0

lemma stored_insert {s : RaShard} :
    (GoMap.sum (fun b => (b.data.len : ℤ)) (s.buffers.insert key b))
      = s.stored - lenAt s key + b.data.len := by
  rw [GoMap.sum_insert, lenAt]
  cases hold : s.buffers.lookup key with
  | none =>
    rw [GoMap.sum_erase_of_lookup_eq_none hold, RaShard.stored, map_none, getD_none]
    omega
  | some old =>
    rw [stored_erase hold, map_some, getD_some]
    omega

lemma Balanced.discard (h : Balanced c) (hb : (c.shards i).buffers.lookup key = some b) :
    Balanced (c.discard cfg i key b) := by
  refine h.modify ?_ (discard_shards cfg) ?_
  · show (c.shards i).total - b.data.len = GoMap.sum _ ((c.shards i).buffers.erase key)
    rw [stored_erase hb, h.total i]
  · simp only [Cache.discard, recycle_used]
    show c.used - b.data.len = c.used + ((c.shards i).total - b.data.len - (c.shards i).total)
    omega

/-- `Put`'s two steps on the shard: the old chunk's books are closed, the new
chunk is entered at the end of the order. -/
lemma overwrite_shards (hord : (c.shards i).Ordered) :
    ((c.accountOverwrite cfg i key).addChunk i key b).shards
      = (c.modifyShard i fun s =>
          { order := s.order.erase key ++ [key],
            total := s.total - lenAt s key + b.data.len,
            buffers := s.buffers.insert key b }).shards := by
  unfold accountOverwrite
  cases hold : (c.shards i).buffers.lookup key with
  | none =>
    have hkey : key ∉ (c.shards i).order := by
      rw [hord.2]
      exact lookup_eq_none.mp hold
    simp [addChunk, modifyShard, lenAt, hold, erase_of_not_mem hkey]
  | some old => simp [addChunk, modifyShard, lenAt, hold]

lemma overwrite_used :
    ((c.accountOverwrite cfg i key).addChunk i key b).used
      = c.used - lenAt (c.shards i) key + b.data.len := by
  unfold accountOverwrite
  cases hold : (c.shards i).buffers.lookup key with
  | none | some => simp [addChunk, modifyShard, lenAt, hold]

lemma Balanced.overwrite (h : Balanced c) (hord : (c.shards i).Ordered) :
    Balanced ((c.accountOverwrite cfg i key).addChunk i key b) := by
  refine h.modify ?_ (overwrite_shards cfg hord) ?_
  · show (c.shards i).total - lenAt (c.shards i) key + b.data.len
      = GoMap.sum _ ((c.shards i).buffers.insert key b)
    rw [stored_insert, h.total i]
  · rw [overwrite_used]
    show _ = c.used + ((c.shards i).total - lenAt (c.shards i) key + b.data.len
      - (c.shards i).total)
    omega

/-! ### Owners -/

lemma owner_eq_some {x : Fin 32 × String} {buf : ℕ} :
    c.owner x = some buf ↔ ∃ b, (c.shards x.1).buffers.lookup x.2 = some b ∧ b.data.buf = buf :=
  map_eq_some_iff

/-- The owners after one shard's map has changed at one key. -/
lemma owner_modify (key : String) {new : Option ℕ} (hs : c'.shards = (c.modifyShard i f).shards)
    (hself : ((f (c.shards i)).buffers.lookup key).map (·.data.buf) = new)
    (hne : ∀ k, k ≠ key → (f (c.shards i)).buffers.lookup k = (c.shards i).buffers.lookup k) :
    c'.owner = update c.owner (i, key) new := by
  funext x
  obtain ⟨j, k⟩ := x
  rw [owner, hs]
  by_cases hx : (j, k) = (i, key)
  · cases hx
    rw [update_self, ← hself, shards_modifyShard_self]
  rw [update_of_ne hx]
  by_cases hj : j = i
  · subst hj
    rw [shards_modifyShard_self, owner, hne k fun hk => hx (by rw [hk])]
  · rw [shards_modifyShard_ne hj, owner]

lemma owner_discard : (c.discard cfg i key b).owner = update c.owner (i, key) none :=
  owner_modify key (discard_shards cfg) (by simp [lookup_erase]) fun _ hk => lookup_erase_ne hk

lemma owner_addChunk :
    (c.addChunk i key b).owner = update c.owner (i, key) (some b.data.buf) :=
  owner_modify key (f := fun s =>
      { order := s.order ++ [key], total := s.total + b.data.len, buffers := s.buffers.insert key b })
    rfl (by simp [lookup_insert]) fun _ hk => lookup_insert_ne hk

lemma owner_accountOverwrite : (c.accountOverwrite cfg i key).owner = c.owner := by
  unfold accountOverwrite
  cases (c.shards i).buffers.lookup key with
  | none => rfl
  | some old =>
    refine (owner_modify (c := c) (i := i) key (f := fun s =>
      { s with total := s.total - old.data.len, order := s.order.erase key })
      (by simp only [recycle_shards]) rfl fun _ _ => rfl).trans ?_
    exact update_eq_self (i, key) c.owner

/-- A buffer is offered to the pool when its entry goes. -/
lemma exclusive_recycle {x : Fin 32 × String} {owner : Fin 32 × String → Option ℕ}
    (h : Exclusive owner c.pool) (hx : owner x = some s.buf) :
    Exclusive (update owner x none) (c.recycle cfg s).pool := by
  unfold recycle
  split_ifs
  · exact h.giveBack hx
  · exact h.forget

lemma mem_pool_recycle {buf : ℕ} (h : buf ∈ (c.recycle cfg s).pool) :
    buf ∈ c.pool ∨ buf = s.buf := by
  unfold recycle at h
  split_ifs at h
  · simpa using h
  · exact .inl h

lemma Owned.discard (h : Owned c) (hb : (c.shards i).buffers.lookup key = some b) :
    Owned (c.discard cfg i key b) := by
  have hown : c.owner (i, key) = some b.data.buf := owner_eq_some.mpr ⟨b, hb, rfl⟩
  refine ⟨?_, fun {x buf} hx => ?_, fun {buf} hmem => ?_⟩
  · rw [owner_discard]
    exact exclusive_recycle cfg h.exclusive hown
  · rw [owner_discard] at hx
    rcases Writes.of_update hx with ⟨-, hnone⟩ | ⟨-, hx⟩
    · cases hnone
    simpa [Cache.discard, modifyShard] using h.bound hx
  · have hlen : buf < c.heap.arrays.length := by
      rcases mem_pool_recycle cfg hmem with hmem | rfl
      · exact h.pooled hmem
      · exact h.bound hown
    simpa [Cache.discard, modifyShard] using hlen

/-- An array that no entry owns and the pool does not hold. -/
structure Loose (c : Cache) (buf : ℕ) : Prop where
  unowned : ∀ x, c.owner x ≠ some buf
  unpooled : buf ∉ c.pool
  bound : buf < c.heap.arrays.length

lemma allocChunk_spec (h : Owned c) (size : ℕ) :
    Owned (c.allocChunk cfg size).2 ∧ Loose (c.allocChunk cfg size).2 (c.allocChunk cfg size).1.buf := by
  have hlen : (c.allocChunk cfg size).2.heap.arrays.length = c.heap.arrays.length + 1 := by
    simp [allocChunk]
  refine ⟨⟨h.exclusive, fun {x buf} hx => ?_, fun {buf} hmem => ?_⟩, fun x hx => ?_, fun hmem => ?_, ?_⟩
  · exact hlen ▸ Nat.lt_succ_of_lt (h.bound (x := x) hx)
  · exact hlen ▸ Nat.lt_succ_of_lt (h.pooled hmem)
  · exact absurd (h.bound (x := x) hx) (by simp [allocChunk, Heap.alloc])
  · exact absurd (h.pooled hmem) (by simp [allocChunk, Heap.alloc])
  · simp [allocChunk, Heap.alloc]

lemma takeBuffer_spec (h : Owned c) (size : ℕ) :
    Owned (c.takeBuffer cfg size).2 ∧ Loose (c.takeBuffer cfg size).2 (c.takeBuffer cfg size).1.buf := by
  unfold takeBuffer
  split
  · rename_i buf pool hpool
    have hex := h.exclusive
    rw [hpool] at hex
    obtain ⟨hrest, hunowned, hunpooled⟩ := hex.handOut
    have hpopped : Owned { c with pool := pool } :=
      ⟨hrest, h.bound, fun hmem => h.pooled (by rw [hpool]; exact mem_cons_of_mem _ hmem)⟩
    split_ifs
    · exact ⟨hpopped, hunowned, hunpooled, h.pooled (by simp [hpool])⟩
    · exact allocChunk_spec cfg hpopped size
  · exact allocChunk_spec cfg h size

lemma dataCopy_spec (h : Owned c) (d : List UInt8) :
    Owned (c.dataCopy cfg d).2 ∧ Loose (c.dataCopy cfg d).2 (c.dataCopy cfg d).1.buf := by
  obtain ⟨hown, hloose⟩ := takeBuffer_spec cfg h d.length
  refine ⟨⟨hown.exclusive, fun {x buf} hx => ?_, fun {buf} hmem => ?_⟩, hloose.unowned,
    hloose.unpooled, ?_⟩
  · simpa [dataCopy] using hown.bound (x := x) hx
  · simpa [dataCopy] using hown.pooled hmem
  · simpa [dataCopy] using hloose.bound

lemma dataCopy_shards (d : List UInt8) :
    (c.dataCopy cfg d).2.shards = c.shards ∧ (c.dataCopy cfg d).2.used = c.used := by
  show (c.takeBuffer cfg d.length).2.shards = c.shards ∧ (c.takeBuffer cfg d.length).2.used = c.used
  unfold takeBuffer
  split
  · split_ifs <;> exact ⟨rfl, rfl⟩
  · exact ⟨rfl, rfl⟩

lemma dataCopy_len (d : List UInt8) : (c.dataCopy cfg d).1.len = d.length := by
  show (c.takeBuffer cfg d.length).1.len = d.length
  unfold takeBuffer
  split
  · split_ifs <;> rfl
  · rfl

/-- The new entry takes a loose array; the entry it replaces gives its own back. -/
lemma Owned.overwrite (h : Owned c) (hloose : Loose c b.data.buf) :
    Owned ((c.accountOverwrite cfg i key).addChunk i key b) := by
  have hheap : ((c.accountOverwrite cfg i key).addChunk i key b).heap = c.heap := by
    unfold accountOverwrite
    cases (c.shards i).buffers.lookup key <;> simp [addChunk, modifyShard]
  have hpool : ∀ {buf}, buf ∈ (c.accountOverwrite cfg i key).pool →
      buf ∈ c.pool ∨ c.owner (i, key) = some buf := by
    intro buf hmem
    unfold accountOverwrite at hmem
    cases hold : (c.shards i).buffers.lookup key with
    | none => exact .inl (by simpa [hold] using hmem)
    | some old =>
      rw [hold] at hmem
      rcases mem_pool_recycle cfg hmem with hmem | rfl
      · exact .inl hmem
      · exact .inr (owner_eq_some.mpr ⟨old, hold, rfl⟩)
  have hex : Exclusive (update c.owner (i, key) none) (c.accountOverwrite cfg i key).pool := by
    unfold accountOverwrite
    cases hold : (c.shards i).buffers.lookup key with
    | none => exact h.exclusive.forget
    | some old => exact exclusive_recycle cfg h.exclusive (owner_eq_some.mpr ⟨old, hold, rfl⟩)
  have howner : ((c.accountOverwrite cfg i key).addChunk i key b).owner
      = update (update c.owner (i, key) none) (i, key) (some b.data.buf) := by
    rw [owner_addChunk, owner_accountOverwrite cfg, update_idem]
  refine ⟨?_, fun {x buf} hx => ?_, fun {buf} hmem => ?_⟩
  · rw [howner]
    refine hex.take (fun x hx => ?_) fun hmem => ?_
    · rcases Writes.of_update hx with ⟨-, hnone⟩ | ⟨-, hx⟩
      · cases hnone
      · exact hloose.unowned x hx
    · rcases hpool hmem with hmem | hown
      · exact hloose.unpooled hmem
      · exact hloose.unowned _ hown
  · rw [howner, update_idem] at hx
    rw [hheap]
    rcases Writes.of_update hx with ⟨-, hx⟩ | ⟨-, hx⟩
    · exact Option.some.inj hx ▸ hloose.bound
    · exact h.bound hx
  · rw [hheap]
    rcases hpool hmem with hmem | hown
    · exact h.pooled hmem
    · exact h.bound hown

/-! ### The three together -/

structure Books (c : Cache) : Prop where
  balanced : Balanced c
  ordered : ∀ i, (c.shards i).Ordered
  owned : Owned c

lemma books_newReadAheadCache : Books newReadAheadCache := by
  refine ⟨⟨fun i => rfl, by simp [newReadAheadCache]⟩, fun i => ⟨nodup_nil, fun key => ?_⟩,
    ⟨fun {x y buf} hx => ?_, nodup_nil, fun {x buf} hx => ?_⟩, fun {x buf} hx => ?_,
    fun hmem => ?_⟩
  · simp [newReadAheadCache]
  · simp [owner, newReadAheadCache] at hx
  · simp [owner, newReadAheadCache] at hx
  · simp [owner, newReadAheadCache] at hx
  · simp [newReadAheadCache] at hmem

/-- What a call leaves alone besides the shards. -/
lemma Books.congr (h : Books c) (hs : c'.shards = c.shards) (hu : c'.used = c.used)
    (hown : Owned c') : Books c' :=
  ⟨h.balanced.congr hs hu, fun i => by rw [hs]; exact h.ordered i, hown⟩

lemma Owned.congr (h : Owned c) (hs : c'.shards = c.shards) (hp : c'.pool = c.pool)
    (hh : c'.heap = c.heap) : Owned c' := by
  have howner : c'.owner = c.owner := by
    funext x
    rw [owner, owner, hs]
  refine ⟨?_, fun {x buf} hx => ?_, fun {buf} hmem => ?_⟩
  · rw [howner, hp]
    exact h.exclusive
  · rw [hh]
    exact h.bound (howner ▸ hx)
  · rw [hh]
    exact h.pooled (hp ▸ hmem)

/-- Entering a chunk whose bytes lie in a loose array. -/
lemma Books.overwrite (h : Books c) (hloose : Loose c b.data.buf) :
    Books ((c.accountOverwrite cfg i key).addChunk i key b) := by
  refine ⟨h.balanced.overwrite cfg (h.ordered i), forall_modify
    (overwrite_shards cfg (h.ordered i)) ?_ fun j _ => h.ordered j, h.owned.overwrite cfg hloose⟩
  obtain ⟨hnodup, hmem⟩ := h.ordered i
  refine ⟨?_, fun k => ?_⟩
  · refine nodup_append.mpr ⟨hnodup.erase key, by simp, fun a ha k hk hak => ?_⟩
    obtain rfl : k = key := by simpa using hk
    exact (List.Nodup.mem_erase_iff hnodup).mp (hak ▸ ha) |>.1 rfl
  · rw [mem_insert, mem_append, List.Nodup.mem_erase_iff hnodup, hmem,
      mem_singleton]
    tauto

/-- A new order list leaves the counters alone. -/
lemma Balanced.reorder (h : Balanced c) (order : List String) :
    Balanced (c.modifyShard i fun s => { s with order }) :=
  h.modify (f := fun s => { s with order }) (h.total i) rfl (by simp [modifyShard])

/-- A new order list leaves the arrays alone. -/
lemma Owned.reorder (h : Owned c) (order : List String) :
    Owned (c.modifyShard i fun s => { s with order }) := by
  have howner : (c.modifyShard i fun s => { s with order }).owner = c.owner :=
    (owner_modify "" rfl rfl fun _ _ => rfl).trans (update_eq_self (i, "") c.owner)
  exact ⟨howner ▸ h.exclusive, fun hx => h.bound (howner ▸ hx), h.pooled⟩

lemma evictFirst_eq (hord : (c.shards i).Ordered) {order : List String}
    (ho : (c.shards i).order = key :: order) :
    ∃ old, (c.shards i).buffers.lookup key = some old ∧
      c.evictFirst cfg i
        = (c.modifyShard i fun s => { s with order := order }).discard cfg i key old := by
  have hin : key ∈ (c.shards i).buffers := (hord.2 key).mp (by simp [ho])
  obtain ⟨old, hold⟩ := Writes.mem_iff.mp hin
  exact ⟨old, hold, by simp [evictFirst, ho, hold]⟩

lemma Books.evictFirst (h : Books c) : Books (c.evictFirst cfg i) := by
  cases ho : (c.shards i).order with
  | nil => simpa [Cache.evictFirst, ho] using h
  | cons key order =>
    obtain ⟨old, hold, heq⟩ := evictFirst_eq cfg (h.ordered i) ho
    set c1 := c.modifyShard i fun s => { s with order := order }
    have hold1 : (c1.shards i).buffers.lookup key = some old := by simpa [c1] using hold
    rw [heq]
    refine ⟨(h.balanced.reorder order).discard cfg hold1, forall_modify (discard_shards cfg) ?_
      fun j hj => ?_, (h.owned.reorder order).discard cfg hold1⟩
    · obtain ⟨hnodup, hmem⟩ := h.ordered i
      rw [ho] at hnodup hmem
      rw [shards_modifyShard_self]
      refine ⟨(nodup_cons.mp hnodup).2, fun k => ?_⟩
      show k ∈ order ↔ k ∈ (c.shards i).buffers.erase key
      rw [mem_erase, ← hmem, mem_cons]
      have hnot := (nodup_cons.mp hnodup).1
      constructor
      · rintro hk
        exact ⟨fun heq => hnot (heq ▸ hk), .inr hk⟩
      · rintro ⟨hne, hk⟩
        exact hk.resolve_left hne
    · rw [shards_modifyShard_ne hj]
      exact h.ordered j

lemma Books.evictOver (h : Books c) (rounds : ℕ) : Books (c.evictOver cfg i rounds) := by
  induction rounds generalizing c with
  | zero => exact h
  | succ rounds ih =>
    unfold Cache.evictOver
    split_ifs
    · exact ih (h.evictFirst cfg)
    · exact h

/-- There is nothing to compact: every key of the order is stored. -/
lemma compact_shards (hord : (c.shards i).Ordered) : (c.compact i).shards = c.shards := by
  have hall : (c.shards i).order.filter (fun key => key ∈ (c.shards i).buffers) = (c.shards i).order :=
    filter_eq_self.mpr fun key hkey => decide_eq_true ((hord.2 key).mp hkey)
  refine update_eq_self_iff.mpr ?_
  dsimp only
  split_ifs
  · rw [hall]
  · rfl

/-- What the eviction of `Put` leaves in its shard: the youngest keys, with the
entries they had. -/
structure Evicted (i : Fin 32) (c c' : Cache) : Prop where
  suffix : (c'.shards i).order <:+ (c.shards i).order
  nonempty : (c.shards i).order ≠ [] → (c'.shards i).order ≠ []
  lookup : ∀ k ∈ (c'.shards i).order,
    (c'.shards i).buffers.lookup k = (c.shards i).buffers.lookup k

lemma evicted_evictFirst (hord : (c.shards i).Ordered) (hlen : 1 < (c.shards i).order.length) :
    Evicted i c (c.evictFirst cfg i) ∧
      ((c.evictFirst cfg i).shards i).order.length + 1 = (c.shards i).order.length := by
  cases ho : (c.shards i).order with
  | nil => simp [ho] at hlen
  | cons key order =>
    obtain ⟨old, -, heq⟩ := evictFirst_eq cfg hord ho
    have hshard : (c.evictFirst cfg i).shards i =
        { buffers := (c.shards i).buffers.erase key, order := order,
          total := (c.shards i).total - old.data.len } := by
      rw [heq, discard_shards, shards_modifyShard_self, shards_modifyShard_self]
    have hnodup := hord.1
    rw [ho] at hlen hnodup
    refine ⟨⟨?_, fun _ => ?_, fun k hk => ?_⟩, by rw [hshard]; rfl⟩
    · rw [hshard, ho]
      exact suffix_cons key order
    · rw [hshard]
      exact ne_nil_of_length_pos (by simpa using hlen)
    · rw [hshard] at hk ⊢
      exact lookup_erase_ne fun hkey => (nodup_cons.mp hnodup).1 (hkey ▸ hk)

/-- With a round for each key the loop ends within the budget or at one key. -/
lemma evictOver_spec (h : Books c) {rounds : ℕ} (hrounds : (c.shards i).order.length ≤ rounds) :
    Evicted i c (c.evictOver cfg i rounds) ∧
      ((c.evictOver cfg i rounds).used ≤ cfg.globalLimit ∨
        ((c.evictOver cfg i rounds).shards i).order.length ≤ 1) := by
  induction rounds generalizing c with
  | zero => exact ⟨⟨suffix_refl _, id, fun _ _ => rfl⟩, .inr (by simp [Cache.evictOver]; omega)⟩
  | succ rounds ih =>
    unfold Cache.evictOver
    split_ifs with hcond
    · obtain ⟨hfirst, hlen⟩ := evicted_evictFirst cfg (h.ordered i) hcond.2
      obtain ⟨hrest, hend⟩ := ih (h.evictFirst cfg (i := i)) (by omega)
      refine ⟨⟨hrest.suffix.trans hfirst.suffix, fun hne => hrest.nonempty (hfirst.nonempty hne),
        fun k hk => ?_⟩, hend⟩
      rw [hrest.lookup k hk, hfirst.lookup k (hrest.suffix.subset hk)]
    · refine ⟨⟨suffix_refl _, id, fun _ _ => rfl⟩, ?_⟩
      omega

section Writing

variable (shardOf : String → Fin 32) (now : ℤ) (p : String) (start last : ℤ) (d : List UInt8)

lemma Books.enterChunk (h : Books c) : Books (c.enterChunk cfg shardOf now p start last d) := by
  obtain ⟨hown, hloose⟩ := dataCopy_spec cfg h.owned d
  obtain ⟨hshards, hused⟩ := dataCopy_shards cfg (c := c) d
  exact (h.congr hshards hused hown).overwrite cfg hloose

lemma Books.compact (h : Books c) : Books (c.compact i) :=
  h.congr (compact_shards (h.ordered i)) rfl (h.owned.congr (compact_shards (h.ordered i)) rfl rfl)

theorem Books.put (h : Books c) : Books (c.put cfg shardOf now p start last d) :=
  ((h.enterChunk cfg shardOf now p start last d).evictOver cfg _).compact

/-- The chunk is in the cache after its `Put`, and alone in its shard if the
cache is over budget. -/
lemma put_spec (h : Books c) :
    let c' := c.put cfg shardOf now p start last d
    let shard := c'.shards (shardOf p)
    let key := c.chunkKey cfg p start
    (∃ b, shard.buffers.lookup key = some b ∧ b.start = start ∧ b.last = last ∧
      b.data.len = d.length) ∧
    (c'.used ≤ cfg.globalLimit ∨ shard.order = [key]) := by
  intro c' shard key
  set i := shardOf p
  set c1 := c.enterChunk cfg shardOf now p start last d with hc1
  have h1 : Books c1 := h.enterChunk cfg shardOf now p start last d
  obtain ⟨hshards, -⟩ := dataCopy_shards cfg (c := c) d
  obtain ⟨hev, hend⟩ := evictOver_spec cfg (i := i) h1 le_rfl
  have hc' : c'.shards = (c1.evictOver cfg i (c1.shards i).order.length).shards :=
    compact_shards ((h1.evictOver cfg _).ordered i)
  have hentered : c1.shards i =
      { order := (c.shards i).order.erase key ++ [key],
        total := (c.shards i).total - lenAt (c.shards i) key + d.length,
        buffers := (c.shards i).buffers.insert key ⟨start, last, (c.dataCopy cfg d).1, now,
          if p ≠ c.activePath then 0 else c.currentSessionID⟩ } := by
    have hord : ((c.dataCopy cfg d).2.shards i).Ordered := by
      rw [hshards]
      exact h.ordered i
    rw [hc1, Cache.enterChunk, overwrite_shards cfg hord, shards_modifyShard_self, hshards]
    simp only [dataCopy_len, key, i]
  have hsuffix : (c'.shards i).order <:+ (c.shards i).order.erase key ++ [key] := by
    rw [hc']
    exact hentered ▸ hev.suffix
  have hne : (c'.shards i).order ≠ [] := by
    rw [hc']
    exact hev.nonempty (by simp [hentered])
  -- the key entered last is the last one that remains
  have hlast : key ∈ (c'.shards i).order := by
    obtain ⟨pre, hpre⟩ := hsuffix
    have hmem := congrArg List.getLast? hpre
    rw [getLast?_append_of_ne_nil _ hne, getLast?_concat] at hmem
    exact mem_of_getLast? hmem
  refine ⟨⟨⟨start, last, (c.dataCopy cfg d).1, now,
    if p ≠ c.activePath then 0 else c.currentSessionID⟩, ?_, rfl, rfl, dataCopy_len cfg d⟩, ?_⟩
  · show (c'.shards i).buffers.lookup key = _
    rw [hc'] at hlast ⊢
    rw [hev.lookup key hlast, hentered]
    exact lookup_insert _
  · rw [show c'.used = (c1.evictOver cfg i (c1.shards i).order.length).used from rfl]
    refine hend.imp_right fun hlen => ?_
    show (c'.shards i).order = [key]
    rw [← hc'] at hlen
    obtain ⟨k, hk⟩ := length_eq_one_iff.mp
      (le_antisymm hlen (length_pos_of_ne_nil hne))
    rw [hk] at hlast ⊢
    rw [mem_singleton.mp hlast]

end Writing

/-! ### The pass over a shard -/

section Sweep

variable {now activeSessionID : ℤ} {activePath : String}

/-- A sweep discards the stale keys of the list and keeps the others. -/
structure Swept (i : Fin 32) (order : List String) (c c' : Cache) (kept : List String) : Prop where
  balanced : Balanced c'
  owned : Owned c'
  sublist : kept.Sublist order
  other : ∀ j, j ≠ i → c'.shards j = c.shards j
  mem : ∀ k, k ∈ (c'.shards i).buffers ↔ k ∈ (c.shards i).buffers ∧ (k ∈ order → k ∈ kept)

lemma swept_sweep {order : List String} (hbal : Balanced c) (hown : Owned c) (hnodup : order.Nodup) :
    Swept i order c (c.sweep cfg now activePath activeSessionID i order).1
      (c.sweep cfg now activePath activeSessionID i order).2 := by
  induction order generalizing c with
  | nil => exact ⟨hbal, hown, List.Sublist.refl _, fun _ _ => rfl, by simp [sweep]⟩
  | cons key order ih =>
    obtain ⟨hkey, hrest⟩ := nodup_cons.mp hnodup
    have hkeep : (key ∉ (c.shards i).buffers ∨ key ∉ order) →
        Swept i (key :: order) c (c.sweep cfg now activePath activeSessionID i order).1
          (key :: (c.sweep cfg now activePath activeSessionID i order).2) := by
      intro hcase
      have hs := ih hbal hown hrest
      refine ⟨hs.balanced, hs.owned, hs.sublist.cons_cons key, hs.other, fun k => ?_⟩
      rw [hs.mem k, mem_cons, mem_cons]
      by_cases hk : k = key
      · subst hk
        tauto
      · tauto
    unfold sweep
    cases hb : (c.shards i).buffers.lookup key with
    | none => exact hkeep (.inr hkey)
    | some b =>
      dsimp only
      split_ifs
      · have hs := ih (hbal.discard cfg hb) (hown.discard cfg hb) hrest
        refine ⟨hs.balanced, hs.owned, hs.sublist.cons key, fun j hj => ?_, fun k => ?_⟩
        · rw [hs.other j hj, discard_shards, shards_modifyShard_ne hj]
        have herase : k ∈ ((c.discard cfg i key b).shards i).buffers ↔
            k ≠ key ∧ k ∈ (c.shards i).buffers := by
          rw [discard_shards, shards_modifyShard_self]
          exact mem_erase
        rw [hs.mem k, herase, mem_cons]
        by_cases hk : k = key
        · subst hk
          have hnot := fun hmem => hkey (hs.sublist.subset hmem)
          tauto
        · tauto
      · exact hkeep (.inr hkey)

lemma Books.evictShard (h : Books c) :
    Books (c.evictShard cfg now activePath activeSessionID i) := by
  have hs : Swept i (c.shards i).order c
      (c.sweep cfg now activePath activeSessionID i (c.shards i).order).1
      (c.sweep cfg now activePath activeSessionID i (c.shards i).order).2 :=
    swept_sweep cfg h.balanced h.owned (h.ordered i).1
  set c1 := (c.sweep cfg now activePath activeSessionID i (c.shards i).order).1
  set kept := (c.sweep cfg now activePath activeSessionID i (c.shards i).order).2
  refine ⟨hs.balanced.reorder kept, forall_modify (c := c1) rfl ?_ fun j hj => ?_,
    hs.owned.reorder kept⟩
  · refine ⟨hs.sublist.nodup (h.ordered i).1, fun k => ?_⟩
    show k ∈ kept ↔ k ∈ (c1.shards i).buffers
    rw [hs.mem k, ← (h.ordered i).2 k]
    have hsub : k ∈ kept → k ∈ (c.shards i).order := fun hk => hs.sublist.subset hk
    tauto
  · rw [hs.other j hj]
    exact h.ordered j

theorem Books.triggerGlobalEviction {busy : Fin 32 → Bool} (h : Books c) :
    Books (c.triggerGlobalEviction cfg now activePath activeSessionID busy) := by
  have hfold : ∀ (is : List (Fin 32)) (c : Cache), Books c →
      Books (is.foldl (fun c i => c.evictShard cfg now activePath activeSessionID i) c) := by
    intro is
    induction is with
    | nil => exact fun _ hc => hc
    | cons i is ih => exact fun c hc => ih _ (hc.evictShard cfg)
  unfold Cache.triggerGlobalEviction
  split_ifs
  · exact h.evictShard cfg
  · exact hfold _ _ h

end Sweep

/-! ### Lookups and runs -/

lemma Books.touch {now : ℤ} (h : Books c) : Books (c.touch i key now) := by
  unfold Cache.touch
  cases hb : (c.shards i).buffers.lookup key with
  | none => exact h
  | some b =>
    have howner : (c.modifyShard i fun s =>
        { s with buffers := s.buffers.insert key { b with lastAccess := now } }).owner = c.owner := by
      refine (owner_modify key rfl (congrArg _ (lookup_insert _)) fun _ hk =>
        lookup_insert_ne hk).trans ?_
      show update c.owner (i, key) (some b.data.buf) = c.owner
      have hself : c.owner (i, key) = some b.data.buf := owner_eq_some.mpr ⟨b, hb, rfl⟩
      rw [← hself, update_eq_self]
    refine ⟨h.balanced.modify (i := i) (f := fun s =>
        { s with buffers := s.buffers.insert key { b with lastAccess := now } }) ?_ rfl
        (by simp [modifyShard]), forall_modify rfl ?_ fun j _ => h.ordered j,
      howner ▸ h.owned.exclusive, fun hx => h.owned.bound (howner ▸ hx), h.owned.pooled⟩
    · show (c.shards i).total = GoMap.sum _ ((c.shards i).buffers.insert key _)
      rw [stored_insert, lenAt, hb, map_some, getD_some, h.balanced.total i]
      exact (sub_add_cancel _ _).symm
    refine ⟨(h.ordered i).1, fun k => ?_⟩
    rw [mem_insert, (h.ordered i).2 k]
    have hkey : key ∈ (c.shards i).buffers := Writes.mem_iff.mpr ⟨_, hb⟩
    constructor
    · exact .inr
    · rintro (rfl | hk)
      · exact hkey
      · exact hk

section Runs

variable {shardOf : String → Fin 32} {l : Call}
variable {P : Cache → Prop} {p : String} {now off last : ℤ}

/-- A lookup changes times of access only. -/
lemma covered_preserves (hP : ∀ c i key now, P c → P (c.touch i key now))
    (h : P c) : P (c.covered cfg shardOf now p off last).2 := by
  unfold covered
  dsimp only
  cases (c.shards (shardOf p)).buffers.lookup (c.chunkKey cfg p off) with
  | none => exact h
  | some b =>
    dsimp only
    split_ifs
    · exact hP _ _ _ _ h
    · cases (c.shards (shardOf p)).buffers.lookup (c.chunkKey cfg p last) with
      | none => exact h
      | some b2 =>
        dsimp only
        split_ifs
        · exact hP _ _ _ _ (hP _ _ _ _ h)
        · exact h
    · exact h

lemma lookUp_preserves (hP : ∀ c i key now, P c → P (c.touch i key now)) (h : P c) {β : Type}
    {miss r : β} {one : List UInt8 → β} {two : List UInt8 → List UInt8 → β}
    (hlook : c.lookUp cfg shardOf miss one two now p off last = some (r, c')) : P c' := by
  unfold lookUp at hlook
  dsimp only at hlook
  cases hb : (c.shards (shardOf p)).buffers.lookup (c.chunkKey cfg p off) with
  | none =>
    rw [hb] at hlook
    cases hlook
    exact h
  | some b =>
    rw [hb] at hlook
    dsimp only at hlook
    split_ifs at hlook
    · obtain ⟨src, -, heq⟩ := map_eq_some_iff.mp hlook
      cases heq
      exact hP _ _ _ _ h
    · cases hb2 : (c.shards (shardOf p)).buffers.lookup (c.chunkKey cfg p last) with
      | none =>
        rw [hb2] at hlook
        cases hlook
        exact hP _ _ _ _ h
      | some b2 =>
        rw [hb2] at hlook
        dsimp only at hlook
        split_ifs at hlook
        · obtain ⟨src, -, hrest⟩ := bind_eq_some_iff.mp hlook
          obtain ⟨src2, -, heq⟩ := map_eq_some_iff.mp hrest
          cases heq
          exact hP _ _ _ _ (hP _ _ _ _ h)
        · cases hlook
          exact hP _ _ _ _ h
    · cases hlook
      exact h

theorem Books.step (h : Books c) (hstep : Step shardOf c l c') : Books c' := by
  obtain ⟨cfg, now, op⟩ := l
  cases op with
  | put p start last d =>
    cases hstep
    exact h.put cfg shardOf now p start last d
  | setPieceLen p pl =>
    cases hstep
    unfold setPieceLen
    split_ifs
    · exact h.congr rfl rfl (h.owned.congr rfl rfl rfl)
    · dsimp only
      split_ifs <;> exact h.congr rfl rfl (h.owned.congr rfl rfl rfl)
  | switchContext newPath =>
    cases hstep
    unfold switchContext
    split_ifs
    · exact h.congr rfl rfl (h.owned.congr rfl rfl rfl)
    · exact h
  | triggerGlobalEviction activePath activeSessionID busy =>
    cases hstep
    exact h.triggerGlobalEviction cfg
  | anchorPoolToConfig =>
    cases hstep
    have hempty : ∀ n, Books { c with pool := [], poolCap := n } := fun n =>
      h.congr rfl rfl ⟨⟨h.owned.exclusive.inj, nodup_nil, fun _ => not_mem_nil⟩,
        h.owned.bound, fun hmem => absurd hmem not_mem_nil⟩
    unfold anchorPoolToConfig
    dsimp only
    split
    · exact h
    · exact hempty _
  | covered p off last =>
    cases hstep
    exact covered_preserves cfg (fun _ _ _ _ hc => hc.touch) h
  | get p off last =>
    obtain ⟨⟨r, c1⟩, hget, rfl⟩ := map_eq_some_iff.mp hstep
    exact lookUp_preserves cfg (fun _ _ _ _ hc => hc.touch) h hget
  | copyTo p off last dest =>
    obtain ⟨⟨r, c1⟩, hcopy, rfl⟩ := map_eq_some_iff.mp hstep
    exact lookUp_preserves cfg (fun _ _ _ _ hc => hc.touch) h hcopy

/-- After every run of calls the counters agree with the chunks, every order
list with its map, and no array has two owners; and a further `Put` ends within
the budget or alone in its shard. -/
theorem books_kept_by_every_run {ls : List Call}
    (hrun : Run (Step shardOf) newReadAheadCache ls c) :
    c.used = ∑ i, (c.shards i).total ∧
    c.used = ∑ i, (c.shards i).stored ∧
    (∀ i, (c.shards i).order.Nodup ∧
      ∀ key, key ∈ (c.shards i).order ↔ key ∈ (c.shards i).buffers) ∧
    (∀ i j key key' b b', (c.shards i).buffers.lookup key = some b →
      (c.shards j).buffers.lookup key' = some b' → b.data.buf = b'.data.buf → i = j ∧ key = key') ∧
    (∀ i key b, (c.shards i).buffers.lookup key = some b → b.data.buf ∉ c.pool) ∧
    c.pool.Nodup ∧
    ∀ cfg now p start last d,
      let c' := c.put cfg shardOf now p start last d
      (∃ b, (c'.shards (shardOf p)).buffers.lookup (c.chunkKey cfg p start) = some b ∧
        b.start = start ∧ b.last = last ∧ b.data.len = d.length) ∧
      (c'.used ≤ cfg.globalLimit ∨
        ∀ key, key ∈ (c'.shards (shardOf p)).buffers ↔ key = c.chunkKey cfg p start) := by
  have h : Books c := hrun.invariant (fun _ _ _ hc hstep => hc.step hstep) books_newReadAheadCache
  have hown : ∀ {i key b}, (c.shards i).buffers.lookup key = some b →
      c.owner (i, key) = some b.data.buf := fun hb => owner_eq_some.mpr ⟨_, hb, rfl⟩
  refine ⟨h.balanced.used, ?_, h.ordered, fun i j key key' b b' hb hb' hbuf => ?_,
    fun i key b hb => h.owned.exclusive.apart (hown hb), h.owned.exclusive.nodup,
    fun cfg now p start last d => ?_⟩
  · rw [h.balanced.used]
    exact Finset.sum_congr rfl fun i _ => h.balanced.total i
  · exact Prod.mk.inj (h.owned.exclusive.inj (hown hb) (hbuf ▸ hown hb'))
  · obtain ⟨hchunk, hend⟩ := put_spec cfg shardOf now p start last d h
    refine ⟨hchunk, hend.imp_right fun hlone key => ?_⟩
    rw [← ((h.put cfg shardOf now p start last d).ordered (shardOf p)).2 key, hlone,
      mem_singleton]

/-- Chunks of four bytes under a budget of six, all in one shard. -/
def fourByteChunks : List Call :=
  [⟨⟨4, 6⟩, 0, .put "/tv/a.mkv" 0 3 [1, 2, 3, 4]⟩, ⟨⟨4, 6⟩, 1, .put "/tv/a.mkv" 4 7 [5, 6, 7, 8]⟩,
   ⟨⟨4, 6⟩, 2, .put "/tv/a.mkv" 4 7 [5, 6, 7, 8]⟩, ⟨⟨4, 6⟩, 3, .switchContext "/tv/b.mkv"⟩,
   ⟨⟨4, 6⟩, 4, .put "/tv/b.mkv" 0 3 [9, 9, 9, 9]⟩]

def fourByteCache : Option Cache := fourByteChunks.foldlM (step fun _ => 0) newReadAheadCache

theorem books_of_four_byte_chunks :
    ∃ c, fourByteCache = some c ∧ c.used = 4 ∧ (c.shards 0).order = ["/tv/b.mkv:0"] ∧
      c.pool = [0] ∧ c.used = ∑ i, (c.shards i).stored := by
  obtain ⟨c, hc, hused, horder, hpool⟩ : ∃ c ∈ fourByteCache, c.used = 4 ∧
      (c.shards 0).order = ["/tv/b.mkv:0"] ∧ c.pool = [0] := by decide +kernel
  exact ⟨c, hc, hused, horder, hpool, (books_kept_by_every_run (run_of_foldlM hc)).2.1⟩

end Runs

end Cache

end Tiramisu.ReadAhead
