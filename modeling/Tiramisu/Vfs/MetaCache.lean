import Tiramisu.Cache.Lru
import Tiramisu.Lib.Outline
import Tiramisu.Vfs.InodeMap

/-!
# The metadata cache and removed stubs

`getOrReadMeta` reads a stub and stores what it parsed in two steps, under a
lock that removals do not take.  A removal deletes the file and then the cached
metadata.  A reader that has read the stub before its removal can store it
after the deletion, and the entry stays for the life of the cache entry.
-/

namespace Tiramisu.Vfs.MetaCache

open Cache Protocol Program Transition Function

/-- `vfs.Metadata` as `getOrReadMeta` fills it; the time of the file is a number. -/
structure Metadata where
  url : String
  path : String
  imdbID : String
  size : ℤ
  mtime : ℤ
  externalID : String
  externalIDNamespace : String
  audio : Bool
  deriving DecidableEq

def approximateMetadataSize (m : Metadata) : ℤ :=
  m.url.utf8ByteSize + m.path.utf8ByteSize + 8 + 24 + 64

/-- `LRUCache`: the shards of the cache. -/
abbrev LRUCache := Fin 32 → SimpleLRUCache Metadata

namespace LRUCache

variable (H : Hashing)

def find (c : LRUCache) (key : String) : Option (CacheEntry Metadata) :=
  (c (InodeMap.shardIndex H key)).find key

/-- Replace the shard of a key. -/
def onShard (c : LRUCache) (key : String)
    (f : SimpleLRUCache Metadata → SimpleLRUCache Metadata) : LRUCache :=
  update c (InodeMap.shardIndex H key) (f (c (InodeMap.shardIndex H key)))

variable {H} {c : LRUCache} {key k : String}
  {f : SimpleLRUCache Metadata → SimpleLRUCache Metadata}

lemma find_onShard (h : c.find H k = none)
    (hf : ∀ s : SimpleLRUCache Metadata, s.find k = none → (f s).find k = none) :
    (c.onShard H key f).find H k = none := by
  unfold find onShard
  by_cases hs : InodeMap.shardIndex H k = InodeMap.shardIndex H key
  · rw [hs, update_self]
    apply hf
    rw [← hs]
    exact h
  · rw [update_of_ne hs]
    exact h

lemma find_onShard_self (hf : ∀ s : SimpleLRUCache Metadata, (f s).find key = none) :
    (c.onShard H key f).find H key = none := by
  unfold find onShard
  rw [update_self]
  exact hf _

end LRUCache

/-! ### Readers and removals -/

/-- `files` is what parsing each stub gives, `holding` the readers that have read
a stub and not yet stored it, `removed` the stubs whose removal has completed. -/
structure World where
  files : String → Option Metadata
  cache : LRUCache
  locks : String → Option ℕ
  holding : Finset (ℕ × String)
  removed : Finset String

/-- What `Get` finds under the read lock. -/
inductive Lookup
  | absent
  | expired
  | hit (value : Metadata) (promote : Bool)

/-- `peek` to `promote` are the critical sections of `Get`. -/
inductive Op
  | peek (key : String)
  | dropExpired (key : String)
  | promote (key : String)
  | lock (path : String)
  | unlock (path : String)
  | readMetadata (path : String)
  | put (path : String) (m : Metadata)
  | remove (path : String)
  | deleteMeta (path : String)

abbrev Op.Res : Op → Type
  | peek _ => Lookup
  | readMetadata _ => Option Metadata
  | remove _ => Bool
  | _ => Unit

/-- The clock, in seconds, and a failing file operation. -/
structure Choice where
  now : ℤ
  fails : Bool

variable (H : Hashing)

/-- One operation of party `i`. -/
def exec (i : ℕ) : (o : Op) → Choice → World → Option (o.Res × World)
  | .peek key, c, w =>
    match w.cache.find H key with
    | none => some (.absent, w)
    | some e =>
      if e.expiresAt < c.now then some (.expired, w)
      else some (.hit e.value (decide (10 < c.now - e.lastPromoted)), w)
  | .dropExpired key, _, w =>
    some ((), { w with cache := w.cache.onShard H key fun s => (s.delete key).1 })
  | .promote key, c, w =>
    some ((), { w with cache := w.cache.onShard H key fun s => s.promote key c.now })
  | .lock path, _, w =>
    if w.locks path = none then
      some ((), { w with locks := update w.locks path (some i) })
    else none
  | .unlock path, _, w => some ((), { w with locks := update w.locks path none })
  | .readMetadata path, c, w =>
    match if c.fails then none else w.files path with
    | none => some (none, w)
    | some m => some (some m, { w with holding := insert (i, path) w.holding })
  | .put path m, c, w =>
    some ((), { w with
      cache := w.cache.onShard H path fun s => s.put path m (approximateMetadataSize m) c.now
      holding := w.holding.erase (i, path) })
  | .remove path, c, w =>
    if c.fails ∨ w.files path = none then some (false, w)
    else some (true, { w with files := update w.files path none })
  | .deleteMeta path, _, w =>
    some ((), { w with
      cache := w.cache.onShard H path fun s => (s.delete path).1
      removed := insert path w.removed })

def machine (i : ℕ) : Machine Op Op.Res Choice World := ⟨exec H i⟩

abbrev Prog := Program Op Op.Res

abbrev op (o : Op) : Prog o.Res := Program.op o

/-- `Get`. -/
def get (key : String) : Prog (Option Metadata) := do
  match ← op (.peek key) with
  | .absent => return none
  | .expired =>
    op (.dropExpired key)
    return none
  | .hit value promote =>
    if promote then
      op (.promote key)
      return some value
    else return some value

/-- The part of `getOrReadMeta` under the lock of the path. -/
def readLocked (path : String) : Prog (Option Metadata) := do
  match ← get path with
  | some m => return some m
  | none =>
    match ← op (.readMetadata path) with
    | none => return none
    | some m =>
      op (.put path m)
      return some m

def getOrReadMeta (path : String) : Prog (Option Metadata) := do
  match ← get path with
  | some m => return some m
  | none =>
    op (.lock path)
    let m ← readLocked path
    op (.unlock path)
    return m

/-- `Unlink`, or a removal by the sync engines with `invalidateSyncRemovedPath`:
a failed `os.Remove` ends it. -/
def removeStub (path : String) : Prog Bool := do
  if ← op (.remove path) then
    op (.deleteMeta path)
    return true
  else return false

inductive Task
  | getOrReadMeta (path : String)
  | removeStub (path : String)
  deriving DecidableEq

/-- Readers end with whether they found metadata. -/
def Task.program : Task → Prog Bool
  | getOrReadMeta path => do
      let m ← MetaCache.getOrReadMeta path
      return m.isSome
  | removeStub path => MetaCache.removeStub path

def metaSystem : System Op Op.Res Choice World where
  machine := machine H
  leave _ w := w

def together (files : String → Option Metadata) (cache : LRUCache) (tasks : List Task) :
    Config Op Op.Res Bool World :=
  ⟨tasks.map Task.program, ⟨files, cache, fun _ => none, ∅, ∅⟩⟩

/-- No reader stands between its read of a stub and its store when the cached
metadata of the stub is deleted. -/
def noReaderHolds : Op → Choice → World → Prop
  | .deleteMeta path, _, w => ∀ x ∈ w.holding, x.2 ≠ path
  | _, _, _ => True

instance (o : Op) (c : Choice) (w : World) : Decidable (noReaderHolds o c w) := by
  unfold noReaderHolds
  split <;> infer_instance

/-! ### Where a party stands -/

inductive Stand
  | free
  | holds (path : String)
  | unlinked (path : String)
  | done (path : String)

inductive Follows : Stand → (o : Op) → o.Res → Stand → Prop
  | peek (key r) : Follows .free (.peek key) r .free
  | dropExpired (key) : Follows .free (.dropExpired key) () .free
  | promote (key) : Follows .free (.promote key) () .free
  | lock (path) : Follows .free (.lock path) () .free
  | unlock (path) : Follows .free (.unlock path) () .free
  | unread (path) : Follows .free (.readMetadata path) none .free
  | read (path m) : Follows .free (.readMetadata path) (some m) (.holds path)
  | put (path m) : Follows (.holds path) (.put path m) () .free
  | failed (path) : Follows .free (.remove path) false .free
  | removed (path) : Follows .free (.remove path) true (.unlinked path)
  | deleteMeta (path) : Follows (.unlinked path) (.deleteMeta path) () (.done path)

abbrev Settles {α : Type} (p : Prog α) : Prop := Outline Follows (fun _ t => t = .free) .free p

lemma settles_get (key : String) : Settles (get key) := by
  refine outline_perform fun r => ⟨_, .peek _ _, ?_⟩
  cases r with
  | absent => rfl
  | expired => exact outline_always (fun _ => .dropExpired _) fun _ => rfl
  | hit value promote =>
    cases promote with
    | false => rfl
    | true => exact outline_always (fun _ => .promote _) fun _ => rfl

lemma settles_readLocked (path : String) : Settles (readLocked path) := by
  refine (settles_get path).bind fun m t ht => ?_
  rw [ht]
  cases m with
  | some m => rfl
  | none =>
    refine outline_perform fun m => ?_
    cases m with
    | none => exact ⟨_, .unread _, rfl⟩
    | some m => exact ⟨_, .read _ _, outline_always (fun _ => .put _ _) fun _ => rfl⟩

lemma settles_getOrReadMeta (path : String) : Settles (getOrReadMeta path) := by
  refine (settles_get path).bind fun m t ht => ?_
  rw [ht]
  cases m with
  | some m => rfl
  | none =>
    refine outline_always (fun _ => .lock _) fun _ => ?_
    refine (settles_readLocked path).bind fun m t ht => ?_
    rw [ht]
    exact outline_always (fun _ => .unlock _) fun _ => rfl

lemma outline_removeStub (path : String) :
    Outline Follows (fun ok t => ok = true → t = .done path) .free (removeStub path) := by
  refine outline_perform fun ok => ?_
  cases ok with
  | false => exact ⟨_, .failed _, fun h => by cases h⟩
  | true =>
    refine ⟨_, .removed _, ?_⟩
    exact outline_always (fun _ => .deleteMeta _) fun _ => fun _ => rfl

lemma outline_program (task : Task) :
    Outline Follows (fun ok t => ∀ path, task = .removeStub path → ok = true → t = .done path)
      .free task.program := by
  cases task with
  | getOrReadMeta path =>
    refine (settles_getOrReadMeta path).bind fun m t _ => ?_
    exact fun p hp => by cases hp
  | removeStub path =>
    refine (outline_removeStub path).mono fun ok t ht p hp => ?_
    cases hp
    exact ht

/-! ### Removed stubs stay out of the cache -/

/-- A removed stub is neither on disk nor in the cache nor in a reader's hands. -/
structure Gone (H : Hashing) (w : World) (path : String) : Prop where
  file : w.files path = none
  cached : w.cache.find H path = none
  held : ∀ i, (i, path) ∉ w.holding

def RemovedGone (H : Hashing) (w : World) : Prop := ∀ path ∈ w.removed, Gone H w path

/-- What party `i` counts on. -/
structure Respects (i : ℕ) (w w' : World) : Prop where
  own : ∀ path, (i, path) ∈ w'.holding ↔ (i, path) ∈ w.holding
  files : ∀ path, w.files path = none → w'.files path = none
  removed : w.removed ⊆ w'.removed

variable {H} {i : ℕ} {w w' w'' u : World}

lemma Respects.refl (i : ℕ) (w : World) : Respects i w w :=
  ⟨fun _ => Iff.rfl, fun _ => id, Finset.Subset.refl _⟩

lemma Respects.trans (h : Respects i w w') (h' : Respects i w' w'') : Respects i w w'' :=
  ⟨fun p => (h'.own p).trans (h.own p), fun p hp => h'.files p (h.files p hp),
    h.removed.trans h'.removed⟩

def Sees (i : ℕ) : Stand → World → Prop
  | .free, _ => True
  | .holds path, w => (i, path) ∈ w.holding
  | .unlinked path, w => w.files path = none
  | .done path, w => path ∈ w.removed

lemma Sees.stable {t : Stand} (h : Sees i t w) (hr : Respects i w w') : Sees i t w' := by
  cases t with
  | free => trivial
  | holds path => exact (hr.own path).mpr h
  | unlinked path => exact hr.files path h
  | done path => exact hr.removed h

def metaParties (H : Hashing) (tasks : List Task) : Parties (metaSystem H) Bool where
  inv := RemovedGone H
  ok := noReaderHolds
  rely := Respects
  post i ok w := ∀ path, tasks[i]? = some (.removeStub path) → ok = true → path ∈ w.removed
  rely_refl := Respects.refl
  rely_trans _ := Respects.trans
  leave_inv _ _ h := h
  leave_rely _ j w _ _ := Respects.refl j w
  leave_post _ _ _ h := h

/-- Where a step of party `i` ends up. -/
structure Settled (H : Hashing) (i : ℕ) (t : Stand) (w u : World) : Prop where
  inv : RemovedGone H u
  respects : ∀ j, j ≠ i → Respects j w u
  sees : Sees i t u

lemma settled_same {t : Stand} (hw : RemovedGone H w) (ht : Sees i t w) : Settled H i t w w :=
  ⟨hw, fun j _ => .refl j w, ht⟩

/-- An operation on the cache that brings no key in. -/
lemma settled_cache {c : LRUCache} (hw : RemovedGone H w)
    (hc : ∀ k, w.cache.find H k = none → c.find H k = none) :
    Settled H i .free w { w with cache := c } := by
  refine ⟨fun path hp => ?_, fun j _ => ?_, trivial⟩
  · obtain ⟨hf, hcached, hheld⟩ := hw path hp
    exact ⟨hf, hc path hcached, hheld⟩
  · exact ⟨fun _ => Iff.rfl, fun _ => id, Finset.Subset.refl _⟩

lemma settled_locks {locks : String → Option ℕ} (hw : RemovedGone H w) :
    Settled H i .free w { w with locks := locks } :=
  ⟨fun path hp => ⟨(hw path hp).file, (hw path hp).cached, (hw path hp).held⟩,
    fun _ _ => ⟨fun _ => Iff.rfl, fun _ => id, Finset.Subset.refl _⟩, trivial⟩

lemma settled_step {t t' : Stand} {o : Op} {r : o.Res} {c : Choice} (hf : Follows t o r t')
    (hok : noReaderHolds o c w) (hw : RemovedGone H w) (ht : Sees i t w)
    (hex : exec H i o c w = some (r, u)) : Settled H i t' w u := by
  cases hf with
  | peek key r =>
    simp only [exec] at hex
    split at hex
    · cases hex
      exact settled_same hw ht
    · split_ifs at hex <;>
      · cases hex
        exact settled_same hw ht
  | dropExpired key =>
    cases hex
    exact settled_cache hw fun k hk =>
      LRUCache.find_onShard hk fun _ => SimpleLRUCache.find_delete
  | promote key =>
    cases hex
    exact settled_cache hw fun k hk =>
      LRUCache.find_onShard hk fun _ => SimpleLRUCache.find_promote c.now
  | lock path =>
    simp only [exec] at hex
    split_ifs at hex
    cases hex
    exact settled_locks hw
  | unlock path =>
    cases hex
    exact settled_locks hw
  | unread path =>
    simp only [exec] at hex
    split at hex
    · cases hex
      exact settled_same hw ht
    · cases hex
  | read path m =>
    simp only [exec] at hex
    split at hex
    · cases hex
    rename_i m' hread
    cases hex
    -- a stub that can be read has not been removed
    have hpath : path ∉ w.removed := by
      intro hp
      rw [(hw path hp).file, ite_self] at hread
      cases hread
    refine ⟨fun p hp => ?_, fun j hj => ?_, Finset.mem_insert_self _ _⟩
    · obtain ⟨hf, hcached, hheld⟩ := hw p hp
      have hne : p ≠ path := fun heq => hpath (heq ▸ hp)
      exact ⟨hf, hcached, fun j => by simp [hne, hheld j]⟩
    · exact ⟨fun p => by simp [hj], fun _ => id, Finset.Subset.refl _⟩
  | put path m =>
    cases hex
    have hpath : path ∉ w.removed := fun hp => (hw path hp).held i ht
    refine ⟨fun p hp => ?_, fun j hj => ?_, trivial⟩
    · obtain ⟨hf, hcached, hheld⟩ := hw p hp
      have hne : path ≠ p := fun heq => hpath (heq ▸ hp)
      refine ⟨hf, ?_, fun j hj => hheld j (Finset.mem_of_mem_erase hj)⟩
      exact LRUCache.find_onShard hcached fun _ hs => SimpleLRUCache.find_put hs hne
    · exact ⟨fun p => by simp [hj], fun _ => id, Finset.Subset.refl _⟩
  | failed path =>
    simp only [exec] at hex
    split_ifs at hex
    · cases hex
      exact settled_same hw ht
    · simp at hex
  | removed path =>
    simp only [exec] at hex
    split_ifs at hex
    · simp at hex
    obtain rfl : { w with files := update w.files path none } = u := by simpa using hex
    have hfile : ∀ p, w.files p = none → update w.files path none p = none := by
      intro p hp
      by_cases heq : p = path
      · simp [heq]
      · simp [heq, hp]
    refine ⟨fun p hp => ?_, fun j _ => ⟨fun _ => Iff.rfl, hfile, Finset.Subset.refl _⟩,
      update_self _ _ _⟩
    exact ⟨hfile p (hw p hp).file, (hw p hp).cached, (hw p hp).held⟩
  | deleteMeta path =>
    cases hex
    refine ⟨fun p hp => ?_, fun j _ => ?_, Finset.mem_insert_self _ _⟩
    · by_cases heq : p = path
      · subst heq
        refine ⟨ht, ?_, fun j hj => hok _ hj rfl⟩
        exact LRUCache.find_onShard_self fun _ => SimpleLRUCache.find_delete_self
      · obtain ⟨hf, hcached, hheld⟩ := hw p ((Finset.mem_insert.mp hp).resolve_left heq)
        refine ⟨hf, ?_, hheld⟩
        exact LRUCache.find_onShard hcached fun _ => SimpleLRUCache.find_delete
    · exact ⟨fun _ => Iff.rfl, fun _ => id, Finset.subset_insert _ _⟩

/-- If no reader holds the stub it has read when the metadata of the stub is
deleted, the cache has no entry for a stub once its removal has completed. -/
theorem removed_stub_is_not_cached (H : Hashing) (files : String → Option Metadata)
    (cache : LRUCache) (tasks : List Task) (ls : List (ℕ × Move Choice))
    (cfg : Config Op Op.Res Bool World)
    (hrun : Run (Guarded (Allowed noReaderHolds) (metaSystem H).Step) (together files cache tasks)
      ls cfg) (i : ℕ) (path : String) (htask : tasks[i]? = some (.removeStub path))
    (hdone : cfg.procs[i]? = some (.ret true)) : cfg.state.cache.find H path = none := by
  have hvalid : (metaParties H tasks).Valid (together files cache tasks) := by
    refine Parties.valid_of_outlines Sees (fun p hp => by simp at hp) outline_program Sees.stable
      (fun hf hok hw ht hex => ?_) (fun _ => trivial) ?_
    · have hstep := settled_step hf hok hw ht hex
      exact ⟨hstep.inv, hstep.respects, hstep.sees⟩
    · intro i task ok t v htask ht hsees path hpath hok
      rw [ht path (Option.some.inj (htask.symm.trans hpath)) hok] at hsees
      exact hsees
  have hend := hvalid.run hrun
  exact (hend.inv path (hend.post hdone path htask rfl)).cached

/-! ### A reader that comes back -/

def film : Metadata := ⟨"http://stream?link=0123&index=1", "/tv/a.mkv", "", 100, 1, "", "", false⟩

def emptyCache : LRUCache := fun _ => ⟨1000, 86400, 0, [], List.nodup_nil⟩

/-- One reader of a stub and its removal. -/
def readAndRemove : Config Op Op.Res Bool World :=
  together (fun _ => some film) emptyCache [.getOrReadMeta "/tv/a.mkv", .removeStub "/tv/a.mkv"]

def turns (i k : ℕ) : List (ℕ × Move Choice) := List.replicate k (i, .act ⟨5, false⟩)

def readThenRemoveEnd : Option (Config Op Op.Res Bool World) :=
  runSchedule (metaSystem InodeMap.sharedPackHashing) noReaderHolds readAndRemove
    (turns 0 6 ++ turns 1 2)

/-- A removal after the reader has finished leaves nothing in the cache. -/
theorem removal_after_read_clears_cache :
    ∃ cfg, readThenRemoveEnd = some cfg ∧
      cfg.state.cache.find InodeMap.sharedPackHashing "/tv/a.mkv" = none := by
  obtain ⟨cfg, hcfg, hres⟩ : ∃ cfg ∈ readThenRemoveEnd,
      (cfg.procs[1]?).bind Program.result? = some true := by decide +kernel
  obtain ⟨p, hp, hret⟩ := Option.bind_eq_some_iff.mp hres
  refine ⟨cfg, hcfg, ?_⟩
  refine removed_stub_is_not_cached _ _ _ _ _ _ (run_of_runSchedule hcfg) 1 "/tv/a.mkv" rfl ?_
  rw [hp, eq_ret_of_result? hret]

/-- The reader has read the stub when it is removed, and stores it afterwards. -/
def lateStoreSchedule : List (ℕ × Move Choice) := turns 0 4 ++ turns 1 2 ++ turns 0 2

def lateStoreEnd : Option (Config Op Op.Res Bool World) :=
  runSchedule (metaSystem InodeMap.sharedPackHashing) (fun _ _ _ => True) readAndRemove
    lateStoreSchedule

theorem late_store_leaves_removed_stub :
    ∃ cfg, Run (metaSystem InodeMap.sharedPackHashing).Step readAndRemove lateStoreSchedule cfg ∧
      cfg.procs.map Program.result? = [some true, some true] ∧
      cfg.state.files "/tv/a.mkv" = none ∧
      (cfg.state.cache.find InodeMap.sharedPackHashing "/tv/a.mkv").map CacheEntry.value
        = some film := by
  refine exists_run_of_runSchedule (?_ : ∃ cfg ∈ lateStoreEnd, _)
  decide +kernel

end Tiramisu.Vfs.MetaCache
