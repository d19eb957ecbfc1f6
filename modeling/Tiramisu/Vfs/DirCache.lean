import Mathlib.Data.Finset.Basic
import Tiramisu.Go.Maps
import Tiramisu.Lib.Outline

/-!
# The cache of directory listings

A reader that misses the cache notes the generation of the directory, reads
the directory and stores the listing if the generation has not moved.  Whoever
changes a directory deletes its entry afterwards, which moves the generation.
A listing read before a change is therefore either refused or deleted.
-/

namespace Tiramisu.Vfs.Listing

open Go Protocol Program Transition Finset

/-- An entry as `os.ReadDir` returns it. -/
structure RawEntry where
  name : String
  isDir : Bool
  deriving DecidableEq

/-- `fuse.DirEntry`; the mode is that of a directory or of a regular file. -/
structure DirEntry where
  name : String
  isDir : Bool
  ino : UInt64
  off : ℕ
  deriving DecidableEq

structure DirCacheEntry where
  entries : List DirEntry
  expiresAt : ℤ
  deriving DecidableEq

/-- The counters of `generations` are never driven around their 64 bits. -/
structure DirCache where
  cache : GoMap String DirCacheEntry
  generations : GoMap String ℕ

namespace DirCache

def newDirCache : DirCache := ⟨∅, ∅⟩

def generation (dc : DirCache) (path : String) : ℕ := (dc.generations.lookup path).getD 0

def putLocked (dc : DirCache) (path : String) (entries : List DirEntry) (expiresAt : ℤ) :
    DirCache :=
  { dc with cache := dc.cache.insert path ⟨entries, expiresAt⟩ }

def putIfGeneration (dc : DirCache) (path : String) (entries : List DirEntry) (generation : ℕ)
    (expiresAt : ℤ) : DirCache × Bool :=
  if dc.generation path ≠ generation then (dc, false)
  else (dc.putLocked path entries expiresAt, true)

def delete (dc : DirCache) (path : String) : DirCache where
  cache := dc.cache.erase path
  generations := dc.generations.insert path (dc.generation path + 1)

/-- `CleanupExpired`. -/
def cleanupExpired (dc : DirCache) (now : ℤ) : DirCache :=
  { dc with
    cache := dc.cache.entries.foldl (fun m e => if e.2.expiresAt < now then m.erase e.1 else m)
      dc.cache }

variable (dc : DirCache) (p q : String)

lemma generation_delete :
    (dc.delete p).generation q = if q = p then dc.generation p + 1 else dc.generation q := by
  by_cases hq : q = p
  · subst hq
    simp [delete, generation]
  · simp [delete, generation, hq, AList.lookup_insert_ne]

lemma lookup_delete :
    (dc.delete p).cache.lookup q = if q = p then none else dc.cache.lookup q := by
  by_cases hq : q = p
  · subst hq
    simp [delete]
  · simp [delete, hq, AList.lookup_erase_ne]

lemma lookup_putLocked (es : List DirEntry) (t : ℤ) :
    (dc.putLocked p es t).cache.lookup q = if q = p then some ⟨es, t⟩ else dc.cache.lookup q := by
  by_cases hq : q = p
  · subst hq
    simp [putLocked]
  · simp [putLocked, hq, AList.lookup_insert_ne]

/-- A clean-up adds nothing. -/
lemma lookup_of_cleanupExpired {now : ℤ} {e : DirCacheEntry}
    (h : (dc.cleanupExpired now).cache.lookup p = some e) : dc.cache.lookup p = some e := by
  have hfold : ∀ (es : List (Sigma fun _ : String => DirCacheEntry)) (m : GoMap String DirCacheEntry),
      (es.foldl (fun m e => if e.2.expiresAt < now then m.erase e.1 else m) m).lookup p = some e →
      m.lookup p = some e := by
    intro es
    induction es with
    | nil => exact fun m h => h
    | cons x es ih =>
      intro m h
      have hm : (if x.2.expiresAt < now then m.erase x.1 else m).lookup p = some e := ih _ h
      split_ifs at hm
      · exact (Writes.of_erase hm).2
      · exact hm
  exact hfold _ _ h

end DirCache

/-! ### Readers and mutators -/

/-- `pending` records the directories each party has changed and not yet
deleted from the cache. -/
structure World where
  content : String → List RawEntry
  dc : DirCache
  pending : Finset (ℕ × String)

inductive Op
  | find (path : String)
  | now
  | delete (path : String)
  | generation (path : String)
  | readDir (path : String)
  | inode (fullPath : String) (isDir : Bool)
  | putIfGeneration (path : String) (entries : List DirEntry) (generation : ℕ)
  | cleanupExpired
  | change (path : String)

abbrev Op.Res : Op → Type
  | find _ => Option DirCacheEntry
  | now => ℤ
  | generation _ => ℕ
  | readDir _ => Option (List RawEntry)
  | inode _ _ => UInt64
  | putIfGeneration _ _ _ => Bool
  | _ => Unit

/-- The clock, a failing read, the inode map's answer and what a change makes of
a directory. -/
structure Choice where
  now : ℤ
  fails : Bool
  ino : UInt64
  content : List RawEntry

/-- One operation of party `i`; `ttl` is the life of an entry. -/
def exec (ttl : ℤ) (i : ℕ) : (o : Op) → Choice → World → Option (o.Res × World)
  | .find path, _, w => some (w.dc.cache.lookup path, w)
  | .now, c, w => some (c.now, w)
  | .delete path, _, w =>
    some ((), { w with
      dc := w.dc.delete path
      pending := w.pending.erase (i, path) })
  | .generation path, _, w => some (w.dc.generation path, w)
  | .readDir path, c, w => some (if c.fails then none else some (w.content path), w)
  | .inode _ _, c, w => some (c.ino, w)
  | .putIfGeneration path entries g, c, w =>
    let put := w.dc.putIfGeneration path entries g (c.now + ttl)
    some (put.2, { w with dc := put.1 })
  | .cleanupExpired, c, w => some ((), { w with dc := w.dc.cleanupExpired c.now })
  | .change path, c, w =>
    some ((), { w with
      content := Function.update w.content path c.content
      pending := insert (i, path) w.pending })

def machine (ttl : ℤ) (i : ℕ) : Machine Op Op.Res Choice World := ⟨exec ttl i⟩

abbrev Prog := Program Op Op.Res

abbrev op (o : Op) : Prog o.Res := Program.op o

/-- The source root, whose `Readdir` lists every entry, and the classification
of the other paths (`classifyVFSPath(..).Stub`). -/
structure Tree where
  root : String
  stub : String → Bool

variable (T : Tree)

/-- The entries a listing shows. -/
def Tree.visible (path : String) (e : RawEntry) : Bool :=
  path = T.root || e.isDir || T.stub (path ++ "/" ++ e.name)

/-- The loop over the entries of a directory; the offset counts all of them. -/
def fill (path : String) : ℕ → List RawEntry → List DirEntry → Prog (List DirEntry)
  | _, [], result => return result
  | i, e :: es, result =>
    if T.visible path e then do
      let ino ← op (.inode (path ++ "/" ++ e.name) e.isDir)
      fill path (i + 1) es (result ++ [⟨e.name, e.isDir, ino, i + 1⟩])
    else fill path (i + 1) es result

/-- `Readdir` after a miss. -/
def readMiss (path : String) : Prog Unit := do
  let generation ← op (.generation path)
  match ← op (.readDir path) with
  | none => return ()
  | some entries =>
    let result ← fill T path 0 entries []
    let _ ← op (.putIfGeneration path result generation)
    return ()

/-- `Readdir`; an expired entry is deleted by `Get` and counts as a miss. -/
def readdir (path : String) : Prog Unit := do
  match ← op (.find path) with
  | none => readMiss T path
  | some entry =>
    let now ← op .now
    if entry.expiresAt < now then
      op (.delete path)
      readMiss T path
    else return ()

def changeAll : List String → Prog Unit
  | [] => return ()
  | path :: paths => do
      op (.change path)
      changeAll paths

def deleteAll : List String → Prog Unit
  | [] => return ()
  | path :: paths => do
      op (.delete path)
      deleteAll paths

/-- `Unlink` changes one directory and deletes its listing; a change by the sync
engines is followed by `invalidateSyncRemovedPath`, which deletes the listings
of the directory, of its ancestors and of the path itself. -/
def mutate (changed others : List String) : Prog Unit := do
  changeAll changed
  deleteAll (changed ++ others)

inductive Task
  | readdir (path : String)
  | mutate (changed others : List String)
  | cleanupExpired

def Task.program : Task → Prog Unit
  | readdir path => Listing.readdir T path
  | mutate changed others => Listing.mutate changed others
  | cleanupExpired => op .cleanupExpired

def listingSystem (ttl : ℤ) : System Op Op.Res Choice World where
  machine := machine ttl
  leave _ w := w

def together (content : String → List RawEntry) (tasks : List Task) :
    Config Op Op.Res Unit World :=
  ⟨tasks.map (Task.program T), ⟨content, DirCache.newDirCache, ∅⟩⟩

/-- The listing shows the names and kinds of a directory's visible entries. -/
def Tree.Shows (path : String) (listing : List DirEntry) (content : List RawEntry) : Prop :=
  listing.map (fun e => (e.name, e.isDir))
    = (content.filter (T.visible path)).map fun e => (e.name, e.isDir)

/-! ### Where a party stands -/

/-- A party has changed some directories, or is a reader after one of its steps. -/
inductive View
  | owes (paths : Finset String)
  | took (path : String) (generation : ℕ)
  | read (path : String) (generation : ℕ) (content : List RawEntry)

inductive Follows : View → (o : Op) → o.Res → View → Prop
  | find (ds path e) : Follows (.owes ds) (.find path) e (.owes ds)
  | now (ds t) : Follows (.owes ds) .now t (.owes ds)
  | delete (ds path) : Follows (.owes ds) (.delete path) () (.owes (ds.erase path))
  | change (ds path) : Follows (.owes ds) (.change path) () (.owes (insert path ds))
  | cleanup (ds) : Follows (.owes ds) .cleanupExpired () (.owes ds)
  | generation (path g) : Follows (.owes ∅) (.generation path) g (.took path g)
  | failed (path g) : Follows (.took path g) (.readDir path) none (.owes ∅)
  | readDir (path g content) :
      Follows (.took path g) (.readDir path) (some content) (.read path g content)
  | inode (path g content fullPath isDir ino) :
      Follows (.read path g content) (.inode fullPath isDir) ino (.read path g content)
  | put (path g content listing stored) (hshows : T.Shows path listing content) :
      Follows (.read path g content) (.putIfGeneration path listing g) stored (.owes ∅)

abbrev Settles {α : Type} (p : Prog α) : Prop :=
  Outline (Follows T) (fun _ t => t = .owes ∅) (.owes ∅) p

variable {T}

/-- The loop lists the visible entries in order. -/
lemma outline_fill {path : String} {g : ℕ} {content : List RawEntry} (es : List RawEntry) (i : ℕ)
    (result : List DirEntry) (done : List RawEntry) (hcontent : content = done ++ es)
    (hresult : T.Shows path result done) :
    Outline (Follows T) (fun listing t => t = .read path g content ∧ T.Shows path listing content)
      (.read path g content) (fill T path i es result) := by
  induction es generalizing i result done with
  | nil =>
    rw [List.append_nil] at hcontent
    subst hcontent
    exact ⟨rfl, hresult⟩
  | cons e es ih =>
    have hcons : content = done ++ [e] ++ es := by simp [hcontent]
    unfold fill
    split_ifs with hvis
    · simp only [op, op_bind]
      refine outline_perform fun ino => ⟨_, .inode _ _ _ _ _ _, ?_⟩
      refine ih (i + 1) _ (done ++ [e]) hcons ?_
      unfold Tree.Shows at hresult ⊢
      simp [List.filter_append, hresult, hvis]
    · refine ih (i + 1) _ (done ++ [e]) hcons ?_
      unfold Tree.Shows at hresult ⊢
      simp [List.filter_append, hresult, hvis]

lemma settles_readMiss (path : String) : Settles T (readMiss T path) := by
  refine outline_perform fun g => ⟨_, .generation _ _, ?_⟩
  refine outline_perform fun entries => ?_
  cases entries with
  | none => exact ⟨_, .failed _ _, rfl⟩
  | some entries =>
    refine ⟨_, .readDir _ _ _, ?_⟩
    refine (outline_fill entries 0 [] [] rfl rfl).bind fun listing t ht => ?_
    obtain ⟨rfl, hshows⟩ := ht
    exact outline_perform fun stored => ⟨_, .put _ _ _ _ _ hshows, rfl⟩

lemma settles_readdir (path : String) : Settles T (readdir T path) := by
  simp only [Settles, readdir, op, op_bind]
  refine outline_perform fun entry => ⟨_, .find _ _ _, ?_⟩
  cases entry with
  | none => exact settles_readMiss path
  | some entry =>
    refine outline_perform fun now => ⟨_, .now _ _, ?_⟩
    split_ifs
    · exact outline_always (fun _ => .delete _ _) fun _ => settles_readMiss path
    · rfl

lemma outline_changeAll (paths : List String) (ds : Finset String) :
    Outline (Follows T) (fun _ t => ∃ ds' : Finset String, t = .owes ds' ∧
      ∀ p ∈ ds', p ∈ ds ∨ p ∈ paths) (.owes ds) (changeAll paths) := by
  induction paths generalizing ds with
  | nil => exact ⟨ds, rfl, fun p hp => .inl hp⟩
  | cons path paths ih =>
    refine outline_always (fun _ => .change _ _) fun _ => (ih _).mono ?_
    rintro _ t ⟨ds', rfl, hds⟩
    refine ⟨ds', rfl, fun p hp => ?_⟩
    rcases hds p hp with hp | hp
    · rcases mem_insert.mp hp with rfl | hp
      · exact .inr (by simp)
      · exact .inl hp
    · exact .inr (by simp [hp])

lemma outline_deleteAll (paths : List String) (ds : Finset String) (hds : ∀ p ∈ ds, p ∈ paths) :
    Outline (Follows T) (fun _ t => t = .owes ∅) (.owes ds) (deleteAll paths) := by
  induction paths generalizing ds with
  | nil =>
    have hempty : ds = ∅ := eq_empty_of_forall_notMem fun p hp => by simpa using hds p hp
    rw [hempty]
    rfl
  | cons path paths ih =>
    refine outline_always (fun _ => .delete _ _) fun _ => ih _ fun p hp => ?_
    obtain ⟨hne, hp⟩ := mem_erase.mp hp
    simpa [hne] using hds p hp

lemma settles_program (task : Task) : Settles T (task.program T) := by
  cases task with
  | readdir path => exact settles_readdir path
  | mutate changed others =>
    refine (outline_changeAll changed ∅).bind fun _ t ht => ?_
    obtain ⟨ds, rfl, hds⟩ := ht
    refine outline_deleteAll _ ds fun p hp => ?_
    have hmem := (hds p hp).resolve_left (by simp)
    simp [hmem]
  | cleanupExpired => exact outline_always (fun _ => .cleanup _) fun _ => rfl

/-! ### Generations and pending changes -/

/-- Some party has changed the directory and not yet deleted its listing. -/
def World.Pending (w : World) (path : String) : Prop := ∃ i, (i, path) ∈ w.pending

/-- A cached listing is right unless a change of its directory is pending. -/
def Current (T : Tree) (w : World) : Prop :=
  ∀ path e, w.dc.cache.lookup path = some e →
    T.Shows path e.entries (w.content path) ∨ w.Pending path

/-- What party `i` counts on: while the generation of a directory stands still,
changes of it stay pending. -/
structure Respects (i : ℕ) (w w' : World) : Prop where
  own : ∀ path, (i, path) ∈ w'.pending ↔ (i, path) ∈ w.pending
  generation : ∀ path, w.dc.generation path ≤ w'.dc.generation path
  still : ∀ path, w'.dc.generation path = w.dc.generation path →
    (w.Pending path → w'.Pending path) ∧ (w'.content path = w.content path ∨ w'.Pending path)

variable {i : ℕ} {w w' w'' u : World} {ttl : ℤ}

lemma Respects.refl (i : ℕ) (w : World) : Respects i w w :=
  ⟨fun _ => Iff.rfl, fun _ => le_rfl, fun _ _ => ⟨id, .inl rfl⟩⟩

lemma Respects.trans (h : Respects i w w') (h' : Respects i w' w'') : Respects i w w'' := by
  refine ⟨fun p => (h'.own p).trans (h.own p),
    fun p => (h.generation p).trans (h'.generation p), fun p hp => ?_⟩
  have hmid : w'.dc.generation p = w.dc.generation p :=
    le_antisymm ((h'.generation p).trans hp.le) (h.generation p)
  obtain ⟨hpend, hcontent⟩ := h.still p hmid
  obtain ⟨hpend', hcontent'⟩ := h'.still p (hp.trans hmid.symm)
  refine ⟨fun hw => hpend' (hpend hw), ?_⟩
  rcases hcontent with hcontent | hw
  · rcases hcontent' with hcontent' | hw
    · exact .inl (hcontent'.trans hcontent)
    · exact .inr hw
  · exact .inr (hpend' hw)

def listingParties (T : Tree) (ttl : ℤ) : Parties (listingSystem ttl) Unit where
  inv := Current T
  ok _ _ _ := True
  rely := Respects
  post i _ w := ∀ path, (i, path) ∉ w.pending
  rely_refl := Respects.refl
  rely_trans _ := Respects.trans
  leave_inv _ _ h := h
  leave_rely _ j w _ _ := Respects.refl j w
  leave_post _ _ _ h := h

/-- What a party knows: the directories it owes a deletion, and for a reader
that its content is right or the change of it pending, unless the generation
has moved. -/
def Sees (i : ℕ) : View → World → Prop
  | .owes ds, w => ∀ path, (i, path) ∈ w.pending → path ∈ ds
  | .took path g, w => (∀ p, (i, p) ∉ w.pending) ∧ g ≤ w.dc.generation path
  | .read path g content, w => (∀ p, (i, p) ∉ w.pending) ∧ g ≤ w.dc.generation path ∧
      (w.dc.generation path = g → w.content path = content ∨ w.Pending path)

lemma Sees.stable {t : View} (h : Sees i t w) (hr : Respects i w w') : Sees i t w' := by
  cases t with
  | owes ds => exact fun path hp => h path ((hr.own path).mp hp)
  | took path g =>
    exact ⟨fun p hp => h.1 p ((hr.own p).mp hp), h.2.trans (hr.generation path)⟩
  | read path g content =>
    obtain ⟨hown, hle, hread⟩ := h
    refine ⟨fun p hp => hown p ((hr.own p).mp hp), hle.trans (hr.generation path), fun hg => ?_⟩
    have hmid : w.dc.generation path = g :=
      le_antisymm ((hr.generation path).trans hg.le) hle
    obtain ⟨hpend, hcontent⟩ := hr.still path (hg.trans hmid.symm)
    rcases hread hmid with hold | hw
    · rcases hcontent with hsame | hw
      · exact .inl (hsame.trans hold)
      · exact .inr hw
    · exact .inr (hpend hw)

/-- Where a step of party `i` ends up. -/
structure Settled (T : Tree) (i : ℕ) (t : View) (w u : World) : Prop where
  inv : Current T u
  respects : ∀ j, j ≠ i → Respects j w u
  sees : Sees i t u

lemma settled_same {t : View} (hw : Current T w) (ht : Sees i t w) : Settled T i t w w :=
  ⟨hw, fun j _ => .refl j w, ht⟩

/-- A deletion moves the generation, so nobody counts on the directory. -/
lemma settled_delete {ds : Finset String} (hw : Current T w) (ht : Sees i (.owes ds) w)
    (path : String) :
    Settled T i (.owes (ds.erase path)) w
      { w with
        dc := w.dc.delete path
        pending := w.pending.erase (i, path) } := by
  have hpend : ∀ p, p ≠ path → ∀ j, (j, p) ∈ w.pending.erase (i, path) ↔ (j, p) ∈ w.pending := by
    intro p hp j
    simp [hp]
  refine ⟨fun p e he => ?_, fun j hj => ⟨fun p => ?_, fun p => ?_, fun p hp => ?_⟩, fun p hp => ?_⟩
  · rw [DirCache.lookup_delete] at he
    split_ifs at he with hpath
    rcases hw p e he with hshow | ⟨j, hj⟩
    · exact .inl hshow
    · exact .inr ⟨j, (hpend p hpath j).mpr hj⟩
  · simp [hj]
  · rw [DirCache.generation_delete]
    split_ifs with hpath
    · rw [hpath]
      exact Nat.le_succ _
    · exact le_rfl
  · rw [DirCache.generation_delete] at hp
    split_ifs at hp with hpath
    · rw [hpath] at hp
      omega
    · refine ⟨?_, .inl rfl⟩
      rintro ⟨j', hj'⟩
      exact ⟨j', (hpend p hpath j').mpr hj'⟩
  · obtain ⟨hne, hmem⟩ := mem_erase.mp hp
    refine mem_erase.mpr ⟨?_, ht p hmem⟩
    rintro rfl
    exact hne rfl

lemma settled_change {ds : Finset String} (hw : Current T w) (ht : Sees i (.owes ds) w)
    (path : String) (content : List RawEntry) :
    Settled T i (.owes (insert path ds)) w
      { w with
        content := Function.update w.content path content
        pending := insert (i, path) w.pending } := by
  have hpend : ∀ p, w.Pending p → ∃ j, (j, p) ∈ insert (i, path) w.pending := by
    rintro p ⟨j, hj⟩
    exact ⟨j, mem_insert_of_mem hj⟩
  refine ⟨fun p e he => ?_, fun j hj => ⟨fun p => ?_, fun p => le_rfl, fun p _ => ?_⟩, fun p hp => ?_⟩
  · by_cases hpath : p = path
    · exact .inr ⟨i, by simp [hpath]⟩
    · rcases hw p e he with hshow | hpending
      · exact .inl (by simpa [hpath] using hshow)
      · exact .inr (hpend p hpending)
  · simp [hj]
  · refine ⟨hpend p, ?_⟩
    by_cases hpath : p = path
    · exact .inr ⟨i, by simp [hpath]⟩
    · exact .inl (by simp [hpath])
  · rcases mem_insert.mp hp with heq | hmem
    · cases heq
      exact mem_insert_self _ _
    · exact mem_insert_of_mem (ht p hmem)

/-- A step that only touches the cached listings. -/
lemma settled_cache {t : View} {dc : DirCache} (hcur : Current T { w with dc := dc })
    (hgen : ∀ p, dc.generation p = w.dc.generation p)
    (ht : Sees i t { w with dc := dc }) : Settled T i t w { w with dc := dc } := by
  refine ⟨hcur, fun j _ => ⟨fun p => Iff.rfl, fun p => (hgen p).ge, fun p _ => ⟨id, .inl rfl⟩⟩, ht⟩

lemma settled_step {t t' : View} {o : Op} {r : o.Res} {c : Choice} (hf : Follows T t o r t')
    (hw : Current T w) (ht : Sees i t w) (hex : exec ttl i o c w = some (r, u)) :
    Settled T i t' w u := by
  cases hf with
  | find ds path e =>
    obtain ⟨-, rfl⟩ : w.dc.cache.lookup path = e ∧ w = u := by simpa [exec] using hex
    exact settled_same hw ht
  | now ds time =>
    obtain ⟨-, rfl⟩ : c.now = time ∧ w = u := by simpa [exec] using hex
    exact settled_same hw ht
  | delete ds path =>
    cases hex
    exact settled_delete hw ht path
  | change ds path =>
    cases hex
    exact settled_change hw ht path c.content
  | cleanup ds =>
    cases hex
    refine settled_cache (fun p e he => ?_) (fun _ => rfl) ht
    exact hw p e (DirCache.lookup_of_cleanupExpired _ _ he)
  | generation path g =>
    obtain ⟨rfl, rfl⟩ : w.dc.generation path = g ∧ w = u := by simpa [exec] using hex
    exact settled_same hw ⟨fun p hp => by simpa using ht p hp, le_rfl⟩
  | failed path g =>
    obtain ⟨-, rfl⟩ : _ ∧ w = u := by simpa [exec] using hex
    exact settled_same hw fun p hp => absurd hp (ht.1 p)
  | readDir path g content =>
    simp only [exec, Option.some.injEq, Prod.mk.injEq] at hex
    obtain ⟨hread, rfl⟩ := hex
    split_ifs at hread
    cases hread
    exact settled_same hw ⟨ht.1, ht.2, fun _ => .inl rfl⟩
  | inode path g content fullPath isDir ino =>
    obtain ⟨-, rfl⟩ : c.ino = ino ∧ w = u := by simpa [exec] using hex
    exact settled_same hw ht
  | put path g content listing stored hshows =>
    obtain ⟨-, rfl⟩ := hex
    obtain ⟨hown, -, hread⟩ := ht
    unfold DirCache.putIfGeneration
    split_ifs with hg
    · exact settled_same hw fun p hp => absurd hp (hown p)
    rw [not_not] at hg
    refine settled_cache (fun p e he => ?_) (fun _ => rfl) fun p hp => absurd hp (hown p)
    rw [DirCache.lookup_putLocked] at he
    split_ifs at he with hpath
    · -- the generation has not moved: the content is current or its change pending
      cases he
      rw [hpath]
      rcases hread hg with hsame | hpending
      · left
        change T.Shows path listing (w.content path)
        rw [hsame]
        exact hshows
      · exact .inr hpending
    · exact hw p e he

/-- In every state of every interleaving a cached listing shows the directory as
it is, unless somebody has changed the directory and not yet deleted its
listing; a party that has returned has nothing left to delete. -/
theorem cached_listing_is_current (T : Tree) (ttl : ℤ) (content : String → List RawEntry)
    (tasks : List Task) (ls : List (ℕ × Move Choice)) (cfg : Config Op Op.Res Unit World)
    (hrun : Run (listingSystem ttl).Step (together T content tasks) ls cfg) :
    (∀ path e, cfg.state.dc.cache.lookup path = some e → ¬ cfg.state.Pending path →
      T.Shows path e.entries (cfg.state.content path)) ∧
    ∀ i : ℕ, cfg.procs[i]? = some (.ret ()) → ∀ path, (i, path) ∉ cfg.state.pending := by
  have hvalid : (listingParties T ttl).Valid (together T content tasks) := by
    refine Parties.valid_of_outlines Sees (fun p e he => by simp [DirCache.newDirCache] at he)
      settles_program Sees.stable (fun hf _ hw ht hex => ?_) (fun i => by simp [Sees]) ?_
    · have hstep := settled_step hf hw ht hex
      exact ⟨hstep.inv, hstep.respects, hstep.sees⟩
    · rintro i task a t v - rfl hsees
      exact fun path hp => by simpa using hsees path hp
  have hend := hvalid.run (hrun.mono fun cfg l cfg' h => ⟨by unfold Allowed; split <;> trivial, h⟩)
  exact ⟨fun path e he hpend => (hend.inv path e he).resolve_right hpend,
    fun i hi => hend.post hi⟩

/-- One film and a file that is no stub. -/
def filmDir : List RawEntry := [⟨"film.mkv", false⟩, ⟨"notes.txt", false⟩]

def filmTree : Tree := ⟨"/src", fun path => path = "/src/movies/film.mkv"⟩

def turns (i k : ℕ) : List (ℕ × Move Choice) :=
  List.replicate k (i, .act ⟨100, false, 7, []⟩)

/-- A reader that read the film before it was removed, and a later reader. -/
def removedFilmEnd : Option (Config Op Op.Res Unit World) :=
  runSchedule (listingSystem 10) (fun _ _ _ => True)
    (together filmTree (fun _ => filmDir)
      [.readdir "/src/movies", .mutate ["/src/movies"] ["/src"], .readdir "/src/movies"])
    (turns 0 3 ++ turns 1 3 ++ turns 0 2 ++ turns 2 4)

/-- The first reader's listing is refused, the second one's shows no film. -/
theorem removed_film_is_not_listed :
    ∃ cfg, removedFilmEnd = some cfg ∧
      cfg.state.dc.cache.lookup "/src/movies" = some ⟨[], 110⟩ ∧
      filmTree.Shows "/src/movies" [] (cfg.state.content "/src/movies") := by
  obtain ⟨cfg, hcfg, hlisting, hpending⟩ : ∃ cfg ∈ removedFilmEnd,
      cfg.state.dc.cache.lookup "/src/movies" = some ⟨[], 110⟩ ∧ cfg.state.pending = ∅ := by
    decide +kernel
  have hrun := (run_of_runSchedule hcfg).mono fun _ _ _ h => h.2
  refine ⟨cfg, hcfg, hlisting, ?_⟩
  refine (cached_listing_is_current _ _ _ _ _ _ hrun).1 _ _ hlisting ?_
  rintro ⟨i, hi⟩
  rw [hpending] at hi
  simp at hi

end Tiramisu.Vfs.Listing
