import Tiramisu.Lib.Outline
import Tiramisu.Warmup.Density

/-!
# Removals among readers and the write worker

A removal takes the handle, the cached size and the file away in separate steps,
while readers refill the cached size from a stat they made earlier and the
write worker goes on with a size it has read.  A reader between its stat and
its store leaves a size behind for a file that is gone.  If nobody is at work
on a file when it is unlinked, and neither its size nor a handle has come back
by then, a cached size is always covered by the file.
-/

namespace Tiramisu.Warmup.Races

open Protocol Program Transition Extents Go List Option Finset Writes

/-- `touched` holds the calls in progress that have looked at a file and not
given it up, `writing` is the call the write worker is at, `gapped` says that a
chunk has been written behind the end of its file, and `retired` holds the calls
whose callers have gone on. -/
structure Shared where
  cache : World
  touched : Finset (ℕ × String)
  writing : Option ℕ
  gapped : Bool
  retired : Finset ℕ

/-- The steps of the methods, and the worker taking the next chunk from `writeCh`. -/
inductive Act
  | base (o : Op)
  | dequeue

abbrev Act.Res : Act → Type
  | base o => o.Res
  | dequeue => Unit

/-- Which files a party is at work on after an operation. -/
def marks (i : ℕ) : Op → Finset (ℕ × String) → Finset (ℕ × String)
  | .loadSize path, s | .stat path, s | .loadHandle path, s | .openFile path, s
  | .createFile path, s => insert (i, path) s
  | .takeHandle path, s => s.erase (i, path)
  | _, s => s

/-- A write that starts behind the end of the file leaves a hole before it. -/
def opensGap : Op → World → Bool
  | .writeAt _ h _ off, w =>
    match w.inodeOf h with
    | some (_, f) => (f.file.bytes.length : ℤ) < off
    | none => false
  | _, _ => false

/-- The state after an operation of party `i` that leaves the cache as `u`. -/
def after (i : ℕ) (o : Op) (s : Shared) (u : World) : Shared :=
  { s with
    cache := u
    touched := marks i o s.touched
    gapped := s.gapped || opensGap o s.cache }

variable (cfg : Warmup.Config)

def exec (i : ℕ) : (o : Act) → Choice → Shared → Option (o.Res × Shared)
  | .base o, c, s => (Warmup.exec cfg o c s.cache).map fun (r, w) => (r, after i o s w)
  | .dequeue, _, s => if s.writing = none then some ((), { s with writing := some i }) else none

def machine (i : ℕ) : Machine Act Act.Res Choice Shared := ⟨exec cfg i⟩

def baseOps : Embedding Op Op.Res Act Act.Res := ⟨.base, fun _ r => r⟩

inductive Task
  | processWrite (hash : String) (fileID : ℤ) (data : List UInt8) (off : ℤ)
  | getAvailableRange (hash : String) (fileID : ℤ)
  | readAt (hash : String) (fileID : ℤ) (len : ℕ) (off : ℤ)
  | removeHash (hash : String)

/-- What a caller is told: how much of a file is there. -/
abbrev Told := Option (String × ℤ)

def Task.base : Task → Prog Told
  | .processWrite hash fileID data off => do
      Warmup.processWrite cfg hash fileID data off
      pure none
  | .getAvailableRange hash fileID => do
      let r ← Warmup.getAvailableRange cfg hash fileID
      pure (r.map (cfg.filePath hash fileID, ·))
  | .readAt hash fileID len off => do
      let _ ← Warmup.readAt cfg hash fileID len off
      pure none
  | .removeHash hash => do
      Warmup.removeHash cfg hash
      pure none

/-- `processWrite` runs on the write worker, one chunk at a time. -/
def Task.program (task : Task) : Program Act Act.Res Told :=
  match task with
  | .processWrite _ _ _ _ => do
      Program.op Act.dequeue
      (task.base cfg).lift baseOps
  | _ => (task.base cfg).lift baseOps

/-- A call that has returned is at work on nothing, and the worker is free again. -/
def warmupSystem : System Act Act.Res Choice Shared where
  machine := machine cfg
  leave i s := { s with
    touched := s.touched.filter (·.1 ≠ i)
    writing := if s.writing = some i then none else s.writing
    retired := insert i s.retired }

def together (w : World) (tasks : List Task) : Protocol.Config Act Act.Res Told Shared :=
  ⟨tasks.map (Task.program cfg), ⟨w, ∅, none, false, ∅⟩⟩

/-- When a file is unlinked nobody is at work on it, and neither its cached
size nor a handle has come back. -/
def unlinksAlone : Act → Choice → Shared → Prop
  | .base (.remove path), c, s => c.fails = true ∨ path ∉ s.cache.names ∨
      path ∉ s.cache.sizeCache ∧ path ∉ s.cache.handles ∧ ∀ x ∈ s.touched, x.2 ≠ path
  | _, _, _ => True

instance (o : Act) (c : Choice) (s : Shared) : Decidable (unlinksAlone o c s) := by
  unfold unlinksAlone
  split <;> infer_instance

/-! ### Where a party stands -/

/-- What a party knows of the file it is at work on: that it has at least so many
bytes, and a handle on it.  The worker may know that there is no file. -/
inductive Place
  | free
  | holds (path : String) (least : Option ℤ) (handle : Option ℕ)
  | absent (path : String)
  | nowhere

namespace Place

def On (path : String) : Place → Prop
  | free => True
  | holds p _ _ => p = path
  | _ => False

/-- Nothing is known of a file that is there. -/
def Aside : Place → Prop
  | free | absent _ => True
  | _ => False

def least : Place → Option ℤ
  | holds _ l _ => l
  | _ => none

def handle : Place → Option ℕ
  | holds _ _ h => h
  | _ => none

end Place

lemma Place.on_holds (path : String) (l : Option ℤ) (h : Option ℕ) : (holds path l h).On path := rfl

lemma Place.on_free (path : String) : Place.free.On path := trivial

lemma Place.aside_free : Place.free.Aside := trivial

lemma Place.aside_absent (path : String) : (absent path).Aside := trivial

def raise (least : Option ℤ) (n : ℤ) : Option ℤ := some (max (max n 0) (least.getD 0))

/-- Operations that tell nothing about a file and keep what is known of it. -/
def Aloof : Op → Prop
  | .now | .deleteSize _ | .loadMissing _ | .storeMissing _ _ | .deleteMissing _ | .deleteTail _
  | .touch _ _ | .markClosed _ | .isClosed _ | .loadTotal | .storeTotal _ | .addTotal _ | .lock
  | .unlock | .close _ | .readAt _ _ _ | .readDir | .info _ => True
  | _ => False

/-- A size is nothing or one the file is known to have. -/
def Covers (least : Option ℤ) (n : ℤ) : Prop := n ≤ 0 ∨ ∃ l, least = some l ∧ n ≤ l

/-- `worker` says whether the party is the write worker. -/
inductive Follows (worker : Bool) : Place → (o : Op) → o.Res → Place → Prop
  | nowhere (o r) : Follows worker .nowhere o r .nowhere
  | aloof (t) {o} (ho : Aloof o) (r) : Follows worker t o r t
  | cached {t path} (ht : t.On path) (e) : Follows worker t (.loadSize path) (some e)
      (.holds path (raise t.least e.size) t.handle)
  | uncached {t path} (ht : t.On path) : Follows worker t (.loadSize path) none
      (.holds path t.least t.handle)
  | size {t path} (ht : t.On path) (n) : Follows worker t (.stat path) (.size n)
      (.holds path (raise t.least n) t.handle)
  | unseen {t path} (ht : t.On path) (r) : Follows worker t (.stat path) r
      (.holds path t.least t.handle)
  | missing {t path} (ht : t.On path) (hw : worker = true) (hl : t.least = none) :
      Follows worker t (.stat path) .notExist (.absent path)
  | impossible {path l h} : Follows worker (.holds path (some l) h) (.stat path) .notExist .nowhere
  | kept {t path} (ht : t.On path) (h) : Follows worker t (.loadHandle path) (some h)
      (.holds path t.least (some h))
  | unkept {t path} (ht : t.On path) : Follows worker t (.loadHandle path) none
      (.holds path t.least t.handle)
  | opened {t path} (ht : t.On path) (h) : Follows worker t (.openFile path) (some h)
      (.holds path t.least (some h))
  | unopened {t path} (ht : t.On path) : Follows worker t (.openFile path) none
      (.holds path t.least t.handle)
  | stored {path l h} : Follows worker (.holds path l (some h)) (.loadOrStoreHandle path h) none
      (.holds path l (some h))
  | beaten {path l h existing} : Follows worker (.holds path l (some h)) (.loadOrStoreHandle path h)
      (some existing) (.holds path l (some existing))
  | handed {path l h} : Follows worker (.holds path l (some h)) (.storeHandle path h) ()
      (.holds path l (some h))
  | givenUp {path l h} (r) : Follows worker (.holds path l h) (.takeHandle path) r .free
  | taken {t} (ht : t.Aside) (path r) : Follows worker t (.takeHandle path) r t
  | removed {t} (ht : t.Aside) (path r) : Follows worker t (.remove path) r t
  | created {path h} (hw : worker = true) : Follows worker (.absent path) (.createFile path) (some h)
      (.holds path (some 0) (some h))
  | uncreated {path} : Follows worker (.absent path) (.createFile path) none (.absent path)
  | written {path l h data off n} (hoff : Covers l off) : Follows worker (.holds path l (some h))
      (.writeAt .processWrite h data off) (n, false) (.holds path (raise l (off + n)) (some h))
  | unwritten {path l h data off n} (hoff : Covers l off) : Follows worker (.holds path l (some h))
      (.writeAt .processWrite h data off) (n, true) (.holds path l (some h))
  | measured {path l h e} (he : e.size ≤ l) : Follows worker (.holds path (some l) h)
      (.storeSize path e) () (.holds path (some l) h)

/-! ### The methods keep to the outline -/

section Outlines

variable {cfg} {worker : Bool} {t : Place} {path : String}

lemma aloof_perform {α : Type} {o : Op} {k : o.Res → Prog α} {R : α → Place → Prop} (ho : Aloof o)
    (h : ∀ r, Outline (Follows worker) R t (k r)) : Outline (Follows worker) R t (.perform o k) :=
  outline_always (fun r => .aloof t ho r) h

lemma outline_of_uses {α : Type} {p : Prog α} {R : α → Prop} (hp : p.Uses Aloof R) :
    Outline (Follows worker) (fun a t' => R a ∧ t' = t) t p := by
  induction p with
  | ret a => exact ⟨hp, rfl⟩
  | perform o k ih => exact aloof_perform hp.1 fun r => ih r (hp.2 r)

/-- What is known of the file stays known, and a handle comes with the answer. -/
lemma outline_getHandle (ht : t.On path) :
    Outline (Follows worker) (fun r t' => ∃ h, t' = .holds path t.least h ∧ ∀ k, r = some k → h = some k)
      t (getHandle path) := by
  refine outline_perform fun r => ?_
  cases r with
  | some h =>
    refine ⟨_, .kept ht h, aloof_perform trivial fun _ => aloof_perform trivial fun _ => ?_⟩
    exact ⟨some h, rfl, fun k hk => hk⟩
  | none =>
    refine ⟨_, .unkept ht, outline_perform fun r => ?_⟩
    cases r with
    | none => exact ⟨_, .unopened (Place.on_holds _ _ _), _, rfl, fun k hk => absurd hk (by simp)⟩
    | some h =>
      refine ⟨_, .opened (Place.on_holds _ _ _) h,
        aloof_perform trivial fun _ => aloof_perform trivial fun _ => ?_⟩
      refine outline_perform fun r => ?_
      cases r with
      | none => exact ⟨_, .stored, some h, rfl, fun k hk => hk⟩
      | some existing =>
        refine ⟨_, .beaten, aloof_perform trivial fun _ => aloof_perform trivial fun _ => ?_⟩
        refine aloof_perform trivial fun _ => ?_
        exact ⟨some existing, rfl, fun k hk => hk⟩

lemma outline_closeHandle {t' : Place} (ht : ∀ r, Follows worker t (.takeHandle path) r t') :
    Outline (Follows worker) (fun _ t1 => t1 = t') t (closeHandle path) := by
  refine outline_always ht fun r => ?_
  cases r with
  | none => exact rfl
  | some h => exact aloof_perform trivial fun _ => aloof_perform trivial fun _ => rfl

lemma outline_dropFile (ht : t.Aside) :
    Outline (Follows worker) (fun _ t' => t' = t) t (dropFile path) := by
  refine (outline_closeHandle fun r => .taken ht path r).bind fun _ t' ht' => ?_
  subst ht'
  refine aloof_perform trivial fun _ => aloof_perform trivial fun _ => ?_
  exact outline_always (fun r => .removed ht path r) fun _ => rfl

lemma outline_evictFiles (ht : t.Aside) (needed diskTotal : ℤ) (files : List WFile) :
    Outline (Follows worker) (fun _ t' => t' = t) t (evictFiles cfg needed diskTotal files) := by
  induction files generalizing diskTotal with
  | nil => exact rfl
  | cons f files ih =>
    unfold evictFiles
    split_ifs
    · exact rfl
    · refine (outline_dropFile ht).bind fun _ t' ht' => ?_
      subst ht'
      exact ih _

lemma outline_enforceQuotaLocked (ht : t.Aside) (needed : ℤ) :
    Outline (Follows worker) (fun _ t' => t' = t) t (enforceQuotaLocked cfg needed) := by
  simp only [enforceQuotaLocked, op, op_bind]
  refine aloof_perform trivial fun total => ?_
  split_ifs
  · exact rfl
  refine aloof_perform trivial fun names => ?_
  refine (outline_of_uses (uses_scanFiles (fun _ => trivial) names)).bind fun files t' ht' => ?_
  obtain ⟨-, rfl⟩ := ht'
  refine aloof_perform trivial fun _ => ?_
  split_ifs
  · exact rfl
  · refine (outline_evictFiles ht needed _ _).bind fun left t'' ht'' => ?_
    subst ht''
    exact aloof_perform trivial fun _ => rfl

lemma outline_startFile : Outline (Follows true)
    (fun started t' => started = true → ∃ h, t' = .holds path (some 0) (some h)) (.absent path)
      (startFile cfg path) := by
  refine aloof_perform trivial fun _ => ?_
  refine (outline_enforceQuotaLocked (Place.aside_absent path) _).bind fun _ t' ht' => ?_
  subst ht'
  refine aloof_perform trivial fun _ => aloof_perform trivial fun _ => outline_perform fun r => ?_
  cases r with
  | none => exact ⟨_, .uncreated, fun h => absurd h (by simp)⟩
  | some h =>
    refine ⟨_, .created rfl, aloof_perform trivial fun _ => aloof_perform trivial fun _ => ?_⟩
    exact outline_always (fun _ => .handed) fun _ => fun _ => ⟨h, rfl⟩

lemma Covers.le {least : Option ℤ} {m n : ℤ} (h : Covers least n) (hle : m ≤ n) : Covers least m :=
  h.imp hle.trans fun ⟨l, hl, hn⟩ => ⟨l, hl, hle.trans hn⟩

lemma covers_raise (least : Option ℤ) (n : ℤ) : Covers (raise least n) n :=
  .inr ⟨_, rfl, (le_max_left n 0).trans (le_max_left _ _)⟩

lemma Covers.raise {least : Option ℤ} {m : ℤ} (h : Covers least m) (n : ℤ) :
    Covers (raise least n) m := by
  rcases h with hzero | ⟨l, hl, hle⟩
  · exact .inl hzero
  · refine .inr ⟨_, rfl, hle.trans ?_⟩
    rw [hl, getD_some]
    exact le_max_right _ _

lemma outline_headSize (ht : t.On path) : Outline (Follows worker)
    (fun n t' => ∃ least h, t' = .holds path least h ∧ Covers least n) t (headSize path) := by
  refine outline_perform fun r => ?_
  cases r with
  | some e => exact ⟨_, .cached ht e, _, _, rfl, covers_raise _ _⟩
  | none =>
    refine ⟨_, .uncached ht, outline_perform fun r => ?_⟩
    cases r with
    | size n => exact ⟨_, .size (Place.on_holds _ _ _) n, _, _, rfl, covers_raise _ _⟩
    | notExist | failed =>
      exact ⟨_, .unseen (Place.on_holds _ _ _) _, _, _, rfl, .inl le_rfl⟩

lemma outline_overgrown (ht : t.On path) : Outline (Follows worker)
    (fun _ t' => ∃ least h, t' = .holds path least h) t (overgrown cfg path) := by
  simp only [overgrown, op, op_bind]
  refine outline_perform fun r => ?_
  cases r with
  | some e => exact ⟨_, .cached ht e, _, _, rfl⟩
  | none =>
    refine ⟨_, .uncached ht, outline_perform fun r => ?_⟩
    cases r with
    | size n =>
      refine ⟨_, .size (Place.on_holds _ _ _) n, ?_⟩
      dsimp only
      split_ifs
      · refine aloof_perform trivial fun _ => ?_
        exact outline_always (fun _ => .measured ((le_max_left n 0).trans (le_max_left _ _)))
          fun _ => ⟨_, _, rfl⟩
      · exact ⟨_, _, rfl⟩
    | notExist | failed => exact ⟨_, .unseen (Place.on_holds _ _ _) _, _, _, rfl⟩

abbrev Keeps (worker : Bool) {α : Type} (t : Place) (p : Prog α) : Prop :=
  Outline (Follows worker) (fun _ _ => True) t p

/-- The size that is stored is one the file has been given or was known to have. -/
lemma keeps_writeChunk {least : Option ℤ} {h : Option ℕ} {prevSize off : ℤ} (data : List UInt8)
    (hprev : Covers least prevSize) (hoff : off ≤ prevSize) :
    Keeps worker (.holds path least h) (writeChunk path prevSize data off) := by
  simp only [writeChunk, op, op_bind]
  refine (outline_getHandle (Place.on_holds path least h)).bind fun r t' ht' => ?_
  obtain ⟨h', rfl, hr⟩ := ht'
  cases r with
  | none => exact trivial
  | some k =>
    obtain rfl := hr k rfl
    refine aloof_perform trivial fun closed => ?_
    split_ifs
    · exact trivial
    refine outline_perform fun r => ?_
    obtain ⟨n, err⟩ := r
    cases err with
    | true => exact ⟨_, .unwritten (hprev.le hoff), trivial⟩
    | false =>
      refine ⟨_, .written (hprev.le hoff), ?_⟩
      rw [if_neg (by simp)]
      refine aloof_perform trivial fun _ => ?_
      split_ifs
      · refine aloof_perform trivial fun _ => aloof_perform trivial fun _ => ?_
        exact outline_always
          (fun _ => .measured ((le_max_left _ 0).trans (le_max_left _ _))) fun _ => trivial
      refine aloof_perform trivial fun _ => ?_
      refine outline_always (fun _ => .measured ?_) fun _ => trivial
      rcases hprev.raise (off + n) with hzero | ⟨l, hl, hle⟩
      · exact hzero.trans ((le_max_right _ 0).trans (le_max_left _ _))
      · exact hle.trans (Option.some.inj hl).ge

lemma keeps_processWrite (hash : String) (fileID : ℤ) (data : List UInt8) (off : ℤ) :
    Keeps true .free (processWrite cfg hash fileID data off) := by
  unfold processWrite
  split_ifs
  · exact trivial
  refine (outline_overgrown (Place.on_free _)).bind fun grown t' ht' => ?_
  obtain ⟨least, h, rfl⟩ := ht'
  split_ifs
  · exact trivial
  refine (outline_headSize (Place.on_holds _ _ _)).bind fun prevSize t' ht' => ?_
  obtain ⟨least, h, rfl, hprev⟩ := ht'
  split_ifs with hlt
  · exact trivial
  have hoff : off ≤ prevSize := not_lt.mp hlt
  refine outline_perform fun r => ?_
  cases r with
  | size n =>
    exact ⟨_, .size (Place.on_holds _ _ _) n, keeps_writeChunk _ (hprev.raise n) hoff⟩
  | failed => exact ⟨_, .unseen (Place.on_holds _ _ _) _, keeps_writeChunk _ hprev hoff⟩
  | notExist =>
    cases least with
    | some l =>
      exact ⟨_, .impossible, outline_of_loop (fun o r => .nowhere o r) fun _ => trivial⟩
    | none =>
      refine ⟨_, .missing (Place.on_holds _ _ _) rfl rfl, ?_⟩
      refine outline_startFile.bind fun started t' ht' => ?_
      split_ifs with hstarted
      · obtain ⟨h', rfl⟩ := ht' hstarted
        apply keeps_writeChunk _ _ hoff
        exact hprev.imp id fun ⟨l, hl, _⟩ => absurd hl (by simp)
      · exact trivial

/-- A range that is told is one the file is known to have. -/
def Vouched (path : String) (r : Option ℤ) (t : Place) : Prop :=
  ∀ n, r = some n → n ≤ 0 ∨ ∃ l h, t = .holds path (some l) h ∧ n ≤ l

lemma vouched_none (path : String) (t : Place) : Vouched path none t :=
  fun _ h => absurd h (by simp)

lemma vouched_zero (path : String) (t : Place) : Vouched path (some 0) t :=
  fun _ h => .inl (Option.some.inj h).ge

lemma vouched_raise (path : String) (least : Option ℤ) (h : Option ℕ) (n : ℤ) :
    Vouched path (some n) (.holds path (raise least n) h) := by
  intro m hm
  cases hm
  exact .inr ⟨_, _, rfl, (le_max_left n 0).trans (le_max_left _ _)⟩

section

variable (hash : String)

include hash

lemma outline_measure (ht : t.On path) :
    Outline (Follows worker) (Vouched path) t (measure cfg hash path) := by
  have hmissing : ∀ t', Outline (Follows worker) (Vouched path) t' (do
      op (.storeMissing path (← op .now))
      pure (some 0) : Prog (Option ℤ)) := fun t' =>
    aloof_perform trivial fun _ => aloof_perform trivial fun _ => vouched_zero path t'
  simp only [measure, op, op_bind]
  refine outline_perform fun r => ?_
  cases r with
  | size n =>
    refine ⟨_, .size ht n, ?_⟩
    dsimp only
    split_ifs
    · exact vouched_none _ _
    · refine (outline_closeHandle fun r => .givenUp r).bind fun _ t' ht' => ?_
      subst ht'
      refine aloof_perform trivial fun _ => ?_
      exact outline_always (fun r => .removed Place.aside_free _ r) fun _ => hmissing _
    · refine aloof_perform trivial fun _ => ?_
      exact outline_always (fun _ => .measured ((le_max_left n 0).trans (le_max_left _ _)))
        fun _ => vouched_raise _ _ _ n
  | notExist => exact ⟨_, .unseen ht _, hmissing _⟩
  | failed => exact ⟨_, .unseen ht _, hmissing _⟩

lemma outline_cachedRange (ht : t.On path) :
    Outline (Follows worker) (Vouched path) t (cachedRange cfg hash path) := by
  simp only [cachedRange, op, op_bind]
  refine outline_perform fun r => ?_
  cases r with
  | none => exact ⟨_, .uncached ht, outline_measure hash (Place.on_holds _ _ _)⟩
  | some e =>
    refine ⟨_, .cached ht e, aloof_perform trivial fun _ => ?_⟩
    split_ifs
    · exact vouched_raise _ _ _ _
    · exact outline_measure hash (Place.on_holds _ _ _)

lemma outline_getAvailableRange (fileID : ℤ) (ht : t.On (cfg.filePath hash fileID)) :
    Outline (Follows worker) (Vouched (cfg.filePath hash fileID)) t
      (getAvailableRange cfg hash fileID) := by
  simp only [getAvailableRange, op, op_bind]
  refine aloof_perform trivial fun r => ?_
  cases r with
  | none => exact outline_cachedRange hash ht
  | some since =>
    refine aloof_perform trivial fun _ => ?_
    split_ifs
    · exact vouched_zero _ _
    · exact aloof_perform trivial fun _ => outline_cachedRange hash ht

lemma keeps_readAt (fileID : ℤ) (len : ℕ) (off : ℤ) :
    Keeps worker .free (readAt cfg hash fileID len off) := by
  unfold readAt
  split_ifs
  · exact trivial
  refine (outline_getHandle (Place.on_free _)).bind fun r t' ht' => ?_
  obtain ⟨h, rfl, -⟩ := ht'
  cases r with
  | none => exact trivial
  | some k =>
    refine (outline_getAvailableRange hash fileID (Place.on_holds _ _ _)).bind fun r t' _ => ?_
    cases r with
    | none => exact trivial
    | some availSize =>
      dsimp only
      split_ifs
      · exact trivial
      · exact aloof_perform trivial fun _ => trivial

lemma keeps_removeEntries (names : List String) :
    Keeps worker .free (removeEntries cfg hash names) := by
  induction names with
  | nil => exact trivial
  | cons name names ih =>
    simp only [removeEntries, op, op_bind]
    split_ifs
    · refine aloof_perform trivial fun info => ?_
      have hdrop : Keeps worker .free (do
          let _ ← dropFile (cfg.join name)
          removeEntries cfg hash names) := by
        refine (outline_dropFile Place.aside_free).bind fun _ t' ht' => ?_
        subst ht'
        exact ih
      cases info with
      | none => exact hdrop
      | some x => exact aloof_perform trivial fun _ => hdrop
    · exact ih

lemma keeps_removeHash : Keeps worker .free (removeHash cfg hash) :=
  aloof_perform trivial fun names => keeps_removeEntries hash names

end

end Outlines

/-- A party is the write worker or not, and stands somewhere. -/
def FollowsAct : Bool × Place → (o : Act) → o.Res → Bool × Place → Prop
  | t, .base o, r, t' => t'.1 = t.1 ∧ Follows t.1 t.2 o r t'.2
  | t, .dequeue, _, t' => t' = (true, t.2)

/-- What a caller is told of a file is vouched for. -/
def Ends (a : Told) (t : Place) : Prop := ∀ path n, a = some (path, n) → Vouched path (some n) t

lemma ends_none (t : Place) : Ends none t := fun _ _ h => absurd h (by simp)

lemma outline_base (task : Task) (worker : Bool) (hworker : worker = true ∨ ∀ hash fileID data off,
    task ≠ .processWrite hash fileID data off) :
    Outline (Follows worker) Ends .free (task.base cfg) := by
  cases task with
  | processWrite hash fileID data off =>
    obtain rfl := hworker.resolve_right fun h => h hash fileID data off rfl
    exact (keeps_processWrite hash fileID data off).bind fun _ t _ => ends_none t
  | getAvailableRange hash fileID =>
    refine (outline_getAvailableRange hash fileID (Place.on_free _)).bind fun r t hr => ?_
    intro path n hn
    obtain ⟨m, hm, heq⟩ := map_eq_some_iff.mp hn
    cases heq
    exact hm ▸ hr
  | readAt hash fileID len off =>
    exact (keeps_readAt hash fileID len off).bind fun _ t _ => ends_none t
  | removeHash hash =>
    exact (keeps_removeHash hash).bind fun _ t _ => ends_none t

lemma outline_program (task : Task) :
    Outline FollowsAct (fun a t => Ends a t.2) (false, .free) (task.program cfg) := by
  have hlift : ∀ worker, Outline (Follows worker) Ends .free (task.base cfg) →
      Outline FollowsAct (fun a t => Ends a t.2) (worker, .free) ((task.base cfg).lift baseOps) :=
    fun worker hp => hp.lift (fun t => (worker, t)) (fun _ _ h => h) fun _ _ _ _ h => ⟨rfl, h⟩
  cases task with
  | processWrite hash fileID data off =>
    exact outline_always (fun _ => rfl) fun _ => hlift true (outline_base cfg _ true (.inl rfl))
  | getAvailableRange _ _ | readAt _ _ _ _ | removeHash _ =>
    exact hlift false (outline_base cfg _ false (.inr (by simp)))

/-! ### What is kept -/

/-- A handle was opened on a file. -/
def Backs (w : World) (k ino : ℕ) : Prop := ∃ ch, w.cachedHandles[k]? = some ch ∧ ch.ino = ino

/-- Cached sizes are covered by the files, and kept handles are of the files they are kept for. -/
structure Intact (w : World) : Prop where
  named : ∀ {path ino}, w.names.lookup path = some ino → ino < w.inodes.length
  single : ∀ {path path' ino}, w.names.lookup path = some ino → w.names.lookup path' = some ino →
    path = path'
  sizes : ∀ {path e}, w.sizeCache.lookup path = some e → path ∈ w.names ∧ e.size ≤ w.sizeAt path
  handles : ∀ {path k}, w.handles.lookup path = some k →
    ∃ ino, w.names.lookup path = some ino ∧ Backs w k ino

lemma Intact.numbered {w : World} (h : Intact w) : Numbered w := ⟨h.named, h.single⟩

lemma Intact.of_sound {cfg : Warmup.Config} {w : World} (h : Sound cfg w) : Intact w where
  named := h.named
  single := h.single
  sizes := h.size
  handles hk := by
    obtain ⟨ino, hino, ch, hch, -, heq⟩ := h.handle hk
    exact ⟨ino, hino, ch, hch, heq⟩

/-- What party `i` counts on. -/
structure Respects (i : ℕ) (s s' : Shared) : Prop where
  own : ∀ path, (i, path) ∈ s'.touched ↔ (i, path) ∈ s.touched
  retired : i ∈ s.retired → i ∈ s'.retired
  worker : s.writing = some i → s'.writing = some i ∧
    ∀ path, s.cache.names.lookup path = none → s'.cache.names.lookup path = none
  files : ∀ path ino, (i, path) ∈ s.touched → s.cache.names.lookup path = some ino →
    s'.cache.names.lookup path = some ino
  grows : ∀ path, (i, path) ∈ s.touched → s.cache.sizeAt path ≤ s'.cache.sizeAt path
  backs : ∀ k ino, Backs s.cache k ino → Backs s'.cache k ino

/-- What a party knows of a file. -/
structure Known (w : World) (path : String) (least : Option ℤ) (handle : Option ℕ) : Prop where
  least : ∀ n, least = some n → path ∈ w.names ∧ n ≤ w.sizeAt path
  handle : ∀ k, handle = some k → ∃ ino, w.names.lookup path = some ino ∧ Backs w k ino

def Knows (i : ℕ) : Place → Shared → Prop
  | .free, _ => True
  | .holds path l h, s => (i, path) ∈ s.touched ∧ Known s.cache path l h
  | .absent path, s => s.writing = some i ∧ s.cache.names.lookup path = none
  | .nowhere, _ => False

def Sees (i : ℕ) (t : Bool × Place) (s : Shared) : Prop :=
  (t.1 = true → s.writing = some i) ∧ Knows i t.2 s

section Kept

variable {i : ℕ} {s s' s'' : Shared} {w u : World} {t : Place} {path : String}
variable {k : ℕ}
  {least : Option ℤ} {handle : Option ℕ}

lemma Respects.refl (i : ℕ) (s : Shared) : Respects i s s :=
  ⟨fun _ => Iff.rfl, id, fun h => ⟨h, fun _ => id⟩, fun _ _ _ h => h, fun _ _ => le_rfl, fun _ _ => id⟩

lemma Respects.trans (h : Respects i s s') (h' : Respects i s' s'') : Respects i s s'' where
  own path := (h'.own path).trans (h.own path)
  retired hi := h'.retired (h.retired hi)
  worker hw := by
    obtain ⟨hw', hnone⟩ := h.worker hw
    obtain ⟨hw'', hnone'⟩ := h'.worker hw'
    exact ⟨hw'', fun path hp => hnone' path (hnone path hp)⟩
  files path ino ht hn := h'.files path ino ((h.own path).mpr ht) (h.files path ino ht hn)
  grows path ht := (h.grows path ht).trans (h'.grows path ((h.own path).mpr ht))
  backs k ino hk := h'.backs k ino (h.backs k ino hk)

lemma Knows.stable (h : Knows i t s) (hr : Respects i s s') : Knows i t s' := by
  cases t with
  | free => exact trivial
  | holds path l k =>
    obtain ⟨ht, hknown⟩ := h
    refine ⟨(hr.own path).mpr ht, fun n hn => ?_, fun k hk => ?_⟩
    · obtain ⟨hmem, hle⟩ := hknown.least n hn
      obtain ⟨ino, hino⟩ := mem_iff.mp hmem
      exact ⟨mem_iff.mpr ⟨ino, hr.files path ino ht hino⟩, hle.trans (hr.grows path ht)⟩
    · obtain ⟨ino, hino, hback⟩ := hknown.handle k hk
      exact ⟨ino, hr.files path ino ht hino, hr.backs k ino hback⟩
  | absent path =>
    obtain ⟨hw, hn⟩ := h
    exact ⟨(hr.worker hw).1, (hr.worker hw).2 path hn⟩
  | nowhere => exact h

lemma Sees.stable {t : Bool × Place} (h : Sees i t s) (hr : Respects i s s') : Sees i t s' :=
  ⟨fun ht => (hr.worker (h.1 ht)).1, h.2.stable hr⟩

/-- The files keep their names, and none gets shorter. -/
structure Grows (w u : World) : Prop where
  names : u.names = w.names
  inodes : w.inodes.length ≤ u.inodes.length
  sizeAt : ∀ path, w.sizeAt path ≤ u.sizeAt path
  backs : ∀ k ino, Backs w k ino → Backs u k ino

/-- Besides, nothing is added to the tables. -/
structure Calm (w u : World) : Prop where
  grows : Grows w u
  sizes : ∀ {path e}, u.sizeCache.lookup path = some e → w.sizeCache.lookup path = some e
  handles : ∀ {path k}, u.handles.lookup path = some k → w.handles.lookup path = some k

lemma Grows.of_files (hn : u.names = w.names) (hi : u.inodes = w.inodes)
    (hb : ∀ k ino, Backs w k ino → Backs u k ino) : Grows w u :=
  ⟨hn, by rw [hi], fun path => by rw [World.sizeAt, World.sizeAt, hn, hi], hb⟩

lemma Intact.grows (h : Intact w) (hg : Grows w u)
    (hsizes : ∀ {path e}, u.sizeCache.lookup path = some e →
      path ∈ w.names ∧ e.size ≤ w.sizeAt path)
    (hhandles : ∀ {path k}, u.handles.lookup path = some k →
      ∃ ino, w.names.lookup path = some ino ∧ Backs w k ino) : Intact u where
  named hp := (h.named (hg.names ▸ hp)).trans_le hg.inodes
  single hp hp' := h.single (hg.names ▸ hp) (hg.names ▸ hp')
  sizes he := by
    obtain ⟨hmem, hle⟩ := hsizes he
    exact ⟨hg.names ▸ hmem, hle.trans (hg.sizeAt _)⟩
  handles hk := by
    obtain ⟨ino, hino, hback⟩ := hhandles hk
    exact ⟨ino, hg.names ▸ hino, hg.backs _ _ hback⟩

lemma Calm.intact (h : Calm w u) (hw : Intact w) : Intact u :=
  hw.grows h.grows (fun he => hw.sizes (h.sizes he)) fun hk => hw.handles (h.handles hk)

lemma Known.grows (h : Known w path least handle) (hg : Grows w u) :
    Known u path least handle := by
  refine ⟨fun n hn => ?_, fun k hk => ?_⟩
  · obtain ⟨hmem, hle⟩ := h.least n hn
    exact ⟨hg.names ▸ hmem, hle.trans (hg.sizeAt path)⟩
  · obtain ⟨ino, hino, hback⟩ := h.handle k hk
    exact ⟨ino, hg.names ▸ hino, hg.backs k ino hback⟩

lemma Known.raise (h : Known w path least handle) {n : ℤ} (hmem : path ∈ w.names)
    (hn : n ≤ w.sizeAt path) : Known w path (raise least n) handle := by
  refine ⟨fun m hm => ⟨hmem, ?_⟩, h.handle⟩
  cases hm
  have hpos : 0 ≤ w.sizeAt path := sizeAt_nonneg
  apply max_le (max_le hn hpos)
  cases hl : least with
  | none => exact hpos
  | some l => exact (h.least l hl).2

/-- What is known at any place on a path. -/
lemma Knows.known (h : Knows i t s) (ht : t.On path) : Known s.cache path t.least t.handle := by
  cases t with
  | free =>
    exact ⟨fun n hn => absurd hn (by simp [Place.least]), fun k hk => absurd hk (by simp [Place.handle])⟩
  | holds p l k =>
    obtain rfl : p = path := ht
    exact h.2
  | absent p => exact absurd ht id
  | nowhere => exact absurd ht id

lemma mem_marks {j : ℕ} (hj : j ≠ i) (o : Op) (T : Finset (ℕ × String)) (path : String) :
    (j, path) ∈ marks i o T ↔ (j, path) ∈ T := by
  cases o <;> simp [marks, hj]

/-- A step that keeps the files keeps what a party counts on. -/
lemma Grows.respects {j : ℕ} {o : Op} (hg : Grows s.cache u)
    (hown : ∀ path, (j, path) ∈ marks i o s.touched ↔ (j, path) ∈ s.touched) :
    Respects j s (after i o s u) where
  own := hown
  retired := id
  worker hw := ⟨hw, fun _ hp => hg.names ▸ hp⟩
  files _ _ _ hp := hg.names ▸ hp
  grows path _ := hg.sizeAt path
  backs := hg.backs

/-- The operations that may add to the tables or change which files there are. -/
def Stirs : Op → Prop
  | .storeSize _ _ | .storeHandle _ _ | .loadOrStoreHandle _ _ | .createFile _ | .remove _
  | .restart => True
  | _ => False

lemma backs_modifyHandle {f : CachedHandle → CachedHandle} (hf : ∀ ch, (f ch).ino = ch.ino) (h : ℕ)
    (k ino : ℕ) (hk : Backs w k ino) : Backs (w.modifyHandle h f) k ino := by
  obtain ⟨ch, hch, rfl⟩ := hk
  by_cases heq : h = k
  · refine ⟨f ch, ?_, hf ch⟩
    simp [World.modifyHandle, heq, hch]
  · exact ⟨ch, by simp [World.modifyHandle, heq, hch], rfl⟩

lemma calm_modifyHandle {f : CachedHandle → CachedHandle} {h : ℕ} (hf : ∀ ch, (f ch).ino = ch.ino) :
    Calm w (w.modifyHandle h f) :=
  ⟨.of_files rfl rfl (backs_modifyHandle hf h), id, id⟩

lemma backs_newHandle (w : World) (ino : ℕ) : Backs (w.newHandle ino).2 (w.newHandle ino).1 ino :=
  ⟨⟨ino, 0, false, true⟩, by simp [World.newHandle], rfl⟩

lemma backs_of_newHandle {ino ino' : ℕ} (hk : Backs w k ino) : Backs (w.newHandle ino').2 k ino := by
  obtain ⟨ch, hch, hino⟩ := hk
  refine ⟨ch, ?_, hino⟩
  have hlt := (List.getElem?_eq_some_iff.mp hch).1
  exact (getElem?_append_left hlt).trans hch

lemma calm_newHandle (w : World) (ino : ℕ) : Calm w (w.newHandle ino).2 :=
  ⟨.of_files rfl rfl fun _ _ => backs_of_newHandle, id, id⟩

lemma Calm.refl (w : World) : Calm w w := ⟨.of_files rfl rfl fun _ _ => id, id, id⟩

/-- No file gets shorter by a write, whatever handle it goes through. -/
lemma calm_writeFile (w : World) (c : Choice) (writer : Writer) (h : ℕ) (data : List UInt8) (off : ℤ) :
    Calm w (w.writeFile c writer h data off).2 := by
  unfold World.writeFile
  split
  · exact Calm.refl w
  rename_i ino f hinode
  split_ifs
  · exact Calm.refl w
  refine ⟨⟨rfl, by simp, fun path => ?_, fun _ _ => id⟩, id, id⟩
  have hf : w.inodes[ino]? = some f := by
    unfold World.inodeOf at hinode
    split at hinode
    · split_ifs at hinode
      obtain ⟨f', hf', heq⟩ := map_eq_some_iff.mp hinode
      cases heq
      exact hf'
    · cases hinode
  cases hp : w.names.lookup path with
  | none => simp [World.sizeAt, hp]
  | some ino' =>
    by_cases heq : ino = ino'
    · subst heq
      have hlt := (List.getElem?_eq_some_iff.mp hf).1
      simp only [World.sizeAt, hp, bind_some, hf, getElem?_set_self hlt]
      exact Int.ofNat_le.mpr File.length_write_le
    · simp [World.sizeAt, hp, getElem?_set_ne heq]

lemma calm_of_exec {cfg : Warmup.Config} {o : Op} {c : Choice} {r : o.Res} (ho : ¬ Stirs o)
    (hex : Warmup.exec cfg o c w = some (r, u)) : Calm w u := by
  cases o with
  | storeSize _ _ | storeHandle _ _ | loadOrStoreHandle _ _ | createFile _ | remove _ | restart =>
    exact absurd trivial ho
  | deleteSize path =>
    cases hex
    exact ⟨.of_files rfl rfl fun _ _ => id, fun hp => (of_erase hp).2, id⟩
  | takeHandle path =>
    cases hex
    exact ⟨.of_files rfl rfl fun _ _ => id, id, fun hp => (of_erase hp).2⟩
  | touch h time | markClosed h | close h =>
    cases hex
    exact calm_modifyHandle fun _ => rfl
  | openFile path =>
    simp only [Warmup.exec] at hex
    split at hex
    · cases hex
      exact Calm.refl w
    · cases hex
      exact calm_newHandle w _
  | writeAt writer h data off =>
    obtain rfl := congrArg Prod.snd (Option.some.inj hex)
    exact calm_writeFile w c writer h data off
  | loadOrStoreTail path =>
    simp only [Warmup.exec] at hex
    split at hex <;>
    · cases hex
      exact ⟨.of_files rfl rfl fun _ _ => id, id, id⟩
  | lock =>
    simp only [Warmup.exec] at hex
    split_ifs at hex
    cases hex
    exact ⟨.of_files rfl rfl fun _ _ => id, id, id⟩
  | now | loadSize _ | loadMissing _ | storeMissing _ _ | deleteMissing _ | loadHandle _
  | rangeHandles | loadTail _ | deleteTail _ | addSpan _ _ _ | spans _ | lastUsed _ | isClosed _
  | loadTotal | storeTotal _ | addTotal _ | unlock | stat _ | readAt _ _ _ | readDir | info _ =>
    cases hex
    exact ⟨.of_files rfl rfl fun _ _ => id, id, id⟩

/-! ### One step -/

/-- A party has made a step and stands at `t`. -/
structure Settled (i : ℕ) (t : Place) (s s' : Shared) : Prop where
  inv : Intact s'.cache
  respects : ∀ j, j ≠ i → Respects j s s'
  writing : s'.writing = s.writing
  knows : Knows i t s'

lemma Grows.settled {o : Op} (hg : Grows s.cache u) (hinv : Intact u)
    (hk : Knows i t (after i o s u)) : Settled i t s (after i o s u) :=
  ⟨hinv, fun _ hj => hg.respects (mem_marks hj o s.touched), rfl, hk⟩

lemma Calm.settled {o : Op} (hc : Calm s.cache u) (hw : Intact s.cache)
    (hk : Knows i t (after i o s u)) : Settled i t s (after i o s u) :=
  hc.grows.settled (hc.intact hw) hk

lemma marks_aloof {o : Op} (ho : Aloof o) (T : Finset (ℕ × String)) : marks i o T = T := by
  cases o <;> first | rfl | exact absurd ho id

lemma not_stirs_of_aloof {o : Op} (ho : Aloof o) : ¬ Stirs o := by
  cases o <;> first | exact id | exact absurd ho id

lemma settled_aloof {o : Op} (ho : Aloof o) (hc : Calm s.cache u) (hw : Intact s.cache)
    (ht : Knows i t s) : Settled i t s (after i o s u) := by
  apply hc.settled hw
  apply ht.stable
  exact hc.grows.respects fun path => by rw [marks_aloof ho]

/-- A look at a file that adds to what is known of it. -/
lemma settled_look {o : Op} (hc : Calm s.cache u) (hw : Intact s.cache)
    (hmark : (i, path) ∈ marks i o s.touched) (hknown : Known u path least handle) :
    Settled i (.holds path least handle) s (after i o s u) :=
  hc.settled hw ⟨hmark, hknown⟩

lemma known_size (hknown : Known w path least handle) (hw : Intact w) {e : SizeEntry}
    (he : w.sizeCache.lookup path = some e) : Known w path (raise least e.size) handle :=
  hknown.raise (hw.sizes he).1 (hw.sizes he).2

lemma known_stat (hknown : Known w path least handle) (hw : Intact w) {n : ℤ}
    (hn : w.statPath path = .size n) : Known w path (raise least n) handle := by
  rcases hw.numbered.statPath path with ⟨hmem, hsize⟩ | ⟨-, hnone⟩
  · cases hn.symm.trans hsize
    exact hknown.raise hmem le_rfl
  · cases hn.symm.trans hnone

/-- A handle on the file is put into the table. -/
lemma settled_handle {o : Op} (hw : Intact s.cache)
    (hmark : (i, path) ∈ marks i o s.touched) (hknown : Known s.cache path least (some k)) :
    Settled i (.holds path least (some k)) s
      (after i o s { s.cache with handles := s.cache.handles.insert path k }) := by
  have hg : Grows s.cache { s.cache with handles := s.cache.handles.insert path k } :=
    .of_files rfl rfl fun _ _ => id
  refine hg.settled (hw.grows hg hw.sizes fun {p k'} hp => ?_) ⟨hmark, hknown.grows hg⟩
  rcases of_insert hp with ⟨rfl, rfl⟩ | ⟨-, hp⟩
  · exact hknown.handle k rfl
  · exact hw.handles hp

/-- A size that the file is known to have is put into the table. -/
lemma settled_storeSize {l : ℤ} {e : SizeEntry} (hw : Intact s.cache)
    (hk : Knows i (.holds path (some l) handle) s) (he : e.size ≤ l) :
    Settled i (.holds path (some l) handle) s (after i (.storeSize path e) s
      { s.cache with sizeCache := s.cache.sizeCache.insert path e }) := by
  have hg : Grows s.cache { s.cache with sizeCache := s.cache.sizeCache.insert path e } :=
    .of_files rfl rfl fun _ _ => id
  refine hg.settled (hw.grows hg (fun {p e'} hp => ?_) hw.handles) ⟨hk.1, hk.2.grows hg⟩
  rcases of_insert hp with ⟨rfl, rfl⟩ | ⟨-, hp⟩
  · obtain ⟨hmem, hle⟩ := hk.2.least l rfl
    exact ⟨hmem, he.trans hle⟩
  · exact hw.sizes hp

/-- A file that nobody is at work on, and that the tables do not know, is unlinked. -/
lemma settled_remove (hw : Intact s.cache) (ht : t.Aside) (hk : Knows i t s)
    (hok : path ∉ s.cache.names ∨ path ∉ s.cache.sizeCache ∧ path ∉ s.cache.handles ∧
      ∀ x ∈ s.touched, x.2 ≠ path) :
    Settled i t s (after i (.remove path) s
      { s.cache with names := s.cache.names.erase path }) := by
  have hkeep : ∀ p, p ≠ path → (s.cache.names.erase path).lookup p = s.cache.names.lookup p :=
    fun p hp => AList.lookup_erase_ne hp
  have hnone : ∀ p, s.cache.names.lookup p = none → (s.cache.names.erase path).lookup p = none := by
    intro p hp
    by_cases heq : p = path
    · rw [heq]
      exact AList.lookup_erase _ _
    · rw [hkeep p heq, hp]
  -- what is in a table is the name of another file
  have hsize : ∀ {p e}, s.cache.sizeCache.lookup p = some e → p ≠ path := by
    rintro p e he rfl
    rcases hok with hgone | ⟨hfree, -⟩
    · exact hgone (hw.sizes he).1
    · exact hfree (mem_iff.mpr ⟨_, he⟩)
  have hhandle : ∀ {p k}, s.cache.handles.lookup p = some k → p ≠ path := by
    rintro p k hh rfl
    rcases hok with hgone | ⟨-, hfree, -⟩
    · obtain ⟨ino, hino, -⟩ := hw.handles hh
      exact hgone (mem_iff.mpr ⟨ino, hino⟩)
    · exact hfree (mem_iff.mpr ⟨_, hh⟩)
  have htouched : ∀ {j p ino}, (j, p) ∈ s.touched → s.cache.names.lookup p = some ino →
      p ≠ path := by
    rintro j p ino hj hino rfl
    rcases hok with hgone | ⟨-, -, hfree⟩
    · exact hgone (mem_iff.mpr ⟨ino, hino⟩)
    · exact hfree _ hj rfl
  have hsizeAt : ∀ p, p ≠ path →
      World.sizeAt { s.cache with names := s.cache.names.erase path } p = s.cache.sizeAt p :=
    fun p => sizeAt_erase rfl rfl
  refine ⟨⟨fun hp => hw.named (of_erase hp).2, fun hp hp' => ?_, fun {p e} he => ?_,
    fun {p k} hh => ?_⟩, fun j _ => ?_, rfl, ?_⟩
  · exact hw.single (of_erase hp).2 (of_erase hp').2
  · obtain ⟨hmem, hle⟩ := hw.sizes he
    obtain ⟨ino, hino⟩ := mem_iff.mp hmem
    refine ⟨mem_iff.mpr ⟨ino, (hkeep p (hsize he)).trans hino⟩, ?_⟩
    exact hle.trans (hsizeAt p (hsize he)).ge
  · obtain ⟨ino, hino, hback⟩ := hw.handles hh
    exact ⟨ino, (hkeep p (hhandle hh)).trans hino, hback⟩
  · refine ⟨fun _ => Iff.rfl, id, fun hwr => ⟨hwr, hnone⟩, fun p ino hj hino => ?_, fun p hj => ?_,
      fun _ _ => id⟩
    · exact (hkeep p (htouched hj hino)).trans hino
    cases hp : s.cache.names.lookup p with
    | none =>
      rw [sizeAt_of_not_named hp]
      exact sizeAt_nonneg
    | some ino => exact (hsizeAt p (htouched hj hp)).ge
  · cases t with
    | free => exact trivial
    | absent p => exact ⟨hk.1, hnone p hk.2⟩
    | holds _ _ _ => exact absurd ht id
    | nowhere => exact absurd ht id

/-- The worker creates a file under a name nobody has. -/
lemma settled_create (hw : Intact s.cache) (hk : Knows i (.absent path) s) (now : ℤ) :
    Settled i (.holds path (some 0) (some (s.cache.create path now).1)) s
      (after i (.createFile path) s (s.cache.create path now).2) := by
  obtain ⟨hwriting, hnone⟩ := hk
  have hold : ∀ {p ino}, s.cache.names.lookup p = some ino →
      (s.cache.create path now).2.names.lookup p = some ino :=
    fun hp => (hw.numbered.create_old hnone now hp).1
  have hsize := hw.numbered.sizeAt_create hnone now
  have hnum := hw.numbered.create hnone now
  have hback : ∀ {k ino}, Backs s.cache k ino → Backs (s.cache.create path now).2 k ino := by
    rw [create_eq hnone]
    exact backs_of_newHandle
  refine ⟨⟨hnum.named, hnum.single, fun {p e} he => ?_, fun {p k} hh => ?_⟩, fun j hj => ?_, rfl, ?_⟩
  · rw [create_eq hnone] at he
    obtain ⟨hmem, hle⟩ := hw.sizes he
    obtain ⟨ino, hino⟩ := mem_iff.mp hmem
    exact ⟨mem_iff.mpr ⟨ino, hold hino⟩, hle.trans (hsize p).ge⟩
  · rw [create_eq hnone] at hh
    obtain ⟨ino, hino, hb⟩ := hw.handles hh
    exact ⟨ino, hold hino, hback hb⟩
  · refine ⟨mem_marks hj _ _, id, fun hwr => ?_, fun p ino _ => hold, fun p _ => (hsize p).ge,
      fun _ _ => hback⟩
    exact absurd (Option.some.inj (hwr.symm.trans hwriting)) hj
  · refine ⟨mem_insert_self _ _, fun n hn => ?_, fun k hk => ?_⟩
    · cases hn
      exact ⟨mem_iff.mpr ⟨_, (create_new hnone now).1⟩, sizeAt_nonneg⟩
    · cases hk
      refine ⟨_, (create_new hnone now).1, ?_⟩
      rw [create_eq hnone]
      exact backs_newHandle _ _

section

variable (hknown : Known w path least (some k))

include hknown

/-- A write through a handle of the file starts inside the file or at its end. -/
lemma Known.offset_le {ino : ℕ} {f : Inode} {off : ℤ} (hoff : Covers least off)
    (hinode : w.inodeOf k = some (ino, f)) :
    w.names.lookup path = some ino ∧ w.inodes[ino]? = some f ∧ off ≤ f.file.bytes.length := by
  obtain ⟨ino', hino, ch, hch, rfl⟩ := hknown.handle k rfl
  simp only [World.inodeOf, hch] at hinode
  split_ifs at hinode
  obtain ⟨f', hf, heq⟩ := map_eq_some_iff.mp hinode
  cases heq
  refine ⟨hino, hf, ?_⟩
  rw [← sizeAt_of_lookup hino hf]
  rcases hoff with hzero | ⟨l, hl, hle⟩
  · exact hzero.trans sizeAt_nonneg
  · exact hle.trans (hknown.least l hl).2

/-- A write that went through reaches its end. -/
lemma known_write {c : Choice} {n : ℕ} {data : List UInt8} {off : ℤ} (hoff : Covers least off)
    (hwrite : w.writeFile c .processWrite k data off = ((n, false), u)) :
    Known u path (raise least (off + n)) (some k) := by
  have hu : u = (w.writeFile c .processWrite k data off).2 := by rw [hwrite]
  have hgrown : Known u path least (some k) := by
    rw [hu]
    exact hknown.grows (calm_writeFile w c _ k data off).grows
  unfold World.writeFile at hwrite
  split at hwrite
  · simp at hwrite
  rename_i ino f hinode
  obtain ⟨hino, hf, hle⟩ := hknown.offset_le hoff hinode
  split_ifs at hwrite with hneg
  · simp at hwrite
  obtain ⟨⟨rfl, -⟩, rfl⟩ : (((World.sent c data).length = n ∧ c.fails = false) ∧
      _ = u) := by simpa only [Prod.mk.injEq] using hwrite
  have hlt := (List.getElem?_eq_some_iff.mp hf).1
  apply hgrown.raise (mem_iff.mpr ⟨_, hino⟩)
  refine le_of_le_of_eq ?_ (sizeAt_of_lookup (w := { w with inodes := w.inodes.set ino _ })
    hino (getElem?_set_self hlt)).symm
  have hlen : off.toNat + (World.sent c data).length
      ≤ (f.file.write 0 .processWrite off.toNat (World.sent c data)).bytes.length :=
    File.le_length_write (.inr (by omega))
  dsimp only
  omega

lemma Known.not_opensGap {writer : Writer} {data : List UInt8} {off : ℤ} (hoff : Covers least off) :
    opensGap (.writeAt writer k data off) w = false := by
  simp only [opensGap]
  split
  · rename_i hinode
    exact decide_eq_false (hknown.offset_le hoff hinode).2.2.not_gt
  · rfl

end

/-- No step of the outline leaves a hole. -/
lemma not_opensGap_of_follows {worker : Bool} {t' : Place} {o : Op} {r : o.Res}
    (hf : Follows worker t o r t') (ht : Knows i t s) : opensGap o s.cache = false := by
  cases hf with
  | nowhere => exact ht.elim
  | aloof _ ho => cases o <;> first | rfl | exact absurd ho id
  | written hoff => exact ht.2.not_opensGap hoff
  | unwritten hoff => exact ht.2.not_opensGap hoff
  | _ => rfl

/-- A step of the outline keeps the invariant, what the others count on, and
leads to where the outline says. -/
lemma settled_step {cfg : Warmup.Config} {worker : Bool} {t' : Place} {o : Op} {c : Choice} {r : o.Res}
    (hf : Follows worker t o r t') (hworker : worker = true → s.writing = some i)
    (hok : unlinksAlone (.base o) c s) (hw : Intact s.cache) (ht : Knows i t s)
    (hex : Warmup.exec cfg o c s.cache = some (r, u)) : Settled i t' s (after i o s u) := by
  cases hf with
  | nowhere => exact ht.elim
  | aloof _ ho => exact settled_aloof ho (calm_of_exec (not_stirs_of_aloof ho) hex) hw ht
  | @cached _ path hon e =>
    obtain ⟨he, rfl⟩ : s.cache.sizeCache.lookup path = some e ∧ s.cache = u := by
      simpa [Warmup.exec] using hex
    exact settled_look (Calm.refl _) hw (mem_insert_self _ _)
      (known_size (ht.known hon) hw he)
  | uncached hon | unseen hon | unkept hon | unopened hon =>
    have hc := calm_of_exec id hex
    exact settled_look hc hw (mem_insert_self _ _) ((ht.known hon).grows hc.grows)
  | @size _ path hon n =>
    obtain ⟨hn, rfl⟩ : (if c.fails then StatResult.failed else s.cache.statPath path) = .size n ∧
        s.cache = u := by simpa [Warmup.exec] using hex
    split_ifs at hn
    exact settled_look (Calm.refl _) hw (mem_insert_self _ _)
      (known_stat (ht.known hon) hw hn)
  | @missing _ path hon hwk hl =>
    obtain ⟨hn, rfl⟩ : (if c.fails then StatResult.failed else s.cache.statPath path) = .notExist ∧
        s.cache = u := by simpa [Warmup.exec] using hex
    split_ifs at hn
    exact (Calm.refl _).settled hw ⟨hworker hwk, hw.numbered.lookup_of_notExist hn⟩
  | @impossible path l h =>
    obtain ⟨hn, rfl⟩ : (if c.fails then StatResult.failed else s.cache.statPath path) = .notExist ∧
        s.cache = u := by simpa [Warmup.exec] using hex
    split_ifs at hn
    -- the file was seen and cannot have gone since
    obtain ⟨ino, hino⟩ := mem_iff.mp (ht.2.least l rfl).1
    rw [hw.numbered.lookup_of_notExist hn] at hino
    cases hino
  | @kept _ path hon h =>
    obtain ⟨hh, rfl⟩ : s.cache.handles.lookup path = some h ∧ s.cache = u := by
      simpa [Warmup.exec] using hex
    refine settled_look (Calm.refl _) hw (mem_insert_self _ _) ⟨(ht.known hon).least, ?_⟩
    intro k hk
    cases hk
    exact hw.handles hh
  | @opened _ path hon h =>
    have hc := calm_of_exec id hex
    refine settled_look hc hw (mem_insert_self _ _)
      ⟨((ht.known hon).grows hc.grows).least, ?_⟩
    intro k hk
    cases hk
    simp only [Warmup.exec] at hex
    split at hex
    · cases hex
    · rename_i ino hino
      split_ifs at hino
      cases hex
      exact ⟨ino, hino, backs_newHandle _ _⟩
  | stored =>
    simp only [Warmup.exec] at hex
    split at hex
    · cases hex
    · cases hex
      exact settled_handle hw ht.1 ht.2
  | beaten =>
    simp only [Warmup.exec] at hex
    split at hex <;> cases hex
    rename_i existing hh
    refine settled_look (Calm.refl _) hw ht.1 ⟨ht.2.least, ?_⟩
    intro k hk
    cases hk
    exact hw.handles hh
  | handed =>
    cases hex
    exact settled_handle hw ht.1 ht.2
  | givenUp => exact (calm_of_exec id hex).settled hw trivial
  | taken ha path =>
    have hc := calm_of_exec id hex
    apply hc.settled hw
    cases t with
    | free => exact trivial
    | absent p => exact ⟨ht.1, hc.grows.names ▸ ht.2⟩
    | holds _ _ _ => exact absurd ha id
    | nowhere => exact absurd ha id
  | removed ha path =>
    simp only [Warmup.exec] at hex
    split_ifs at hex with hfails
    · cases hex
      apply (Calm.refl _).settled hw
      exact ht.stable ((Calm.refl _).grows.respects fun _ => Iff.rfl)
    · cases hex
      exact settled_remove hw ha ht (hok.resolve_left hfails)
  | created hwk =>
    simp only [Warmup.exec] at hex
    split_ifs at hex
    · cases hex
    · cases hex
      exact settled_create hw ht c.now
  | uncreated =>
    simp only [Warmup.exec] at hex
    split_ifs at hex
    · cases hex
      exact (Calm.refl _).settled hw ht
    · cases hex
  | written hoff =>
    have hc := calm_of_exec id hex
    exact settled_look hc hw ht.1 (known_write ht.2 hoff (Option.some.inj hex))
  | unwritten _ =>
    have hc := calm_of_exec id hex
    exact settled_look hc hw ht.1 (ht.2.grows hc.grows)
  | measured he =>
    cases hex
    exact settled_storeSize hw ht he

end Kept

/-! ### Whole runs -/

section Whole

variable (cfg : Warmup.Config)

/-- The write worker takes up a chunk when it is free, so nobody else counts on
being the worker. -/
lemma dequeue_respects {i j : ℕ} {s : Shared} (hfree : s.writing = none) :
    Respects j s { s with writing := some i } :=
  ⟨fun _ => Iff.rfl, id, fun hw => absurd (hfree.symm.trans hw) (by simp), fun _ _ _ h => h,
    fun _ _ => le_rfl, fun _ _ => id⟩

lemma leave_respects {i j : ℕ} (hij : i ≠ j) (s : Shared) :
    Respects j s ((warmupSystem cfg).leave i s) := by
  refine ⟨fun path => ?_, mem_insert_of_mem, fun hw => ⟨?_, fun _ => id⟩, fun _ _ _ h => h,
    fun _ _ => le_rfl, fun _ _ => id⟩
  · simp [warmupSystem, hij.symm]
  · simp [warmupSystem, hw, hij.symm]

/-- Until its caller has gone on, what a call has told of a file is there. -/
def warmupParties : Parties (warmupSystem cfg) Told where
  inv s := Intact s.cache ∧ s.gapped = false
  ok := unlinksAlone
  rely := Respects
  post i a s := i ∉ s.retired → ∀ path n, a = some (path, n) → n ≤ s.cache.sizeAt path
  rely_refl := Respects.refl
  rely_trans _ _ _ _ := Respects.trans
  leave_inv _ _ h := h
  leave_rely _ _ s hij _ := leave_respects cfg hij s
  leave_post _ _ _ _ _ hr _ hi := absurd (hr.retired (mem_insert_self _ _)) hi

lemma warmup_step {i : ℕ} {t t' : Bool × Place} {o : Act} {r : o.Res} {c : Choice} {s s' : Shared}
    (hf : FollowsAct t o r t') (hok : unlinksAlone o c s)
    (hw : Intact s.cache ∧ s.gapped = false) (ht : Sees i t s)
    (hex : exec cfg i o c s = some (r, s')) :
    (Intact s'.cache ∧ s'.gapped = false) ∧ (∀ j, j ≠ i → Respects j s s') ∧ Sees i t' s' := by
  obtain ⟨worker, place⟩ := t
  obtain ⟨hworker, hplace⟩ := ht
  cases o with
  | base o =>
    obtain ⟨⟨r', u⟩, hex', heq⟩ := map_eq_some_iff.mp hex
    cases heq
    obtain ⟨hb, hf⟩ := hf
    have hstep := settled_step hf hworker hok hw.1 hplace hex'
    refine ⟨⟨hstep.inv, ?_⟩, hstep.respects, fun h => ?_, hstep.knows⟩
    · rw [after, hw.2, not_opensGap_of_follows hf hplace, Bool.or_false]
    · exact hstep.writing.trans (hworker (hb.symm.trans h))
  | dequeue =>
    simp only [exec] at hex
    split_ifs at hex with hfree
    cases hex
    obtain rfl : t' = (true, place) := hf
    exact ⟨hw, fun j _ => dequeue_respects hfree, fun _ => rfl,
      hplace.stable (dequeue_respects hfree)⟩

lemma Knows.vouched {i : ℕ} {t : Place} {s : Shared} {path : String} {n : ℤ} (ht : Knows i t s)
    (h : Vouched path (some n) t) : n ≤ s.cache.sizeAt path := by
  rcases h n rfl with hzero | ⟨l, k, rfl, hle⟩
  · exact hzero.trans sizeAt_nonneg
  · exact hle.trans (ht.2.least l rfl).2

lemma warmup_valid {w : World} (hw : Intact w) (tasks : List Task) :
    (warmupParties cfg).Valid (together cfg w tasks) := by
  refine Parties.valid_of_outlines Sees ⟨hw, rfl⟩ (outline_program cfg) Sees.stable (warmup_step cfg)
    (fun _ => ⟨fun h => absurd h (by simp), trivial⟩) ?_
  intro i task a t v _ hends hsees _ path n ha
  exact hsees.2.vouched (hends path n ha)

/-- If nobody is at work on a file when it is unlinked, and neither its cached
size nor a handle has come back since the removal took them, then in every state
reached each cached size is covered by its file, no chunk has been written behind
the end of its file, and a range that is told is there when the call returns. -/
theorem cached_sizes_are_covered {ls₀ : List (Call × Answer)} {w : World}
    (hpast : Run (Serves cfg) World.fresh ls₀ w) (tasks : List Task) (ls : List (ℕ × Move Choice))
    (now : Protocol.Config Act Act.Res Told Shared)
    (hrun : Run (Guarded (Allowed unlinksAlone) (warmupSystem cfg).Step) (together cfg w tasks) ls
      now) :
    (∀ path e, now.state.cache.sizeCache.lookup path = some e →
      ∃ ino f, now.state.cache.names.lookup path = some ino ∧
        now.state.cache.inodes[ino]? = some f ∧ e.size ≤ f.file.bytes.length) ∧
    now.state.gapped = false ∧
    ∀ i path (n : ℤ), now.procs[i]? = some (.ret (some (path, n))) → i ∉ now.state.retired → 0 < n →
      ∃ ino f, now.state.cache.names.lookup path = some ino ∧
        now.state.cache.inodes[ino]? = some f ∧ n ≤ f.file.bytes.length := by
  have hend := (warmup_valid cfg (.of_sound (sound_of_run hpast)) tasks).run hrun
  obtain ⟨hintact, hgap⟩ := hend.inv
  refine ⟨fun path e he => ?_, hgap, fun i path n hret hi hn => ?_⟩
  · obtain ⟨hmem, hle⟩ := hintact.sizes he
    obtain ⟨ino, hino⟩ := mem_iff.mp hmem
    have hf := getElem?_eq_getElem (hintact.named hino)
    exact ⟨ino, _, hino, hf, hle.trans (sizeAt_of_lookup hino hf).le⟩
  · have hle : n ≤ now.state.cache.sizeAt path := hend.post hret hi path n rfl
    cases hino : now.state.cache.names.lookup path with
    | none =>
      rw [sizeAt_of_not_named hino] at hle
      omega
    | some ino =>
      have hf := getElem?_eq_getElem (hintact.named hino)
      exact ⟨ino, _, rfl, hf, hle.trans (sizeAt_of_lookup hino hf).le⟩

end Whole

/-! ### A reader between its stat and its store -/

/-- A head of four bytes has been written. -/
def written : Option (Answer × World) :=
  serve smallHeads .fresh (.processWrite "abc" 1 [1, 2, 3, 4] 0, smooth)

def turns (i k : ℕ) : List (ℕ × Move Choice) :=
  List.replicate k (i, .act ⟨10 ^ 11, false, 0, ["abc-1.warmup"]⟩)

def removeAndAsk (w : World) : Protocol.Config Act Act.Res Told Shared :=
  together smallHeads w [.removeHash "abc", .getAvailableRange "abc" 1]

/-- The reader has its answer before the removal has come to the file. -/
def askFirst : List (ℕ × Move Choice) := turns 0 2 ++ turns 1 6

theorem range_told_before_removal_is_there :
    ∃ w now, written = some (.done, w) ∧
      runSchedule (warmupSystem smallHeads) unlinksAlone (removeAndAsk w) askFirst = some now ∧
      ∃ ino f, now.state.cache.names.lookup "/warm/abc-1.warmup" = some ino ∧
        now.state.cache.inodes[ino]? = some f ∧ 4 ≤ f.file.bytes.length := by
  obtain ⟨⟨_, w⟩, hw, rfl, now, hnow, hres, hretired⟩ : ∃ x ∈ written, x.1 = .done ∧
      ∃ now ∈ runSchedule (warmupSystem smallHeads) unlinksAlone (removeAndAsk x.2) askFirst,
        (now.procs[1]?).bind Program.result? = some (some ("/warm/abc-1.warmup", 4)) ∧
        1 ∉ now.state.retired := by decide +kernel
  obtain ⟨p, hp, hret⟩ := bind_eq_some_iff.mp hres
  rw [eq_ret_of_result? hret] at hp
  have hpast : Run (Serves smallHeads) World.fresh _ w := .cons (serves_of_serve hw) (.nil w)
  obtain ⟨-, -, htold⟩ := cached_sizes_are_covered smallHeads hpast _ _ now (run_of_runSchedule hnow)
  obtain ⟨ino, f, hino, hf, hle⟩ := htold 1 _ 4 hp hretired (by decide)
  exact ⟨w, now, hw, hnow, ino, f, hino, hf, Int.ofNat_le.mp hle⟩

/-- The removal has taken the handle and the cached size; the reader measures
the file and stores its size; then the file is unlinked. -/
def lateMeasure : List (ℕ × Move Choice) := turns 0 7 ++ turns 1 5 ++ turns 0 2

theorem removed_file_keeps_cached_size :
    ∃ calls w now, Run (Serves smallHeads) World.fresh calls w ∧
      Run (warmupSystem smallHeads).Step (removeAndAsk w) lateMeasure now ∧
      (now.state.cache.sizeCache.lookup "/warm/abc-1.warmup").map SizeEntry.size = some 4 ∧
      now.state.cache.names.lookup "/warm/abc-1.warmup" = none ∧
      (now.procs[1]?).bind Program.result? = some (some ("/warm/abc-1.warmup", 4)) := by
  obtain ⟨⟨answer, w⟩, hw, hend⟩ : ∃ x ∈ written, ∃ now ∈ runSchedule (warmupSystem smallHeads)
      (fun _ _ _ => True) (removeAndAsk x.2) lateMeasure,
      (now.state.cache.sizeCache.lookup "/warm/abc-1.warmup").map SizeEntry.size = some 4 ∧
      now.state.cache.names.lookup "/warm/abc-1.warmup" = none ∧
      (now.procs[1]?).bind Program.result? = some (some ("/warm/abc-1.warmup", 4)) := by
    decide +kernel
  obtain ⟨now, hnow, hfacts⟩ := exists_run_of_runSchedule hend
  have hpast : Run (Serves smallHeads) World.fresh _ w := .cons (serves_of_serve hw) (.nil w)
  exact ⟨_, w, now, hpast, hnow, hfacts⟩

end Tiramisu.Warmup.Races
