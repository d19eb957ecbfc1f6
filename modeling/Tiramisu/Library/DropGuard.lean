import Tiramisu.Library.TorrentCustody

/-!
# The check before a drop

Whoever holds the lock of a hash sees every stub that refers to it: no new one
appears while the walk is under way, and the walk comes to every directory on
the way to an old one.  So `dropTorrentIfUnused` takes no torrent away that
something refers to.
-/

namespace Tiramisu.Library

open Posix Protocol List

variable {cfg : LibraryConfig} {pid : ℕ} {s s' v : LibraryState} {α β : Type} {hash : String}
variable {dir p : Path} {listed : Bool} {key : String} {c : StoreChoice} {st st' : Store}
  {found : List Path}

/-- A request that keeps its side of `libraryParties`. -/
abbrev LibRuns (cfg : LibraryConfig) (pid : ℕ) (p : LibProg α) (Q : α → LibraryState → Prop)
    (s : LibraryState) : Prop :=
  wp ((librarySystem cfg).machine pid) ((libraryParties cfg).contract pid) Q p s

/-- The same for the store calls of a request. -/
abbrev StoreRuns (cfg : LibraryConfig) (pid : ℕ) (p : StoreProg α)
    (Q : α → LibraryState → Prop) (s : LibraryState) : Prop :=
  wp (((librarySystem cfg).machine pid).pull storeOps)
    (((libraryParties cfg).contract pid).pull storeOps) Q p s

def HoldsLock (pid : ℕ) (key : String) (s : LibraryState) : Prop := s.hashLocks.lookup key = some pid

lemma HoldsLock.rely (h : HoldsLock pid key s) (hr : LibRely pid s s') : HoldsLock pid key s' :=
  (hr.respects key h).holder pid h

/-! ### Rules -/

lemma libRuns_perform {o : LibOp} {Q : o.Res → LibraryState → Prop}
    (h : ∀ v, LibRely pid s v → LibraryInv cfg v → ∀ c, listedStays o c v → ∀ r u,
      o.exec cfg pid c v = some (r, u) →
        Effect cfg pid v u ∧ ∀ t, LibRely pid u t → Q r t) :
    LibRuns cfg pid (perform o) Q s := by
  refine wp_op fun v hv hi c hc r u hex => ?_
  obtain ⟨heff, hq⟩ := h v hv hi c hc r u hex
  exact ⟨heff.inv, heff.guar, fun t ht _ => hq t ht⟩

/-- A program of mild operations leaves alone what its request counts on. -/
lemma libRuns_mild {p : LibProg α} {R : α → Prop} (hp : p.Uses LibOp.Mild R) :
    LibRuns cfg pid p (fun a v => R a ∧ LibRely pid s v) s := by
  refine wp_of_uses hp (fun v v' h hr _ => h.trans hr) (fun o c v r u ho _ hi h hex => ?_) (.refl pid s)
  have hq : Quiet cfg v u := quiet_op hi ho hex
  exact ⟨hq.inv, hq.effect.guar, h.trans hq.rely⟩

lemma libRuns_bind_mild {p : LibProg α} {f : α → LibProg β} {R : α → Prop}
    {Q : β → LibraryState → Prop} (hp : p.Uses LibOp.Mild R)
    (h : ∀ a v, R a → LibRely pid s v → LibRuns cfg pid (f a) Q v) :
    LibRuns cfg pid (p >>= f) Q s :=
  wp_then (libRuns_mild hp) fun a v ha => h a v ha.1 ha.2

/-- Calls that change nothing. -/
def StoreCall.Reads : StoreCall → Prop
  | .stat _ | .lstat _ _ | .readDir _ _ | .readFile _ | .getEpisode _ | .episodesByFilePath _
  | .getTorrentInfo _ | .listTorrents => True
  | _ => False

lemma StoreCall.Reads.exec {o : StoreCall} {r : o.Res}
    (h : o.Reads) (hex : o.exec c st = some (r, st')) :
    st' = st ∧ ∀ written, recordWritten c written o r = written := by
  cases o with
  | mkdir | writeFile | remove | upsertEpisode | deleteEpisode | uploadTorrent | addTorrent
  | removeTorrent | blacklist => exact h.elim
  | stat | lstat | readDir | readFile | getEpisode | episodesByFilePath | getTorrentInfo
  | listTorrents =>
    cases hex
    exact ⟨rfl, fun _ => rfl⟩

/-- After a read the program goes on in the state it has read. -/
lemma storeRuns_read {o : StoreCall} {f : o.Res → StoreProg α} {Q : α → LibraryState → Prop}
    (ho : o.Reads) (h : ∀ v, LibRely pid s v → LibraryInv cfg v → ∀ c r, listedStays (.store o) c v →
      o.exec c.store v.store = some (r, v.store) → StoreRuns cfg pid (f r) Q v) :
    StoreRuns cfg pid (call o >>= f) Q s := by
  intro v hv hi c hc r u hex
  obtain ⟨⟨r1, u1⟩, hlib, heq⟩ := Option.map_eq_some_iff.mp hex
  obtain ⟨rfl, rfl⟩ := Prod.mk.inj heq
  have hlib' : LibOp.exec cfg pid (.store o) c v = some (r1, u1) := hlib
  obtain ⟨st, hcall, rfl⟩ := exec_store hlib'
  obtain ⟨rfl, hrec⟩ := ho.exec hcall
  rw [hrec]
  have hq : Quiet cfg v v := .refl hi
  exact ⟨hi, hq.effect.guar, h v hv hi c _ hc hcall⟩

/-! ### Walks -/

/-- Every stub below a directory that refers to the hash is among those found. -/
def Found (hash : String) (dir : Path) (found : List Path) (s : LibraryState) : Prop :=
  ∀ p, (custody s).refers hash (.inl p) → dir <+: p → p ∈ found

lemma Found.rely (h : Found hash dir found s)
    (hold : HoldsLock pid hash s) (hr : LibRely pid s s') : Found hash dir found s' :=
  fun p hp => h p ((hr.respects hash hold).refers (.inl p) hp)

lemma Found.mono {found' : List Path} (h : Found hash dir found s)
    (hsub : found ⊆ found') : Found hash dir found' s :=
  fun p hp hdir => hsub (h p hp hdir)

/-- Where there is nothing, no stub is below. -/
lemma found_of_node_none (h : s.store.media.node dir = none) : Found hash dir found s := by
  rintro p ⟨-, ino, data, hnode, -⟩ ⟨rest, rfl⟩
  by_cases hrest : rest = []
  · rw [hrest, append_nil, h] at hnode
    cases hnode
  · have hdir := Disk.isDir_of_below hrest hnode
    rw [Disk.isDir, h] at hdir
    cases hdir

/-- Below an object that is no directory there is at most itself. -/
lemma found_of_not_dir {n : Node Content} (h : s.store.media.node dir = some n)
    (hn : n.isDir = false) : Found hash dir [dir] s := by
  rintro p ⟨-, ino, data, hnode, -⟩ ⟨rest, rfl⟩
  by_cases hrest : rest = []
  · simp [hrest]
  · have hdir := Disk.isDir_of_below hrest hnode
    rw [Disk.isDir, h, Option.any_some, hn] at hdir
    cases hdir

/-- A stub below a directory is below one of its entries. -/
lemma below_entry {ino : ℕ} (h : s.store.media.node dir = some (.dir ino))
    (hp : (custody s).refers hash (.inl p)) (hdir : dir <+: p) :
    ∃ name ∈ s.store.media.names dir, dir ++ [name] <+: p := by
  obtain ⟨-, i, data, hnode, -⟩ := hp
  obtain ⟨rest, rfl⟩ := hdir
  cases rest with
  | nil =>
    rw [append_nil, h] at hnode
    cases hnode
  | cons name rest =>
    have hpath : dir ++ name :: rest = dir ++ [name] ++ rest := by simp
    rw [hpath] at hnode ⊢
    refine ⟨name, Disk.mem_names.mpr ?_, prefix_append _ _⟩
    by_cases hrest : rest = []
    · exact ⟨_, by simpa [hrest] using hnode⟩
    · obtain ⟨j, hj⟩ := Disk.isDir_iff.mp (Disk.isDir_of_below hrest hnode)
      exact ⟨_, hj⟩

lemma exec_lstat
    {r : Except Errno Bool} (hex : (StoreCall.lstat listed p).exec c st = some (r, st')) :
    (r = .error .enoent → st.media.node p = none) ∧
      ∀ isDir, r = .ok isDir → ∃ n, st.media.node p = some n ∧ n.isDir = isDir := by
  cases hex
  split_ifs
  · exact ⟨by simp, by simp⟩
  · exact ⟨Disk.node_of_lstat_error, fun isDir => Disk.lstat_eq_ok.mp⟩

lemma exec_readDir
    {r : Except Errno (List String)} (hex : (StoreCall.readDir listed p).exec c st = some (r, st')) :
    (r = .error .enoent → st.media.node p = none) ∧
      ∀ names, r = .ok names →
        (∃ ino, st.media.node p = some (.dir ino)) ∧ names = st.media.names p := by
  cases hex
  split_ifs
  · exact ⟨by simp, by simp⟩
  · exact ⟨Disk.readDir_eq_enoent, fun names => Disk.readDir_eq_ok⟩

/-- What a walk has seen when it ends.  Only the root itself may have been
missing: an entry that was listed is still there. -/
structure Walked (hash : String) (dir : Path) (listed : Bool) (a : List Path × Option Errno)
    (s : LibraryState) : Prop where
  found : a.2 = none ∨ a.2 = some .enoent → Found hash dir a.1 s
  listed : listed = true → a.2 ≠ some .enoent

lemma Walked.rely {a : List Path × Option Errno}
    (h : Walked hash dir listed a s) (hold : HoldsLock pid hash s) (hr : LibRely pid s s') :
    Walked hash dir listed a s' :=
  ⟨fun ha => (h.found ha).rely hold hr, h.listed⟩

lemma storeRuns_walkNames {visit : Path → StoreProg (List Path × Option Errno)}
    {names : List String} (hold : HoldsLock pid hash s)
    (hvisit : ∀ path s, HoldsLock pid hash s → StoreRuns cfg pid (visit path)
      (fun a v => LibRely pid s v ∧ Walked hash path true a v) s) :
    StoreRuns cfg pid (walkNames visit dir names) (fun a v => LibRely pid s v ∧
      (a.2 = none → ∀ name ∈ names, Found hash (dir ++ [name]) a.1 v) ∧ a.2 ≠ some .enoent) s := by
  induction names generalizing s with
  | nil => exact fun v hr _ => ⟨hr, by simp, by simp⟩
  | cons name names ih =>
    refine wp_then (hvisit (dir ++ [name]) s hold) fun a v ha => ?_
    obtain ⟨found, err⟩ := a
    obtain ⟨hsv, hwalked⟩ := ha
    have hheld : HoldsLock pid hash v := hold.rely hsv
    cases err with
    | some e => exact fun u hr _ => ⟨hsv.trans hr, by simp, hwalked.listed rfl⟩
    | none =>
      have hfirst : Found hash (dir ++ [name]) found v := hwalked.found (Or.inl rfl)
      refine wp_then (ih hheld) fun b u hb => ?_
      obtain ⟨more, err⟩ := b
      obtain ⟨hvu, hmore, herr⟩ := hb
      refine fun t hr _ => ⟨hsv.trans (hvu.trans hr), fun hnone n hn => ?_, herr⟩
      rcases mem_cons.mp hn with rfl | hn
      · exact (hfirst.rely hheld (hvu.trans hr)).mono (subset_append_left _ _)
      · exact ((hmore hnone n hn).rely (hheld.rely hvu) hr).mono (subset_append_right _ _)

lemma storeRuns_walkBelow {depth : ℕ} {path : Path} (hold : HoldsLock pid hash s) :
    StoreRuns cfg pid (walkBelow depth listed path)
      (fun a v => LibRely pid s v ∧ Walked hash path listed a v) s := by
  induction depth generalizing s listed path with
  | zero => exact fun v hr _ => ⟨hr, ⟨by simp, by simp⟩⟩
  | succ depth ih =>
    -- an answer that stops the walk, seen in the state `v`
    have hstop : ∀ (a : List Path × Option Errno) (v : LibraryState), LibRely pid s v →
        Walked hash path listed a v → StoreRuns cfg pid (pure a)
          (fun a v => LibRely pid s v ∧ Walked hash path listed a v) v := by
      intro a v hsv hwalked u hr _
      exact ⟨hsv.trans hr, hwalked.rely (hold.rely hsv) hr⟩
    have herror : ∀ (e : Errno) (v : LibraryState), LibRely pid s v →
        (e = .enoent → v.store.media.node path = none) →
        (listed = true → (v.store.media.node path).isSome = true) →
        Walked hash path listed ([], some e) v := by
      intro e v hsv hnone hstays
      refine ⟨fun herr => found_of_node_none (hnone (by simpa using herr)), fun hlisted heq => ?_⟩
      have hsome := hstays hlisted
      rw [hnone (Option.some.inj heq)] at hsome
      cases hsome
    refine storeRuns_read (by trivial) fun v hsv _ c r hok hex => ?_
    obtain ⟨hmissing, hthere⟩ := exec_lstat hex
    rcases r with e | isDir
    · refine hstop _ v hsv (herror e v hsv (fun he => hmissing (by rw [he])) ?_)
      rintro rfl
      exact hok
    obtain ⟨n, hn, hdir⟩ := hthere isDir rfl
    cases isDir with
    | false => exact hstop _ v hsv ⟨fun _ => found_of_not_dir hn hdir, by simp⟩
    | true =>
      refine storeRuns_read (by trivial) fun u hvu _ c r hok hex => ?_
      have hsu : LibRely pid s u := hsv.trans hvu
      obtain ⟨hmissing, hthere⟩ := exec_readDir hex
      rcases r with e | names
      · refine hstop _ u hsu (herror e u hsu (fun he => hmissing (by rw [he])) ?_)
        rintro rfl
        exact hok
      obtain ⟨⟨ino, hino⟩, rfl⟩ := hthere names rfl
      have hheld : HoldsLock pid hash u := hold.rely hsu
      refine wp_mono (fun a t ha => ?_) (storeRuns_walkNames hheld fun path s h => ih h)
      obtain ⟨hut, hnames, herr⟩ := ha
      refine ⟨hsu.trans hut, fun hend p hp hbelow => ?_, fun _ => herr⟩
      -- a stub that is there now was there when the directory was read
      obtain ⟨name, hname, hentry⟩ :=
        below_entry hino ((hut.respects hash hheld).refers (.inl p) hp) hbelow
      exact hnames (hend.resolve_right herr) name hname p hp hentry

/-! ### Drops -/

lemma storeRuns_findByHash (kind : Kind) (hold : HoldsLock pid hash s) :
    StoreRuns cfg pid (findByHash cfg kind hash) (fun a v => LibRely pid s v ∧
      (a = some [] → ∀ p, (custody v).refers hash (.inl p) → cfg.dir kind <+: p →
        namedFor kind hash p = false)) s := by
  refine wp_then (storeRuns_walkBelow hold) fun a v ha => ?_
  obtain ⟨found, err⟩ := a
  obtain ⟨hsv, hwalked⟩ := ha
  dsimp only
  split_ifs with herr
  · exact fun u hr _ => ⟨hsv.trans hr, by simp⟩
  intro u hr _
  refine ⟨hsv.trans hr, fun hempty p hp hdir => ?_⟩
  have hend : err = none ∨ err = some .enoent := by
    cases err with
    | none => exact Or.inl rfl
    | some e => simpa using herr
  have hmem : p ∈ found := (hwalked.rely (hold.rely hsv) hr).found hend p hp hdir
  have hnone := filter_eq_nil_iff.mp (Option.some.inj hempty) p hmem
  simpa using hnone

lemma storeRuns_stubsLeft {kinds : List Kind} (hold : HoldsLock pid hash s) :
    StoreRuns cfg pid (stubsLeft cfg hash kinds) (fun a v => LibRely pid s v ∧
      (a = false → ∀ kind ∈ kinds, ∀ p, (custody v).refers hash (.inl p) → cfg.dir kind <+: p →
        namedFor kind hash p = false)) s := by
  induction kinds generalizing s with
  | nil => exact fun v hr _ => ⟨hr, by simp⟩
  | cons kind kinds ih =>
    refine wp_then (storeRuns_findByHash kind hold) fun a v ha => ?_
    obtain ⟨hsv, hnone⟩ := ha
    have hheld : HoldsLock pid hash v := hold.rely hsv
    rcases a with _ | _ | ⟨path, paths⟩
    · exact fun u hr _ => ⟨hsv.trans hr, by simp⟩
    · refine wp_mono (fun b u hb => ?_) (ih hheld)
      obtain ⟨hvu, hrest⟩ := hb
      refine ⟨hsv.trans hvu, fun hfalse k hk p hp hdir => ?_⟩
      rcases mem_cons.mp hk with rfl | hk
      · exact hnone rfl p ((hvu.respects hash hheld).refers (.inl p) hp) hdir
      · exact hrest hfalse k hk p hp hdir
    · exact fun u hr _ => ⟨hsv.trans hr, by simp⟩

/-- Nothing refers to a hash whose stubs no search finds and whose rows are gone. -/
lemma unreferenced (hs : LibraryInv cfg s)
    (hstubs : ∀ kind p, (custody s).refers hash (.inl p) → cfg.dir kind <+: p →
      namedFor kind hash p = false)
    (hrows : ∀ i, ¬ (custody s).refers hash (.inr i)) : ∀ x, ¬ (custody s).refers hash x := by
  intro x hx
  cases x with
  | inr i => exact hrows i hx
  | inl p =>
    obtain ⟨hash', hcarries, kind, hdir, hnamed⟩ := hs.placed p hx.1
    obtain rfl : hash' = hash := hcarries.unique hx.2
    rw [hstubs kind p hx hdir] at hnamed
    cases hnamed

/-- Under the lock of its hash, a torrent goes only when nothing refers to it. -/
lemma libRuns_dropUnreferenced (hold : HoldsLock pid hash s) :
    LibRuns cfg pid (dropUnreferenced cfg hash) (fun _ v => HoldsLock pid hash v) s := by
  refine wp_then (wp_lift (storeRuns_stubsLeft hold)) fun a v ha => ?_
  obtain ⟨hsv, hstubs⟩ := ha
  have hheld : HoldsLock pid hash v := hold.rely hsv
  cases a with
  | true => exact fun u hr _ => hheld.rely hr
  | false =>
    refine wp_bind (libRuns_perform fun u hvu hi c _ r u' hex => ?_)
    cases hex
    refine ⟨(Quiet.refl hi).effect, fun t hut => ?_⟩
    have hheldu : HoldsLock pid hash u := hheld.rely hvu
    have hheldt : HoldsLock pid hash t := hheldu.rely hut
    have hkeep : LibRuns cfg pid (pure false) (fun _ v => HoldsLock pid hash v) t :=
      fun _ hr _ => hheldt.rely hr
    by_cases hfail : c.audio.fail = true
    · simp only [hfail, if_true]
      exact hkeep
    simp only [hfail, Bool.false_eq_true, if_false]
    cases href : u.audio.db.audioHashReferenced hash with
    | true => exact hkeep
    | false =>
      show LibRuns cfg pid (perform (.store (.removeTorrent hash))) _ t
      refine libRuns_perform fun w htw hiw c _ r w' hex => ?_
      obtain ⟨st, hcall, rfl⟩ := exec_store hex
      have huw : LibRely pid u w := hut.trans htw
      have hheldw : HoldsLock pid hash w := hheldt.rely htw
      -- what was not there at the search is not there now
      have hfree : ∀ x, ¬ (custody w).refers hash x := by
        refine unreferenced hiw (fun kind p hp hdir => ?_) fun i hr => ?_
        · refine hstubs rfl kind ?_ p
            (((hvu.trans huw).respects hash hheld).refers (.inl p) hp) hdir
          cases kind <;> simp
        · obtain ⟨-, row, hrow, hhash, -⟩ := (huw.respects hash hheldu).refers (.inr i) hr
          have hnot := any_eq_false.mp href row hrow
          exact hnot (decide_eq_true hhash)
      exact ⟨effect_removeTorrent hiw hheldw hfree hcall,
        fun t' hr => HoldsLock.rely (s := w.afterCall st _) hheldw hr⟩

lemma libRuns_unlock (hold : HoldsLock pid key s) :
    LibRuns cfg pid (perform (.unlock key)) (fun _ v => (pid ∈ v.abandoned ↔ pid ∈ s.abandoned) ∧
      ∀ k, k ≠ key → HoldsLock pid k s → HoldsLock pid k v) s := by
  refine libRuns_perform fun v hv hi c _ r u hex => ?_
  cases hex
  refine ⟨effect_unlock hi (hold.rely hv), fun t ht => ⟨ht.abandoned.trans hv.abandoned, ?_⟩⟩
  intro k hk hkey
  have hkept : HoldsLock pid k { v with hashLocks := v.hashLocks.erase key } :=
    (AList.lookup_erase_ne hk).trans (hkey.rely hv)
  exact hkept.rely ht

lemma libRuns_tryLock :
    LibRuns cfg pid (perform (.tryLock key)) (fun r v => r = true → HoldsLock pid key v) s := by
  refine libRuns_perform fun v hv hi c _ r u hex => ?_
  refine ⟨(quiet_op (o := .tryLock key) hi trivial hex).effect, fun t ht hr => ?_⟩
  subst hr
  simp only [LibOp.exec] at hex
  split at hex
  · exact absurd (Prod.mk.inj (Option.some.inj hex)).1 (by simp)
  · cases hex
    have hkey : HoldsLock pid key { v with hashLocks := v.hashLocks.insert key pid } :=
      AList.lookup_insert _
    exact hkey.rely ht

theorem libRuns_dropTorrentIfUnused :
    LibRuns cfg pid (dropTorrentIfUnused cfg hash) (fun _ _ => True) s := by
  unfold dropTorrentIfUnused
  split_ifs
  · exact fun _ _ _ => trivial
  refine wp_then libRuns_tryLock fun locked v hv => ?_
  cases locked with
  | false => exact fun _ _ _ => trivial
  | true =>
    refine wp_then (libRuns_dropUnreferenced (hv rfl)) fun dropped u hu => ?_
    exact wp_then (libRuns_unlock hu) fun _ _ _ _ _ _ => trivial

lemma libRuns_dropAll {hashes : List String} :
    LibRuns cfg pid (dropAll cfg hashes) (fun _ _ => True) s := by
  induction hashes generalizing s with
  | nil => exact fun _ _ _ => trivial
  | cons hash hashes ih =>
    exact wp_then libRuns_dropTorrentIfUnused fun _ _ _ => ih

end Tiramisu.Library
