import Tiramisu.Vfs.Saving

/-!
# The dirty flag

Every call that changes a saved map sets the flag afterwards, and only a save
clears it.  The flag can be trusted as long as no shard changes between the
moment a save copies it and the moment the save clears the flag.
-/

namespace Tiramisu.Vfs.Saving

open Go InodeMap Protocol Program Transition List

variable {H : Hashing}

/-! ### The snapshot under construction -/

/-- The merged maps of the first `k` shards. -/
def copied (im : InodeMap) (k : ℕ) : Snapshot :=
  ((finRange 32).take k).foldl (fun snap i => snap.copyShard (im.shards i)) ⟨∅, ∅, ∅⟩

lemma copied_succ (im : InodeMap) (j : Fin 32) :
    copied im (j + 1) = (copied im j).copyShard (im.shards j) := by
  have htake : (finRange 32).take (j + 1) = (finRange 32).take j ++ [j] := by
    rw [take_succ_eq_append_getElem (by simp)]
    simp
  rw [copied, htake, foldl_append]
  rfl

lemma same_copied {im im' : InodeMap} (k : ℕ)
    (h : ∀ j : Fin 32, (j : ℕ) < k → (im.shards j).Same (im'.shards j)) :
    (copied im k).Same (copied im' k) := by
  have hfold : ∀ (is : List (Fin 32)), (∀ j ∈ is, (im.shards j).Same (im'.shards j)) →
      ∀ a b : Snapshot, a.Same b →
        (is.foldl (fun snap i => snap.copyShard (im.shards i)) a).Same
          (is.foldl (fun snap i => snap.copyShard (im'.shards i)) b) := by
    intro is
    induction is with
    | nil => exact fun _ a b hab => hab
    | cons i is ih =>
      intro his a b hab
      exact ih (fun j hj => his j (by simp [hj])) _ _ (hab.copyShard (his i (by simp)))
  refine hfold _ (fun j hj => h j ?_) _ _ (.refl _)
  obtain ⟨n, hn, hget⟩ := mem_take_iff_getElem.mp hj
  have hval : n = (j : ℕ) := by
    rw [← hget]
    simp
  omega

lemma same_snapshot {im im' : InodeMap} (h : ∀ j, (im.shards j).Same (im'.shards j)) :
    im.snapshot.Same im'.snapshot :=
  same_copied 32 fun j _ => h j

/-! ### The condition -/

/-- The shards whose copy the running save has in hand. -/
def SaveStage.Frozen : SaveStage → Fin 32 → Prop
  | idle, _ => False
  | copying k, j => (j : ℕ) < k
  | committed, _ => True

instance (s : SaveStage) (j : Fin 32) : Decidable (s.Frozen j) := by
  cases s <;> unfold SaveStage.Frozen <;> infer_instance

/-- No entry of a shard changes after the running save has copied the shard,
and no committed row is deleted between the commit and the clearing of the flag. -/
def undisturbed (H : Hashing) : Op → Choice → World → Prop
  | .registerName p key, _, w =>
    w.im.nameOf H p = some key ∨ ¬ w.stage.Frozen (shardIndex H p)
  | .storeFile key inode, _, w =>
    w.im.inodeOf H key = some inode ∨ ¬ w.stage.Frozen (shardIndex H key)
  | .takeName p, _, w => w.im.nameOf H p = none ∨ ¬ w.stage.Frozen (shardIndex H p)
  | .takeFile key, _, w => w.im.inodeOf H key = none ∨ ¬ w.stage.Frozen (shardIndex H key)
  | .insertDir d _, _, w => w.im.dirOf H d ≠ none ∨ ¬ w.stage.Frozen (shardIndex H d)
  | .pruneRows _, c, w => c.fails = true ∨ w.stage ≠ .committed
  | _, _, _ => True

instance (o : Op) (c : Choice) (w : World) : Decidable (undisturbed H o c w) := by
  unfold undisturbed
  split <;> infer_instance

/-! ### Where a call stands -/

/-- Nothing to settle, a change without the flag, or inside a save. -/
inductive Stand
  | free
  | owes
  | copying (k : ℕ) (snap : Snapshot)
  | published
  | locked

inductive Follows : Stand → (o : Op) → o.Res → Stand → Prop
  | registered (p key) : Follows .free (.registerName p key) true .owes
  | known (p key) : Follows .free (.registerName p key) false .free
  | storeFile (key inode) : Follows .owes (.storeFile key inode) () .owes
  | storeFast (name inode) : Follows .owes (.storeFast name inode) () .owes
  | noName (p) : Follows .free (.takeName p) none .free
  | tookName (p key) : Follows .free (.takeName p) (some key) .owes
  | takeFile (key inode) : Follows .owes (.takeFile key) inode .owes
  | dropFast (name inode) : Follows .owes (.dropFast name inode) () .owes
  | inserted (d inode) : Follows .free (.insertDir d inode) true .owes
  | present (d inode) : Follows .free (.insertDir d inode) false .free
  | loadDir (d inode) : Follows .free (.loadDir d) inode .free
  | ghosts (j found ps) : Follows .free (.ghosts j found) ps .free
  | pruneRows (found) : Follows .free (.pruneRows found) () .owes
  | flag : Follows .owes (.setDirty true) () .free
  | flagAgain : Follows .free (.setDirty true) () .free
  | isDirty (b) : Follows .free .isDirty b .free
  | lock : Follows .free .lockSave () (.copying 0 ⟨∅, ∅, ∅⟩)
  | copy (j : Fin 32) (snap s) :
      Follows (.copying j snap) (.copyShard j) s (.copying (j + 1) (snap.copyShard s))
  | committed (snap) : Follows (.copying 32 snap) (.commit snap) true .published
  | failed (snap) : Follows (.copying 32 snap) (.commit snap) false .locked
  | clear : Follows .published (.setDirty false) () .locked
  | unlock : Follows .locked .unlockSave () .free

/-- A call that starts and ends with nothing to settle. -/
abbrev Settles {α : Type} (p : Prog α) : Prop := Outline Follows (fun _ t => t = .free) .free p

section Outlines

lemma settles_addFile (H : Hashing) (p infohash : String) (index : ℤ) :
    Settles (addFile H p infohash index) := by
  unfold addFile
  split_ifs
  · rfl
  refine outline_perform fun changed => ?_
  cases changed with
  | false => exact ⟨_, .known _ _, rfl⟩
  | true =>
    refine ⟨_, .registered _ _, ?_⟩
    exact outline_always (fun _ => .storeFile _ _) fun _ =>
      outline_always (fun _ => .storeFast _ _) fun _ =>
      outline_always (fun _ => .flag) fun _ => rfl

lemma settles_addDir (H : Hashing) (d : String) : Settles (addDir H d) := by
  refine outline_perform fun added => ?_
  cases added with
  | false => exact ⟨_, .present _ _, rfl⟩
  | true => exact ⟨_, .inserted _ _, outline_always (fun _ => .flag) fun _ => rfl⟩

lemma settles_getDirInode (H : Hashing) (d : String) : Settles (getDirInode H d) := by
  unfold getDirInode
  split_ifs
  · rfl
  refine outline_perform fun inode => ⟨_, .loadDir _ _, ?_⟩
  cases inode with
  | none => exact settles_addDir H d
  | some inode => rfl

lemma settles_removeFile (p : String) : Settles (removeFile p) := by
  refine outline_perform fun name => ?_
  cases name with
  | none => exact ⟨_, .noName _, rfl⟩
  | some key =>
    refine ⟨_, .tookName _ _, ?_⟩
    exact outline_always (fun _ => .takeFile _ _) fun _ =>
      outline_always (fun _ => .dropFast _ _) fun _ =>
      outline_always (fun _ => .flag) fun _ => rfl

lemma settles_collectGhosts (found : GoMap String Bool) (is : List (Fin 32)) :
    Settles (collectGhosts found is) := by
  induction is with
  | nil => rfl
  | cons i is ih =>
    refine outline_perform fun ps => ⟨_, .ghosts _ _ _, ?_⟩
    exact ih.bind fun qs t ht => ht

lemma settles_removeAll (ps : List String) : Settles (removeAll ps) := by
  induction ps with
  | nil => rfl
  | cons p ps ih =>
    refine (settles_removeFile p).bind fun _ t ht => ?_
    rw [ht]
    exact ih

lemma settles_pruneStored (hasDB : Bool) (found : GoMap String Bool) :
    Settles (pruneStored hasDB found) := by
  unfold pruneStored
  split_ifs
  · exact outline_always (fun _ => .pruneRows _) fun _ =>
      outline_always (fun _ => .flag) fun _ => rfl
  · exact outline_always (fun _ => .flagAgain) fun _ => rfl

lemma settles_pruneMissing (hasDB : Bool) (found : GoMap String Bool) :
    Settles (pruneMissing hasDB found) := by
  refine (settles_collectGhosts found _).bind fun toRemove t ht => ?_
  rw [ht]
  refine (settles_removeAll toRemove).bind fun _ t ht => ?_
  rw [ht]
  split_ifs
  · rfl
  · exact (settles_pruneStored hasDB found).bind fun _ t ht => ht

/-- The copying loop goes through the shards in order. -/
lemma outline_copyShards (is : List (Fin 32)) (k : ℕ) (snap : Snapshot) (hk : k ≤ 32)
    (his : is = (finRange 32).drop k) :
    Outline Follows (fun a t => t = .copying 32 a) (.copying k snap) (copyShards snap is) := by
  induction is generalizing k snap with
  | nil =>
    have hlen := congrArg length his
    simp only [length_nil, length_drop, length_finRange] at hlen
    have h32 : k = 32 := by omega
    rw [h32]
    rfl
  | cons i is ih =>
    have hlt : k < 32 := by
      by_contra hge
      rw [drop_eq_nil_of_le (by simpa using Nat.le_of_not_lt hge)] at his
      cases his
    rw [drop_eq_getElem_cons (by simpa using hlt), cons.injEq] at his
    obtain ⟨hi, his⟩ := his
    have hik : (i : ℕ) = k := by simp [hi]
    subst hik
    exact outline_perform fun s => ⟨_, .copy i snap s, ih (i + 1) _ hlt his⟩

lemma settles_saveToDisk : Settles saveToDisk := by
  refine outline_always (fun _ => .lock) fun _ => ?_
  refine (outline_copyShards _ 0 _ (by omega) rfl).bind fun snap t ht => ?_
  rw [ht]
  refine outline_perform fun ok => ?_
  cases ok with
  | false => exact ⟨_, .failed _, outline_always (fun _ => .unlock) fun _ => rfl⟩
  | true =>
    refine ⟨_, .committed _, ?_⟩
    exact outline_always (fun _ => .clear) fun _ => outline_always (fun _ => .unlock) fun _ => rfl

lemma settles_saveIfDirty : Settles saveIfDirty := by
  refine outline_perform fun dirty => ⟨_, .isDirty _, ?_⟩
  cases dirty with
  | false => rfl
  | true => exact settles_saveToDisk.bind fun _ t ht => ht

lemma Settles.ignore {α : Type} {p : Prog α} (h : Settles p) : Settles (Saving.ignore p) :=
  h.bind fun _ _ ht => ht

lemma settles_program (H : Hashing) (hasDB : Bool) (task : Task) :
    Settles (task.program H hasDB) := by
  cases task with
  | addFile p infohash index => exact (settles_addFile H p infohash index).ignore
  | addDir d => exact (settles_addDir H d).ignore
  | getDirInode d => exact (settles_getDirInode H d).ignore
  | removeFile p => exact settles_removeFile p
  | pruneMissing found => exact (settles_pruneMissing hasDB found).ignore
  | saveToDisk => exact settles_saveToDisk.ignore
  | saveIfDirty => exact settles_saveIfDirty

end Outlines

/-! ### What everybody keeps -/

structure Accounted (w : World) : Prop where
  flagged : w.im.snapshot.Same w.committed ∨ w.im.dirty = true ∨ w.owing.Nonempty
  published : w.stage = .committed → w.im.snapshot.Same w.committed

/-- What party `i` counts on: its debts are its own, and while it holds
`saveMu` the shards it has copied stay as they are. -/
structure Respects (i : ℕ) (w w' : World) : Prop where
  owing : i ∈ w'.owing ↔ i ∈ w.owing
  lock : w'.saveMu = some i ↔ w.saveMu = some i
  stage : w.saveMu = some i → w'.stage = w.stage
  shards : w.saveMu = some i → ∀ j, w.stage.Frozen j → (w.im.shards j).Same (w'.im.shards j)

variable {i : ℕ} {w w' w'' u : World}

lemma Respects.refl (i : ℕ) (w : World) : Respects i w w :=
  ⟨Iff.rfl, Iff.rfl, fun _ => rfl, fun _ _ _ => .refl _⟩

lemma Respects.trans (h : Respects i w w') (h' : Respects i w' w'') : Respects i w w'' := by
  refine ⟨h'.owing.trans h.owing, h'.lock.trans h.lock, fun hl => ?_, fun hl j hj => ?_⟩
  · exact (h'.stage (h.lock.mpr hl)).trans (h.stage hl)
  · have hj' : w'.stage.Frozen j := by
      rw [h.stage hl]
      exact hj
    exact (h.shards hl j hj).trans (h'.shards (h.lock.mpr hl) j hj')

def savingParties (H : Hashing) : Parties (savingSystem H) Unit where
  inv := Accounted
  ok := undisturbed H
  rely := Respects
  post i _ w := i ∉ w.owing ∧ w.saveMu ≠ some i
  rely_refl := Respects.refl
  rely_trans _ := Respects.trans
  leave_inv _ _ h := h
  leave_rely _ j w _ _ := Respects.refl j w
  leave_post _ _ _ h := h

/-- What a party knows where it stands. -/
def Sees (i : ℕ) : Stand → World → Prop
  | .free, w => i ∉ w.owing ∧ w.saveMu ≠ some i
  | .owes, w => w.saveMu ≠ some i
  | .copying k snap, w =>
    i ∉ w.owing ∧ w.saveMu = some i ∧ w.stage = .copying k ∧ (copied w.im k).Same snap
  | .published, w => i ∉ w.owing ∧ w.saveMu = some i ∧ w.stage = .committed
  | .locked, w => i ∉ w.owing ∧ w.saveMu = some i

lemma Sees.stable {t : Stand} (h : Sees i t w) (hr : Respects i w w') : Sees i t w' := by
  have howing : i ∉ w.owing → i ∉ w'.owing := fun hn hm => hn (hr.owing.mp hm)
  cases t with
  | free => exact ⟨howing h.1, fun hl => h.2 (hr.lock.mp hl)⟩
  | owes => exact fun hl => h (hr.lock.mp hl)
  | copying k snap =>
    obtain ⟨hn, hl, hs, hsnap⟩ := h
    refine ⟨howing hn, hr.lock.mpr hl, (hr.stage hl).trans hs, ?_⟩
    refine (Snapshot.Same.symm (same_copied k fun j hj => ?_)).trans hsnap
    exact hr.shards hl j (by rw [hs]; exact hj)
  | published => exact ⟨howing h.1, hr.lock.mpr h.2.1, (hr.stage h.2.1).trans h.2.2⟩
  | locked => exact ⟨howing h.1, hr.lock.mpr h.2⟩

/-- Where a step of party `i` ends up. -/
structure Settled (i : ℕ) (t : Stand) (w u : World) : Prop where
  inv : Accounted u
  respects : ∀ j, j ≠ i → Respects j w u
  sees : Sees i t u

section Steps

variable {im : InodeMap}

/-- A change that leaves the frozen shards as they are. -/
lemma settled_change (hw : Accounted w) (hlock : w.saveMu ≠ some i)
    (hfrozen : ∀ j, w.stage.Frozen j → (w.im.shards j).Same (im.shards j)) :
    Settled i .owes w (w.change i im) := by
  refine ⟨⟨.inr (.inr ⟨i, Finset.mem_insert_self _ _⟩), fun hs => ?_⟩, fun j hj => ?_, hlock⟩
  · have hstage : w.stage = .committed := hs
    have hsame : w.im.snapshot.Same im.snapshot :=
      same_snapshot fun j => hfrozen j (by rw [hstage]; trivial)
    exact hsame.symm.trans (hw.published hs)
  · exact ⟨by simp [World.change, hj], Iff.rfl, fun _ => rfl, fun _ => hfrozen⟩

lemma same_setShard (stage : SaveStage) (im : InodeMap) (k : String) (s : InodeShard)
    (h : (im.getShard H k).Same s ∨ ¬ stage.Frozen (shardIndex H k)) (j : Fin 32)
    (hj : stage.Frozen j) : (im.shards j).Same ((im.setShard H k s).shards j) := by
  rw [shards_setShard]
  split_ifs with hjk
  · rcases h with hsame | hfree
    · rw [hjk]
      exact hsame
    · exact absurd (hjk ▸ hj) hfree
  · exact .refl _

/-- A change of the base-name index alone. -/
lemma settled_fast (hw : Accounted w) (hlock : w.saveMu ≠ some i)
    (hshards : ∀ j, (w.im.shards j).Same (im.shards j)) (hdirty : im.dirty = w.im.dirty) :
    Settled i .owes w { w with im := im } := by
  have hsame : im.snapshot.Same w.im.snapshot := (same_snapshot hshards).symm
  refine ⟨⟨?_, fun hs => hsame.trans (hw.published hs)⟩, fun j _ => ?_, hlock⟩
  · rcases hw.flagged with h | h | h
    · exact .inl (hsame.trans h)
    · exact .inr (.inl (hdirty.trans h))
    · exact .inr (.inr h)
  · exact ⟨Iff.rfl, Iff.rfl, fun _ => rfl, fun _ j _ => hshards j⟩

lemma lookup_insert_of_lookup {ν : Type} {m : GoMap String ν} {k : String} {v : ν}
    (h : m.lookup k = some v) (l : String) : (m.insert k v).lookup l = m.lookup l := by
  by_cases hl : l = k
  · rw [hl, AList.lookup_insert, h]
  · rw [AList.lookup_insert_ne hl]

lemma lookup_erase_of_lookup {ν : Type} {m : GoMap String ν} {k : String}
    (h : m.lookup k = none) (l : String) : (m.erase k).lookup l = m.lookup l := by
  by_cases hl : l = k
  · rw [hl, AList.lookup_erase, h]
  · rw [AList.lookup_erase_ne hl]

/-- A step that only reads. -/
lemma settled_same {t : Stand} (hw : Accounted w) (ht : Sees i t w) : Settled i t w w :=
  ⟨hw, fun j _ => .refl j w, ht⟩

/-- The steps of the holder of `saveMu` that leave maps and debts alone. -/
lemma respects_of_holder (hl : w.saveMu = some i) {j : ℕ} (hj : j ≠ i)
    (howing : u.owing = w.owing) (hlock : u.saveMu ≠ some j) : Respects j w u := by
  have hne : w.saveMu ≠ some j := by
    rw [hl]
    simpa using Ne.symm hj
  exact ⟨by rw [howing], iff_of_false hlock hne, fun h => absurd h hne, fun h => absurd h hne⟩

/-- Setting the flag pays the debt. -/
lemma settled_flag (hw : Accounted w) (hlock : w.saveMu ≠ some i) :
    Settled i .free w
      { w with im := { w.im with dirty := true }, owing := w.owing.erase i } := by
  refine ⟨⟨.inr (.inl rfl), hw.published⟩, fun j hj => ?_, by simp, hlock⟩
  exact ⟨by simp [hj], Iff.rfl, fun _ => rfl, fun _ j _ => .refl _⟩

/-- What an operation is part of. -/
inductive Op.Part
  | add
  | remove
  | flag
  | save

def Op.part : Op → Op.Part
  | registerName _ _ | storeFile _ _ | storeFast _ _ | insertDir _ _ | loadDir _ => .add
  | takeName _ | takeFile _ | dropFast _ _ | ghosts _ _ | pruneRows _ => .remove
  | setDirty true | isDirty => .flag
  | setDirty false | lockSave | unlockSave | copyShard _ | commit _ => .save

variable {t t' : Stand} {o : Op} {r : o.Res} {c : Choice}

lemma settled_add_step (hpart : o.part = .add) (hf : Follows t o r t')
    (hok : undisturbed H o c w) (hw : Accounted w) (ht : Sees i t w)
    (hex : exec H i o c w = some (r, u)) : Settled i t' w u := by
  cases hf with
  | registered p key =>
    simp only [exec] at hex
    split_ifs at hex with hname
    · simp at hex
    · obtain rfl : w.change i (w.im.setName H p key) = u := by simpa using hex
      exact settled_change hw ht.2 (same_setShard _ _ _ _ (.inr (hok.resolve_left hname)))
  | known p key =>
    simp only [exec] at hex
    split_ifs at hex with hname
    · obtain rfl : w = u := by simpa using hex
      exact settled_same hw ht
    · simp at hex
  | storeFile key inode =>
    obtain rfl : w.change i (w.im.setFile H key inode) = u := by simpa [exec] using hex
    refine settled_change hw ht (same_setShard _ _ _ _ (hok.imp_left fun h => ?_))
    exact ⟨fun _ => rfl, lookup_insert_of_lookup h, fun _ => rfl⟩
  | storeFast name inode =>
    obtain rfl : { w with im := w.im.setFast H name inode } = u := by simpa [exec] using hex
    refine settled_fast hw ht (fun j => ?_) rfl
    refine same_setShard (H := H) .committed w.im name _ (.inl ?_) j trivial
    exact ⟨fun _ => rfl, fun _ => rfl, fun _ => rfl⟩
  | inserted d inode =>
    simp only [exec] at hex
    split_ifs at hex with hdir
    · obtain rfl : w.change i (w.im.setDir H d inode) = u := by simpa using hex
      have hfree := hok.resolve_left (by simp [hdir])
      exact settled_change hw ht.2 (same_setShard _ _ _ _ (.inr hfree))
    · simp at hex
  | present d inode =>
    simp only [exec] at hex
    split_ifs at hex with hdir
    · simp at hex
    · obtain rfl : w = u := by simpa using hex
      exact settled_same hw ht
  | loadDir d inode =>
    obtain ⟨-, rfl⟩ : w.im.dirOf H d = inode ∧ w = u := by simpa [exec] using hex
    exact settled_same hw ht
  | _ => exact absurd hpart (by simp [Op.part])

lemma settled_remove_step (hpart : o.part = .remove) (hf : Follows t o r t')
    (hok : undisturbed H o c w) (hw : Accounted w) (ht : Sees i t w)
    (hex : exec H i o c w = some (r, u)) : Settled i t' w u := by
  cases hf with
  | noName p =>
    simp only [exec] at hex
    split at hex
    · obtain rfl : w = u := by simpa using hex
      exact settled_same hw ht
    · simp at hex
  | tookName p key =>
    simp only [exec] at hex
    split at hex
    · simp at hex
    · rename_i key' hname
      obtain ⟨-, rfl⟩ : key' = key ∧ w.change i (w.im.deleteName H p) = u := by simpa using hex
      have hfree := hok.resolve_left (by simp [hname])
      exact settled_change hw ht.2 (same_setShard _ _ _ _ (.inr hfree))
  | takeFile key inode =>
    obtain ⟨-, rfl⟩ : (w.im.inodeOf H key).getD 0 = inode ∧
        w.change i (w.im.deleteFile H key) = u := by simpa [exec] using hex
    refine settled_change hw ht (same_setShard _ _ _ _ (hok.imp_left fun h => ?_))
    exact ⟨fun _ => rfl, lookup_erase_of_lookup h, fun _ => rfl⟩
  | dropFast name inode =>
    simp only [exec, Option.some.injEq, Prod.mk.injEq, true_and] at hex
    split_ifs at hex
    · subst hex
      refine settled_fast hw ht (fun j => ?_) rfl
      refine same_setShard (H := H) .committed w.im name _ (.inl ?_) j trivial
      exact ⟨fun _ => rfl, fun _ => rfl, fun _ => rfl⟩
    · subst hex
      exact settled_same hw ht
  | ghosts j found ps =>
    simp only [exec] at hex
    split_ifs at hex
    obtain ⟨-, rfl⟩ : c.order = ps ∧ w = u := by simpa using hex
    exact settled_same hw ht
  | pruneRows found =>
    simp only [exec] at hex
    split_ifs at hex with hfail
    · obtain rfl : w = u := by simpa using hex
      exact settled_same hw ht.2
    obtain rfl : { w with committed := pruneRows w.committed found, owing := insert i w.owing }
        = u := by simpa using hex
    have hstage : w.stage ≠ .committed := hok.resolve_left (by simpa using hfail)
    refine ⟨⟨.inr (.inr ⟨i, Finset.mem_insert_self _ _⟩), fun hs => absurd hs hstage⟩,
      fun j hj => ?_, ht.2⟩
    exact ⟨by simp [hj], Iff.rfl, fun _ => rfl, fun _ j _ => .refl _⟩
  | _ => exact absurd hpart (by simp [Op.part])

lemma settled_flag_step (hpart : o.part = .flag) (hf : Follows t o r t') (hw : Accounted w)
    (ht : Sees i t w) (hex : exec H i o c w = some (r, u)) : Settled i t' w u := by
  cases hf with
  | flag =>
    obtain rfl : { w with im := { w.im with dirty := true }, owing := w.owing.erase i } = u := by
      simpa [exec] using hex
    exact settled_flag hw ht
  | flagAgain =>
    obtain rfl : { w with im := { w.im with dirty := true }, owing := w.owing.erase i } = u := by
      simpa [exec] using hex
    exact settled_flag hw ht.2
  | isDirty b =>
    obtain ⟨-, rfl⟩ : w.im.dirty = b ∧ w = u := by simpa [exec] using hex
    exact settled_same hw ht
  | _ => exact absurd hpart (by simp [Op.part])

lemma settled_save_step (hpart : o.part = .save) (hf : Follows t o r t') (hw : Accounted w)
    (ht : Sees i t w) (hex : exec H i o c w = some (r, u)) : Settled i t' w u := by
  cases hf with
  | lock =>
    simp only [exec] at hex
    split_ifs at hex with hlock
    obtain rfl : { w with saveMu := some i, stage := .copying 0 } = u := by simpa using hex
    refine ⟨⟨hw.flagged, fun hs => by cases hs⟩, fun j hj => ?_, ht.1, rfl, rfl, .refl _⟩
    exact ⟨Iff.rfl, by simp [hlock, Ne.symm hj], fun h => by simp [hlock] at h,
      fun h => by simp [hlock] at h⟩
  | copy j snap s =>
    obtain ⟨rfl, rfl⟩ : w.im.shards j = s ∧ { w with stage := .copying (j + 1) } = u := by
      simpa [exec] using hex
    obtain ⟨hn, hl, -, hsnap⟩ := ht
    refine ⟨⟨hw.flagged, fun hs => by cases hs⟩, fun j' hj' => ?_, hn, hl, rfl, ?_⟩
    · exact respects_of_holder hl hj' rfl (by simpa [hl] using Ne.symm hj')
    · rw [copied_succ]
      exact hsnap.copyShard (.refl _)
  | committed snap =>
    simp only [exec] at hex
    split_ifs at hex
    · simp at hex
    · obtain rfl : { w with committed := snap, stage := .committed } = u := by simpa using hex
      obtain ⟨hn, hl, -, hsnap⟩ := ht
      exact ⟨⟨.inl hsnap, fun _ => hsnap⟩,
        fun j hj => respects_of_holder hl hj rfl (by simpa [hl] using Ne.symm hj), hn, hl, rfl⟩
  | failed snap =>
    simp only [exec] at hex
    split_ifs at hex
    · obtain rfl : { w with stage := .idle } = u := by simpa using hex
      obtain ⟨hn, hl, -, -⟩ := ht
      exact ⟨⟨hw.flagged, fun hs => by cases hs⟩,
        fun j hj => respects_of_holder hl hj rfl (by simpa [hl] using Ne.symm hj), hn, hl⟩
    · simp at hex
  | clear =>
    obtain rfl : { w with im := { w.im with dirty := false }, stage := .idle } = u := by
      simpa [exec] using hex
    obtain ⟨hn, hl, hs⟩ := ht
    exact ⟨⟨.inl (hw.published hs), fun h => by cases h⟩,
      fun j hj => respects_of_holder hl hj rfl (by simpa [hl] using Ne.symm hj), hn, hl⟩
  | unlock =>
    obtain rfl : { w with saveMu := none, stage := .idle } = u := by simpa [exec] using hex
    exact ⟨⟨hw.flagged, fun h => by cases h⟩,
      fun j hj => respects_of_holder ht.2 hj rfl (by simp), ht.1, by simp⟩
  | _ => exact absurd hpart (by simp [Op.part])

lemma settled_step (hf : Follows t o r t') (hok : undisturbed H o c w) (hw : Accounted w)
    (ht : Sees i t w) (hex : exec H i o c w = some (r, u)) : Settled i t' w u := by
  cases hpart : o.part with
  | add => exact settled_add_step hpart hf hok hw ht hex
  | remove => exact settled_remove_step hpart hf hok hw ht hex
  | flag => exact settled_flag_step hpart hf hw ht hex
  | save => exact settled_save_step hpart hf hw ht hex

end Steps

/-! ### Runs -/

/-- As long as no shard changes between its copy by a save and the save's
clearing of the flag, the flag is set whenever no save is running, no call
stands between a change and its setting of the flag, and the maps differ from
the committed snapshot; a call that has returned owes nothing. -/
theorem dirty_of_unsaved (H : Hashing) (hasDB : Bool) (im : InodeMap) (tasks : List Task)
    (ls : List (ℕ × Move Choice)) (cfg : Config Op Op.Res Unit World)
    (hrun : Run (Guarded (Allowed (undisturbed H)) (savingSystem H).Step)
      (together H hasDB im tasks) ls cfg) :
    (cfg.state.saveMu = none → cfg.state.owing = ∅ →
      ¬ cfg.state.im.snapshot.Same cfg.state.committed → cfg.state.im.dirty = true) ∧
    ∀ i : ℕ, cfg.procs[i]? = some (.ret ()) →
      i ∉ cfg.state.owing ∧ cfg.state.saveMu ≠ some i := by
  have hvalid : (savingParties H).Valid (together H hasDB im tasks) := by
    refine Parties.valid_of_outlines Sees ⟨.inl (.refl _), fun h => by cases h⟩
      (settles_program H hasDB) Sees.stable (fun hf hok hw ht hex => ?_) (fun i => by simp [Sees]) ?_
    · have hstep := settled_step hf hok hw ht hex
      exact ⟨hstep.inv, hstep.respects, hstep.sees⟩
    · rintro i task a t v - rfl hsees
      exact hsees
  have hend := hvalid.run hrun
  refine ⟨fun _ howing hdiff => ?_, fun i hi => hend.post hi⟩
  rcases hend.inv.flagged with h | h | h
  · exact absurd h hdiff
  · exact h
  · rw [howing] at h
    simp at h

/-! ### A change behind the save -/

/-- The next `k` operations of one party. -/
def turns (i k : ℕ) : List (ℕ × Move Choice) := replicate k (i, .act ⟨false, []⟩)

/-- A save and an `AddFile` on a fresh map. -/
def saveAndAdd : Config Op Op.Res Unit World :=
  together sharedPackHashing true newInodeMap
    [.saveToDisk, .addFile "/tv/a.mkv" sharedPack 1]

def addThenSave : Option (Config Op Op.Res Unit World) :=
  runSchedule (savingSystem sharedPackHashing) (undisturbed sharedPackHashing) saveAndAdd
    (turns 0 36 ++ turns 1 4)

/-- After the save the file is registered: the map differs and the flag says so. -/
theorem dirty_after_late_add :
    ∃ cfg, addThenSave = some cfg ∧
      ¬ cfg.state.im.snapshot.Same cfg.state.committed ∧ cfg.state.im.dirty = true := by
  obtain ⟨cfg, hcfg, hnames, hmu, howing⟩ : ∃ cfg ∈ addThenSave,
      cfg.state.im.snapshot.nameMap.lookup "/tv/a.mkv"
        ≠ cfg.state.committed.nameMap.lookup "/tv/a.mkv" ∧
      cfg.state.saveMu = none ∧ cfg.state.owing = ∅ := by decide +kernel
  have hdiff : ¬ cfg.state.im.snapshot.Same cfg.state.committed :=
    fun h => hnames (h.names "/tv/a.mkv").symm
  exact ⟨cfg, hcfg, hdiff,
    (dirty_of_unsaved _ _ _ _ _ _ (run_of_runSchedule hcfg)).1 hmu howing hdiff⟩

/-- The save has copied every shard when the file is registered, and clears the
flag that the registration set. -/
def lateAddSchedule : List (ℕ × Move Choice) := turns 0 33 ++ turns 1 4 ++ turns 0 3

def lateAddEnd : Option (Config Op Op.Res Unit World) :=
  runSchedule (savingSystem sharedPackHashing) (fun _ _ _ => True) saveAndAdd lateAddSchedule

theorem change_behind_save_is_not_flagged :
    ∃ cfg, Run (savingSystem sharedPackHashing).Step saveAndAdd lateAddSchedule cfg ∧
      cfg.state.saveMu = none ∧ cfg.state.owing = ∅ ∧ cfg.state.im.dirty = false ∧
      cfg.state.im.snapshot.nameMap.lookup "/tv/a.mkv"
        = some (fileKey sharedPackHashing sharedPack 1) ∧
      cfg.state.committed.nameMap.lookup "/tv/a.mkv" = none := by
  refine exists_run_of_runSchedule (?_ : ∃ cfg ∈ lateAddEnd, _)
  decide +kernel

end Tiramisu.Vfs.Saving
