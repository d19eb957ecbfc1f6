import Tiramisu.Library.AudioRequests

/-!
# Footprints of the writer's methods

Which names a program may make, fill, unlink or move, and which registry
statements it may run, whatever its calls answer.  Reads, syncs and the removal
of empty directories are always allowed.
-/

namespace Tiramisu.Library

open Posix Protocol Program Uses
open Metadb (AudioSection RelPath)

structure Footprint where
  mkdir : Path → Prop
  put : Path → Prop
  unlink : Path → Prop
  move : Path → Path → Prop
  stmt : DbCall → Prop

def FsCall.In (F : Footprint) : FsCall → Prop
  | .mkdirAt fd leaf => F.mkdir (fd.path ++ [leaf])
  | .createExcl fd leaf => F.put (fd.path ++ [leaf])
  | .write fd _ => F.put fd.path
  | .unlinkAt fd leaf => F.unlink (fd.path ++ [leaf])
  | .renameNoReplace fd leaf fd' leaf' => F.move (fd.path ++ [leaf]) (fd'.path ++ [leaf'])
  | .openDir _ _ | .syncFile _ | .fstat _ | .rmdirAt _ _ | .statAt _ _ | .syncDir _ => True

lemma FsCall.In.mono {F G : Footprint} {call : FsCall} (h : call.In F)
    (hmk : ∀ p, F.mkdir p → G.mkdir p) (hput : ∀ p, F.put p → G.put p)
    (hdel : ∀ p, F.unlink p → G.unlink p) (hmv : ∀ p q, F.move p q → G.move p q) : call.In G := by
  cases call with
  | openDir | syncFile | fstat | rmdirAt | statAt | syncDir => exact h
  | mkdirAt => exact hmk _ h
  | createExcl | write => exact hput _ h
  | unlinkAt => exact hdel _ h
  | renameNoReplace => exact hmv _ _ h

def Op.In (F : Footprint) : Op → Prop
  | .fs _ call => call.In F
  | .db _ call => F.stmt call
  | .render _ => True

lemma checkRel_ne_nil {rel : RelPath} (h : checkRel rel = true) : rel ≠ [] := by
  rintro rfl
  simp [checkRel] at h

variable {F : Footprint}
variable {rows : List Metadb.AudioProjection} {sec : AudioSection} {opened : List AudioSection}
  {call : FsCall}

lemma uses_fs_bind {α : Type} {R : α → Prop} {undo : Bool}
    {f : call.Res → Prog α} (h : call.In F) (hf : ∀ r, (f r).Uses (Op.In F) R) :
    (fs undo call >>= f).Uses (Op.In F) R :=
  ⟨h, hf⟩

lemma uses_fs {undo : Bool} (h : call.In F) : (fs undo call).Only (Op.In F) :=
  uses_op h

lemma uses_db {undo : Bool} {call : DbCall} (h : F.stmt call) : (db undo call).Only (Op.In F) :=
  uses_op h

lemma uses_db_bind {α : Type} {R : α → Prop} {undo : Bool} {call : DbCall}
    {f : call.Res → Prog α} (h : F.stmt call) (hf : ∀ r, (f r).Uses (Op.In F) R) :
    (db undo call >>= f).Uses (Op.In F) R :=
  ⟨h, hf⟩

namespace SectionWriter

variable {undo : Bool} {w : SectionWriter} {rel : RelPath}

lemma path_append_leafOf (root : Path) (h : rel ≠ []) :
    root ++ rel.dropLast ++ [leafOf rel] = root ++ rel := by
  have hlast : leafOf rel = rel.getLast h := by
    simp [leafOf, List.getLast?_eq_some_getLast h]
  rw [List.append_assoc, hlast, List.dropLast_append_getLast h]

@[simp] lemma recordCreatedDir_root (rel : RelPath) : (w.recordCreatedDir rel).root = w.root := by
  unfold recordCreatedDir
  split_ifs <;> rfl

lemma uses_mkdirChain {acc : RelPath} {parts : List String}
    (hmk : ∀ x, x <+: acc ++ parts → x ≠ [] → F.mkdir (w.root ++ x)) :
    (w.mkdirChain undo acc parts).Uses (Op.In F) fun a => a.2.root = w.root := by
  induction parts generalizing w acc with
  | nil => exact uses_ret rfl
  | cons part parts ih =>
    have hacc : acc ++ [part] ++ parts = acc ++ part :: parts := by simp
    have hnext : ∀ v : SectionWriter, v.root = w.root →
        (v.mkdirChain undo (acc ++ [part]) parts).Uses (Op.In F) fun a => a.2.root = w.root := by
      intro v hv
      refine (ih (w := v) ?_).mono (fun _ h => h) fun a ha => ha.trans hv
      rw [hacc, hv]
      exact hmk
    refine except (uses_fs trivial) (fun e _ => ?_) fun _ _ => hnext w rfl
    by_cases he : e = .enoent
    · simp only [he, ne_eq, not_true_eq_false, if_false]
      refine except (uses_fs trivial) (fun _ _ => uses_ret rfl) fun _ _ => ?_
      have hdir : F.mkdir (w.root ++ acc ++ [part]) := by
        rw [List.append_assoc]
        exact hmk (acc ++ [part]) ⟨parts, hacc⟩ (by simp)
      refine except (uses_fs hdir) (fun e _ => ?_) fun _ _ => hnext _ (recordCreatedDir_root _)
      by_cases he : e = .eexist
      · simp only [he, not_true_eq_false, if_false]
        exact hnext w rfl
      · simp only [he, not_false_eq_true, if_true]
        exact uses_ret rfl
    · simp only [he, ne_eq, not_false_eq_true, if_true]
      exact uses_ret rfl

/-- What `openDirAt` hands back stays below the same root. -/
def Opens (w : SectionWriter) (rel : RelPath) (a : Except WriterError DirFd × SectionWriter) : Prop :=
  a.2.root = w.root ∧ ∀ fd, a.1 = .ok fd → fd.path = w.root ++ rel

lemma uses_openDirAt {create : Bool}
    (hmk : create = true → ∀ x, x <+: rel → x ≠ [] → F.mkdir (w.root ++ x)) :
    (w.openDirAt undo rel create).Uses (Op.In F) (w.Opens rel) := by
  have hok : ∀ (v : SectionWriter) (ino : ℕ), v.root = w.root →
      w.Opens rel (.ok ⟨v.root ++ rel, ino⟩, v) := by
    intro v ino hv
    refine ⟨hv, fun fd hfd => ?_⟩
    rw [← Except.ok.inj hfd, hv]
  have herr : ∀ (v : SectionWriter) (e : WriterError), v.root = w.root →
      w.Opens rel (.error e, v) := fun v e hv => ⟨hv, by simp⟩
  refine except (uses_fs trivial) (fun e _ => ?_) fun ino _ => uses_ret (hok w ino rfl)
  by_cases hc : (!create || decide (e ≠ .enoent)) = true
  · simp only [hc, if_true]
    exact uses_ret (herr w _ rfl)
  simp only [hc, Bool.false_eq_true, if_false]
  have hcreate : create = true := by
    cases create <;> simp_all
  have hchain : (w.mkdirChain undo [] rel).Uses (Op.In F) fun a => a.2.root = w.root :=
    uses_mkdirChain (by simpa using hmk hcreate)
  refine hchain.bind fun a ha => ?_
  obtain ⟨made, v⟩ := a
  cases made with
  | error e => exact uses_ret (herr v e ha)
  | ok _ =>
    exact except (uses_fs trivial) (fun e _ => uses_ret (herr v _ ha))
      fun ino _ => uses_ret (hok v ino ha)

lemma uses_openParent (create : Bool)
    (hmk : create = true → ∀ x, x <+: rel.dropLast → x ≠ [] → F.mkdir (w.root ++ x)) :
    (w.openParent undo rel create).Uses (Op.In F) (w.Opens rel.dropLast) :=
  uses_openDirAt hmk

/-- A parent opened without creating anything is within every footprint. -/
lemma uses_findParent : (w.openParent undo rel false).Uses (Op.In F) (w.Opens rel.dropLast) :=
  uses_openParent false (by simp)

lemma Opens.leaf {a : Except WriterError DirFd × SectionWriter} (h : w.Opens rel.dropLast a)
    {fd : DirFd} (hfd : a.1 = .ok fd) (hrel : rel ≠ []) :
    fd.path ++ [leafOf rel] = w.root ++ rel := by
  rw [h.2 fd hfd, path_append_leafOf w.root hrel]

/-- A call that works in a parent directory, or ends because there is none. -/
lemma uses_inParent {α : Type} {R : α → Prop} {p : Prog (Except WriterError DirFd × SectionWriter)}
    {f : Except WriterError DirFd × SectionWriter → Prog α}
    (hp : p.Uses (Op.In F) (w.Opens rel.dropLast))
    (herr : ∀ e v, v.root = w.root → (f (.error e, v)).Uses (Op.In F) R)
    (hok : ∀ fd v, v.root = w.root → (rel ≠ [] → fd.path ++ [leafOf rel] = w.root ++ rel) →
      (f (.ok fd, v)).Uses (Op.In F) R) : (p >>= f).Uses (Op.In F) R := by
  refine hp.bind fun a ha => ?_
  obtain ⟨parent, v⟩ := a
  cases parent with
  | error e => exact herr e v ha.1
  | ok fd => exact hok fd v ha.1 (ha.leaf rfl)

lemma uses_writeStagedIdentity {data : Content}
    (hmk : ∀ x, x <+: rel.dropLast → x ≠ [] → F.mkdir (w.root ++ x))
    (hput : F.put (w.root ++ rel)) (hdel : F.unlink (w.root ++ rel)) :
    (w.writeStagedIdentity rel data).Uses (Op.In F) fun a => a.2.root = w.root := by
  unfold writeStagedIdentity
  split_ifs with hc
  · exact uses_ret rfl
  refine uses_inParent (uses_openParent true fun _ => hmk) (fun _ _ hv => uses_ret hv)
    fun dirfd v hv hleaf => ?_
  specialize hleaf (checkRel_ne_nil (by simpa using hc))
  have hunlinked : ∀ e : WriterError,
      (fs true (.unlinkAt dirfd (leafOf rel)) >>= fun _ =>
        (pure (.error e, v) : Prog (Except WriterError ℕ × SectionWriter))).Uses
        (Op.In F) fun a => a.2.root = w.root := by
    intro e
    refine uses_fs_bind (by rw [FsCall.In, hleaf]; exact hdel) fun _ => ?_
    exact uses_ret hv
  have hputs : F.put (dirfd.path ++ [leafOf rel]) := by rwa [hleaf]
  refine except (uses_fs hputs) (fun _ _ => uses_ret hv) fun _ _ => ?_
  refine except (uses_fs hputs) (fun _ _ => hunlinked _) fun _ _ => ?_
  refine except (uses_fs trivial) (fun _ _ => hunlinked _) fun _ _ => ?_
  exact except (uses_fs trivial) (fun _ _ => hunlinked _) fun _ _ => uses_ret hv

lemma uses_publish {final : RelPath}
    (hmk : ∀ x, x <+: final.dropLast → x ≠ [] → F.mkdir (w.root ++ x))
    (hmv : F.move (w.root ++ rel) (w.root ++ final)) :
    (w.publish rel final).Uses (Op.In F) fun a => a.2.root = w.root := by
  unfold publish
  split_ifs with hc
  · exact uses_ret rfl
  simp only [Bool.or_eq_true, Bool.not_eq_true', not_or, Bool.not_eq_false] at hc
  have hrel : rel ≠ [] := checkRel_ne_nil hc.1
  have hfinal : final ≠ [] := checkRel_ne_nil hc.2
  refine uses_inParent uses_findParent (fun _ _ hv => uses_ret hv) fun _ v hv _ => ?_
  refine uses_inParent (uses_openParent true fun _ => by rwa [hv])
    (fun _ _ hu => uses_ret (hu.trans hv)) fun finalDir u hu hdst => ?_
  refine uses_inParent uses_findParent (fun _ _ ht => uses_ret (ht.trans (hu.trans hv)))
    fun stagedDir t ht hsrc => ?_
  have hroot : t.root = w.root := ht.trans (hu.trans hv)
  have hmoves : F.move (stagedDir.path ++ [leafOf rel]) (finalDir.path ++ [leafOf final]) := by
    rwa [hsrc hrel, hdst hfinal, hu, hv]
  refine except (uses_fs hmoves) (fun _ _ => uses_ret hroot) fun _ _ => ?_
  refine except (uses_fs trivial) (fun _ _ => uses_ret hroot) fun _ _ => ?_
  exact except (uses_fs trivial) (fun _ _ => uses_ret hroot) fun _ _ => uses_ret hroot

lemma uses_removeStaged (hdel : F.unlink (w.root ++ rel)) :
    (w.removeStaged rel).Only (Op.In F) := by
  unfold removeStaged
  split_ifs with hc
  · exact uses_done
  refine uses_inParent uses_findParent (fun _ _ _ => uses_done) fun dirfd v _ hleaf => ?_
  have hdels : F.unlink (dirfd.path ++ [leafOf rel]) := by
    rwa [hleaf (checkRel_ne_nil (by simpa using hc))]
  exact except (uses_fs hdels) (fun _ _ => uses_done) fun _ _ => uses_done

lemma uses_identity : (w.identity rel).Only (Op.In F) := by
  unfold identity
  split_ifs
  · exact uses_done
  refine uses_inParent uses_findParent (fun _ _ _ => uses_done) fun dirfd v _ _ => ?_
  exact except (uses_fs trivial) (fun _ _ => uses_done) fun _ _ => uses_done

lemma uses_removeStagedIfIdentity {want : ℕ} (hdel : F.unlink (w.root ++ rel)) :
    (w.removeStagedIfIdentity undo rel want).Only (Op.In F) := by
  unfold removeStagedIfIdentity
  split_ifs with hc
  · exact uses_done
  refine uses_inParent uses_findParent (fun _ _ _ => uses_done) fun dirfd v _ hleaf => ?_
  have hdels : F.unlink (dirfd.path ++ [leafOf rel]) := by
    rwa [hleaf (checkRel_ne_nil (by simpa using hc))]
  refine except (uses_fs trivial) (fun _ _ => uses_done) fun ino _ => ?_
  by_cases hino : ino = want
  · simp only [hino, ne_eq, not_true_eq_false, if_false]
    exact except (uses_fs hdels) (fun _ _ => uses_done) fun _ _ => uses_done
  · simp only [hino, ne_eq, not_false_eq_true, if_true]
    exact uses_done

lemma uses_removeDirsIfEmpty {rels : List RelPath} : (w.removeDirsIfEmpty rels).Only (Op.In F) := by
  induction rels with
  | nil => exact uses_done
  | cons rel rels ih =>
    have hone : (w.removeDirIfEmpty rel).Only (Op.In F) := by
      refine uses_inParent uses_findParent (fun _ _ _ => uses_done) fun dirfd v _ _ => ?_
      exact except (uses_fs trivial) (fun _ _ => uses_done) fun _ _ => uses_done
    exact hone.except (fun _ _ => uses_done) fun _ _ => ih

lemma uses_pruneUp {n : ℕ} {dir : RelPath} : (w.pruneUp n dir).Only (Op.In F) := by
  induction n generalizing dir with
  | zero => exact uses_done
  | succ n ih =>
    unfold pruneUp
    split_ifs
    · exact uses_done
    refine uses_inParent uses_findParent (fun e v _ => ?_) fun dirfd v _ _ => ?_
    · dsimp only
      split_ifs
      · exact ih
      · exact uses_done
    · exact except (uses_fs trivial) (fun _ _ => uses_done) fun _ _ => ih

lemma uses_pruneEmptyDirs : (w.pruneEmptyDirs rel).Only (Op.In F) := by
  unfold pruneEmptyDirs
  split_ifs
  · exact uses_done
  · exact uses_pruneUp

end SectionWriter

lemma uses_openSectionWriter :
    (openSectionWriter sec).Uses (Op.In F) fun r => ∀ w, r = .ok w → w = ⟨[sec.dirName], []⟩ := by
  refine uses_fs_bind trivial fun r => ?_
  cases r with
  | error e => exact uses_ret (by simp)
  | ok ino => exact uses_ret fun w hw => (Except.ok.inj hw).symm

open SectionWriter

lemma uses_unwindObjects {w : SectionWriter} {objects : List StagedObject}
    (hdel : ∀ obj ∈ objects, F.unlink (w.root ++ obj.rel)) :
    (unwindObjects w objects).Only (Op.In F) := by
  induction objects with
  | nil => exact uses_done
  | cons obj objs ih =>
    refine (uses_removeStagedIfIdentity (hdel obj (by simp))).bind fun r _ => ?_
    refine (ih fun o ho => hdel o (by simp [ho])).bind fun failed _ => ?_
    exact uses_done

lemma uses_unwind {S : LongestFirst} {txnID : String} {w : SectionWriter}
    {objects : List StagedObject} (hdel : ∀ obj ∈ objects, F.unlink (w.root ++ obj.rel))
    (hdb : F.stmt (.rollback txnID)) : (unwind S txnID w objects).Only (Op.In F) := by
  refine (uses_unwindObjects hdel).bind fun failed _ => ?_
  refine uses_removeDirsIfEmpty.bind fun r _ => ?_
  by_cases hf : failed = []
  · simp only [hf, ne_eq, not_true_eq_false, if_false]
    exact except (uses_db hdb) (fun _ _ => uses_done) fun _ _ => uses_done
  · simp only [hf, ne_eq, not_false_eq_true, if_true]
    exact uses_done

lemma uses_forgetProjection {w : SectionWriter} {virtualPath : RelPath}
    {row : Metadb.AudioProjection} (hdb : F.stmt (.delete sec virtualPath))
    (hhash : F.stmt (.byHash row.hash)) :
    (forgetProjection w sec virtualPath row).Only (Op.In F) := by
  refine uses_pruneEmptyDirs.except (fun _ _ => uses_done) fun _ _ => ?_
  refine except (uses_db hdb) (fun _ _ => uses_done) fun _ _ => ?_
  exact except (uses_db hhash) (fun _ _ => uses_done) fun _ _ => uses_done

lemma uses_finishRemoval {virtualPath : RelPath}
    {row : Metadb.AudioProjection} (hdel : F.unlink (sec.dirName :: row.virtualPath))
    (hdb : F.stmt (.delete sec virtualPath)) (hhash : F.stmt (.byHash row.hash)) :
    (finishRemoval sec virtualPath row).Only (Op.In F) := by
  refine uses_openSectionWriter.except (fun _ _ => uses_done) fun w hw => ?_
  obtain rfl := hw w rfl
  refine uses_identity.except (fun e _ => ?_) fun id _ => ?_
  · dsimp only
    split_ifs
    · exact uses_forgetProjection hdb hhash
    · exact uses_done
  · refine (uses_removeStagedIfIdentity hdel).bind fun r _ => ?_
    rcases r with e | _ | _
    · exact uses_done
    · refine uses_identity.except (fun _ _ => uses_forgetProjection hdb hhash) fun _ _ => ?_
      exact except (uses_db hdb) (fun _ _ => uses_done) fun _ _ => uses_done
    · exact uses_forgetProjection hdb hhash

lemma uses_removeRows {w : SectionWriter} (hdel : ∀ r ∈ rows, F.unlink (w.root ++ r.virtualPath))
    (hdb : ∀ r ∈ rows, F.stmt (.delete r.sec r.virtualPath)) :
    (removeRows w rows).Only (Op.In F) := by
  induction rows with
  | nil => exact uses_done
  | cons row rows ih =>
    have hrow : (unlinkRow w row).Only (Op.In F) := by
      refine uses_identity.except (fun _ _ => uses_done) fun id _ => ?_
      refine (uses_removeStagedIfIdentity (hdel row (by simp))).bind fun r _ => ?_
      cases r <;> exact uses_done
    refine hrow.bind fun unlinked _ => ?_
    cases unlinked with
    | false => exact uses_done
    | true =>
      refine uses_pruneEmptyDirs.except (fun _ _ => uses_done) fun _ _ => ?_
      refine except (uses_db (hdb row (by simp))) (fun _ _ => uses_done) fun _ _ => ?_
      exact ih (fun r hr => hdel r (by simp [hr])) fun r hr => hdb r (by simp [hr])

lemma uses_sectionWriterMemo : (sectionWriterMemo opened sec).Uses (Op.In F) fun r =>
      ∀ w, r = .ok w → w = ⟨[sec.dirName], []⟩ := by
  unfold sectionWriterMemo
  split_ifs
  · exact uses_ret fun w hw => (Except.ok.inj hw).symm
  · exact uses_openSectionWriter

lemma uses_removeStagedNames (hdel : ∀ r ∈ rows, F.unlink (r.sec.dirName :: r.virtualPath))
    (hstaged : ∀ r ∈ rows, F.unlink (r.sec.dirName :: stagingRelPath r)) :
    (removeStagedNames opened rows).Only (Op.In F) := by
  induction rows generalizing opened with
  | nil => exact uses_done
  | cons row rows ih =>
    have hrest : (removeStagedNames (row.sec :: opened) rows).Only (Op.In F) :=
      ih (fun r hr => hdel r (by simp [hr])) fun r hr => hstaged r (by simp [hr])
    refine uses_sectionWriterMemo.except (fun _ _ => uses_done) fun w hw => ?_
    obtain rfl := hw w rfl
    refine (uses_removeStaged (hdel row (by simp))).except (fun _ _ => uses_done)
      fun _ _ => ?_
    split_ifs
    · exact hrest
    · exact (uses_removeStaged (hstaged row (by simp))).except (fun _ _ => uses_done)
        fun _ _ => hrest

lemma uses_pruneRows : (pruneRows opened rows).Only (Op.In F) := by
  induction rows with
  | nil => exact uses_done
  | cons row rows ih =>
    unfold pruneRows
    split_ifs
    · exact uses_pruneEmptyDirs.bind fun _ _ => ih
    · exact ih

section

variable (hdel : ∀ r ∈ rows, F.unlink (r.sec.dirName :: r.virtualPath))

include hdel

section

variable (hstaged : ∀ r ∈ rows, F.unlink (r.sec.dirName :: stagingRelPath r))

include hstaged

lemma uses_recoverStagedTransaction {txnID : String} (hdb : F.stmt (.rollback txnID)) :
    (recoverStagedTransaction txnID rows).Only (Op.In F) := by
  refine (uses_removeStagedNames hdel hstaged).bind fun opened _ => ?_
  cases opened with
  | none => exact uses_done
  | some opened =>
    refine uses_pruneRows.bind fun _ _ => ?_
    exact except (uses_db hdb) (fun _ _ => uses_done) fun _ _ => uses_done

lemma uses_recoverTransactions {txns : List String} (hdb : ∀ txnID, F.stmt (.rollback txnID)) :
    (recoverTransactions rows txns).Only (Op.In F) := by
  induction txns with
  | nil => exact uses_done
  | cons txnID txns ih =>
    have hone : (recoverStagedTransaction txnID (rows.filter fun r => r.txnID = txnID)).Only
        (Op.In F) := uses_recoverStagedTransaction
      (fun r hr => hdel r (List.mem_of_mem_filter hr))
      (fun r hr => hstaged r (List.mem_of_mem_filter hr)) (hdb txnID)
    exact hone.bind fun _ _ => ih.bind fun _ _ => uses_done

end

lemma uses_recoverRemovingRows (hdb : ∀ r ∈ rows, F.stmt (.delete r.sec r.virtualPath)) :
    (recoverRemovingRows opened rows).Only (Op.In F) := by
  induction rows generalizing opened with
  | nil => exact uses_done
  | cons row rows ih =>
    have hrest : ∀ o, (recoverRemovingRows o rows).Only (Op.In F) := fun o =>
      ih (fun r hr => hdel r (by simp [hr])) fun r hr => hdb r (by simp [hr])
    refine uses_sectionWriterMemo.except (fun _ _ => (hrest _).bind fun _ _ => uses_done)
      fun w hw => ?_
    obtain rfl := hw w rfl
    refine (uses_removeStaged (hdel row (by simp))).except
      (fun _ _ => (hrest _).bind fun _ _ => uses_done) fun _ _ => ?_
    refine uses_pruneEmptyDirs.bind fun _ _ => ?_
    exact except (uses_db (hdb row (by simp)))
      (fun _ _ => (hrest _).bind fun _ _ => uses_done) fun _ _ => hrest _

end

end Tiramisu.Library
