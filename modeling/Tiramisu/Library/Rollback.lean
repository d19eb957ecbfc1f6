import Tiramisu.Library.Recovery

/-!
# A failed add takes back what it did

With nobody else at work and undo calls that succeed, a failed `AddAudio`
leaves disk and registry as it found them, with one exception: a directory
sync that fails after the rename.  The unwind then looks for the file under
its staging name, finds nothing, and keeps the rows.
-/

namespace Tiramisu.Library

open Protocol SectionWriter Metadb.Registry

section Failure

variable {streamURL : String → ℤ → String} {ok : Op → Choice → World → Prop} {w : World}
  {S : LongestFirst} {req : AddRequest}

/-- How a failed add ends: everything as before, or the staged rows left behind
by a failed directory sync. -/
def FailureEnds (w : World) {α : Type} : Except AddError α → World → Prop
  | .ok _, _ => True
  | .error _, u => ((∀ q, u.disk.node q = w.disk.node q) ∧ u.db = w.db ∧
      u.dirSyncFailed = w.dirSyncFailed) ∨ (u.db ≠ w.db ∧ u.dirSyncFailed = true)

lemma spec_addAudio (hU : UndoReliable ok) (hfresh : ∀ r ∈ w.db.rows, r.txnID ≠ req.txnID) :
    Spec streamURL ok (addAudio S req) (FailureEnds w) w := by
  refine wp_bind (spec_openDir fun r _ => ?_)
  cases r with
  | error e => exact spec_ret (spec_ret (.inl ⟨fun _ => rfl, rfl, rfl⟩))
  | ok _ =>
  refine spec_ret ?_
  split_ifs with hrows
  · exact spec_ret trivial
  refine spec_db fun c hc => ?_
  simp only [DbCall.exec]
  split_ifs
  · exact spec_ret (.inl ⟨fun _ => rfl, rfl, rfl⟩)
  cases hstage : w.db.stageAudioProjections req.txnID req.rows with
  | error e => exact spec_ret (.inl ⟨fun _ => rfl, rfl, rfl⟩)
  | ok db' =>
  have hchanged : db' ≠ w.db := by
    intro h
    have := AddRequest.rows_of_stage hstage
    rw [h] at this
    exact hrows (List.append_right_eq_self.mp this.symm)
  have hrestored : ∀ u, Restored w.disk req.txnID { w with db := db' } u →
      (∀ q, u.disk.node q = w.disk.node q) ∧ u.db = w.db ∧ u.dirSyncFailed = w.dirSyncFailed :=
    fun u hu => ⟨hu.disk, hu.db.trans (AddRequest.rollback_of_stage hfresh hstage), hu.flag⟩
  have hanch0 : Anchored [req.sec.dirName] w.disk [] ⟨[req.sec.dirName], []⟩ { w with db := db' } :=
    ⟨rfl, Overlay.refl _ _⟩
  refine wp_then (spec_writeLoop hanch0 (by simp)) fun r u hu => ?_
  cases r with
  | error e => exact spec_ret (.inl (hrestored u (hu hU)))
  | ok a =>
  obtain ⟨v, objects⟩ := a
  obtain ⟨honly, born, hborn, rfl, hanch, hcheck⟩ := hu
  rw [List.nil_append] at hanch ⊢
  have hmem : ∀ b ∈ born, b.1 ∈ req.rows := fun b hb => hborn ▸ List.mem_map_of_mem hb
  dsimp only
  rw [zip_stagedFiles hborn]
  have hanch1 : Anchored [req.sec.dirName] w.disk
      (([] : List Born).map (finalFile streamURL) ++ born.map (stagedFile streamURL)) v u := hanch
  refine wp_bind (wp_mono (fun r t ht => ?_) (spec_publishLoop hanch1 (by simp)
    fun b hb => ⟨hcheck b hb, AddRequest.visible_of_mem_rows (hmem b hb),
      AddRequest.leafHidden_of_mem_rows (hmem b hb)⟩))
  cases r with
  | error e =>
    rcases ht hU with hres | ⟨hflag, hdb⟩
    · exact spec_ret (.inl (hrestored t (hres.of_diskOnly honly)))
    · exact spec_ret (.inr ⟨by rwa [hdb, honly.1], hflag⟩)
  | ok a =>
  obtain ⟨v', objects⟩ := a
  obtain ⟨honly', rfl, hanch', hgone⟩ := ht
  rw [List.nil_append] at hanch' ⊢
  have hdb : t.db = db' := (honly.trans honly').1
  refine spec_db fun c hc => ?_
  simp only [DbCall.exec]
  split_ifs
  · refine wp_then (spec_unwind (fun _ => hanch') ?_) fun _ u hu => ?_
    · intro f hf
      obtain ⟨b, hb, rfl⟩ := List.mem_map.mp hf
      exact (hgone b hb).1
    · exact spec_ret (.inl (hrestored u ((hu hU).of_diskOnly (honly.trans honly'))))
  · simp only [commitAudioProjections, hdb,
      AddRequest.rowsAffected_of_stage hfresh hstage, ne_eq, not_true_eq_false, if_false]
    exact spec_ret trivial

/-- A failed add leaves files, directories and rows as they were exactly when no
directory sync failed. -/
theorem failed_add_restores_iff_no_dir_sync_failed (hU : UndoReliable ok)
    (hfresh : ∀ r ∈ w.db.rows, r.txnID ≠ req.txnID) (hflag : w.dirSyncFailed = false)
    {e : AddError} {w' : World}
    (h : Steps (machine streamURL) ok (addAudio S req) w (.ret (.error e)) w') :
    ((∀ q, w'.disk.node q = w.disk.node q) ∧ w'.db = w.db) ↔ w'.dirSyncFailed = false := by
  rcases steps_spec h (spec_addAudio hU hfresh) with
    ⟨hdisk, hdb, hsame⟩ | ⟨hdb, hfailed⟩
  · simp [hdisk, hdb, hsame, hflag]
  · simp [hdb, hfailed]

end Failure

/-- Only undo calls are free of faults. -/
def reliableUndo : Op → Choice → World → Prop
  | .fs true _, c, _ | .db true _, c, _ => c.fail = false
  | _, _, _ => True

instance (o : Op) (c : Choice) (w : World) : Decidable (reliableUndo o c w) := by
  unfold reliableUndo
  split <;> infer_instance

/-- Choices with one fault. -/
def faultAt (i n : ℕ) : List Choice :=
  (List.range n).map fun j => ⟨decide (j = i), 100 + j, .bytes ""⟩

def failedAdd (i : ℕ) : Program Op Op.Res (Except AddError Unit) × World :=
  runAlone (machine gostormURL) reliableUndo (faultAt i 60) (addAudio .insertion introRequest)
    ⟨empty, musicDisk, false⟩

lemma undoReliable_reliableUndo : UndoReliable reliableUndo :=
  ⟨fun _ _ _ h => h, fun _ _ _ h => h⟩

/-- The write of the staging file fails after two directories were made. -/
theorem failed_write_restores :
    (failedAdd 12).1.result? = some (.error ⟨.write (.errno .eio), none⟩) ∧
      (∀ q, (failedAdd 12).2.disk.node q = musicDisk.node q) ∧
      (failedAdd 12).2.db = empty := by
  have hsteps := steps_runAlone (machine gostormURL) reliableUndo (faultAt 12 60)
    (addAudio .insertion introRequest) ⟨empty, musicDisk, false⟩
  have hret : (runAlone (machine gostormURL) reliableUndo (faultAt 12 60)
      (addAudio .insertion introRequest) ⟨empty, musicDisk, false⟩).1
      = .ret (.error ⟨.write (.errno .eio), none⟩) := eq_ret_of_result? (by decide)
  rw [hret] at hsteps
  refine ⟨by decide, ?_⟩
  exact (failed_add_restores_iff_no_dir_sync_failed undoReliable_reliableUndo
    (by simp [empty]) rfl hsteps).mpr (by decide)

/-- The sync of the final directory fails: the track and its staged row stay. -/
theorem failed_dir_sync_leaves_track :
    ∃ e w', Steps (machine gostormURL) reliableUndo (addAudio .insertion introRequest)
        ⟨empty, musicDisk, false⟩ (.ret (.error e)) w' ∧
      w'.db.rows = introRequest.rows ∧
      w'.disk.node (diskPath ⟨.music, introPath⟩)
        = some (.file 111 (audioStub gostormURL (introRequest.row introPlan 0))) := by
  have hsteps := steps_runAlone (machine gostormURL) reliableUndo (faultAt 19 60)
    (addAudio .insertion introRequest) ⟨empty, musicDisk, false⟩
  have hret : (runAlone (machine gostormURL) reliableUndo (faultAt 19 60)
      (addAudio .insertion introRequest) ⟨empty, musicDisk, false⟩).1
      = .ret (.error ⟨.publish (.errno .eio), some (.incomplete [stagingRelPath
        (introRequest.row introPlan 0)])⟩) := eq_ret_of_result? (by decide)
  rw [hret] at hsteps
  exact ⟨_, _, hsteps, by decide, by decide⟩

end Tiramisu.Library
