import Tiramisu.Library.Coherence
import Tiramisu.Library.WriterSpec

/-!
# What an add does, loop by loop

The two loops of `AddAudio` and its unwind, with the writer's specifications
put together: a finished loop leaves the files of all its rows, a failed one
leaves the disk it started from, unless a directory sync failed after a rename.
-/

namespace Tiramisu.Library

open Posix Protocol Program SectionWriter List PlacedFile Metadb.Registry
open Metadb (AudioProjection Registry RelPath)

/-! ### Footprints of the loops -/

section Uses

variable {F : Footprint} {S : LongestFirst} {txnID : String} {w : SectionWriter}

lemma dropLast_stagingRelPath (row : AudioProjection) :
    (stagingRelPath row).dropLast = row.virtualPath.dropLast := by
  simp [stagingRelPath]

/-- What a footprint has to allow for the files of a row. -/
structure RowIn (F : Footprint) (root : Path) (row : AudioProjection) : Prop where
  mkdir : ∀ x, x <+: row.virtualPath.dropLast → x ≠ [] → F.mkdir (root ++ x)
  staged : F.unlink (root ++ stagingRelPath row)
  final : F.unlink (root ++ row.virtualPath)

lemma uses_writeLoop {objects : List StagedObject} {rows : List AudioProjection}
    (hrow : ∀ row ∈ rows, RowIn F w.root row)
    (hput : ∀ row ∈ rows, F.put (w.root ++ stagingRelPath row))
    (hobj : ∀ obj ∈ objects, F.unlink (w.root ++ obj.rel)) (hdb : F.stmt (.rollback txnID)) :
    (writeLoop S txnID w objects rows).Uses (Op.In F) fun r =>
      ∀ a, r = .ok a → a.1.root = w.root := by
  induction rows generalizing w objects with
  | nil =>
    refine uses_ret fun a ha => ?_
    rw [← Except.ok.inj ha]
  | cons row rows ih =>
    refine Uses.bind (R := fun _ => True) ⟨trivial, fun _ => trivial⟩ fun data _ => ?_
    cases data with
    | none => exact (uses_unwind hobj hdb).bind fun _ _ => uses_ret (by simp)
    | some data =>
      have hhead := hrow row (by simp)
      have hwrite : (w.writeStagedIdentity (stagingRelPath row) data).Uses (Op.In F) fun a =>
          a.2.root = w.root := by
        refine uses_writeStagedIdentity ?_ (hput row (by simp)) hhead.staged
        rw [dropLast_stagingRelPath]
        exact hhead.mkdir
      refine hwrite.bind fun a ha => ?_
      obtain ⟨r, v⟩ := a
      have hv : v.root = w.root := ha
      cases r with
      | error e =>
        exact (uses_unwind (by rwa [hv]) hdb).bind fun _ _ => uses_ret (by simp)
      | ok ino =>
        refine (ih (w := v) ?_ ?_ ?_).mono (fun _ h => h) fun r hr a ha =>
          (hr a ha).trans hv
        · exact fun r hr => hv ▸ hrow r (by simp [hr])
        · exact fun r hr => hv ▸ hput r (by simp [hr])
        rw [hv]
        exact Places.forall_join hobj hhead.staged

lemma uses_publishLoop {done : List StagedObject}
    {rest : List (AudioProjection × StagedObject)}
    (hrow : ∀ x ∈ rest, RowIn F w.root x.1)
    (hmv : ∀ x ∈ rest, F.unlink (w.root ++ x.2.rel) ∧
      F.move (w.root ++ x.2.rel) (w.root ++ x.1.virtualPath))
    (hobj : ∀ obj ∈ done, F.unlink (w.root ++ obj.rel)) (hdb : F.stmt (.rollback txnID)) :
    (publishLoop S txnID w done rest).Uses (Op.In F) fun r =>
      ∀ a, r = .ok a → a.1.root = w.root ∧
        a.2.map (·.rel) = done.map (·.rel) ++ rest.map (·.1.virtualPath) := by
  induction rest generalizing w done with
  | nil =>
    refine uses_ret fun a ha => ?_
    rw [← Except.ok.inj ha]
    simp
  | cons x rest ih =>
    obtain ⟨row, obj⟩ := x
    have hhead := hrow (row, obj) (by simp)
    refine (uses_publish hhead.mkdir (hmv (row, obj) (by simp)).2).bind fun a ha => ?_
    obtain ⟨r, v⟩ := a
    have hv : v.root = w.root := ha
    cases r with
    | error e =>
      refine (uses_unwind ?_ hdb).bind fun _ _ => uses_ret (by simp)
      rw [hv]
      exact forall_mem_append.mpr ⟨hobj,
        forall_mem_map (f := Prod.snd) (l := (row, obj) :: rest) |>.mpr fun x hx => (hmv x hx).1⟩
    | ok _ =>
      refine (ih (w := v) ?_ ?_ ?_).mono (fun _ h => h) fun r hr a ha => ?_
      · exact fun x hx => hv ▸ hrow x (by simp [hx])
      · exact fun x hx => hv ▸ hmv x (by simp [hx])
      · rw [hv]
        exact Places.forall_join hobj hhead.final
      · obtain ⟨hroot, hrel⟩ := hr a ha
        exact ⟨hroot.trans hv, by simp [hrel]⟩

end Uses

/-! ### Sweeping -/

/-- A program that makes nothing: it unlinks, and runs the statements in `stmt`. -/
def sweepFootprint (stmt : DbCall → Prop) : Footprint where
  mkdir _ := False
  put _ := False
  unlink _ := True
  move _ _ := False
  stmt := stmt

lemma FsCall.node_of_sweep {stmt : DbCall → Prop} {c : Choice} {d d' : Disk Content}
    {call : FsCall} {r : call.Res} (hin : call.In (sweepFootprint stmt))
    (hex : call.exec c d = some (r, d')) (q : Path) :
    d'.node q = none ∨ d'.node q = d.node q := by
  rcases call.node_cases hin hex q with
    hsame | ⟨hmk, -⟩ | ⟨hput, -⟩ | ⟨-, hgone⟩ | ⟨-, hgone⟩ | ⟨p, hmove, -⟩ | ⟨p, hmove, -⟩
  · exact .inr hsame
  · exact hmk.elim
  · exact hput.elim
  · exact .inl hgone
  · exact .inl hgone
  · exact hmove.elim
  · exact hmove.elim

/-- The statements of the removal of one path. -/
def DbCall.OfRemoval : DbCall → Prop
  | .stage _ _ | .markPaths _ _ _ => False
  | _ => True

lemma uses_removeAudio {sec : Metadb.AudioSection} {virtualPath : Metadb.RelPath} {now : ℤ} :
    (removeAudio sec virtualPath now).Only (Op.In (sweepFootprint DbCall.OfRemoval)) := by
  have hfinish : ∀ row, (finishRemoval sec virtualPath row).Only
      (Op.In (sweepFootprint DbCall.OfRemoval)) :=
    fun row => uses_finishRemoval trivial trivial trivial
  refine uses_db_bind trivial fun r => ?_
  rcases r with e | _ | row
  · exact uses_done
  · exact uses_done
  cases hstate : row.state with
  | staged => simpa [hstate] using uses_done
  | removing => simpa [hstate] using hfinish row
  | committed =>
    simp only [hstate]
    refine uses_db_bind trivial fun r => ?_
    rcases r with e | _ | _
    · exact uses_done
    · exact uses_done
    · exact hfinish row

/-- A missing name stays missing, and no row changes, while only files are swept. -/
structure Missing (v : World) (q : Path) (u : World) : Prop where
  db_eq : u.db = v.db
  none : u.disk.node q = none
  flag : v.dirSyncFailed = true → u.dirSyncFailed = true

variable {streamURL : String → ℤ → String} {ok : Op → Choice → World → Prop}

lemma spec_missing {α : Type} {R : α → Prop} {p : Prog α} {v u : World} {q : Path}
    (hp : p.Uses (Op.In (sweepFootprint fun _ => False)) R) (hu : Missing v q u) :
    Spec streamURL ok p (fun _ u => Missing v q u) u := by
  refine wp_mono (fun _ _ h => h.2) (spec_of_uses hp (fun o c t r u hin ht hex => ?_) hu)
  cases o with
  | fs undo call =>
    obtain ⟨d', hcall, rfl⟩ := exec_fs hex
    refine ⟨ht.db_eq, ?_, fun hv => by simp [ht.flag hv]⟩
    rcases call.node_of_sweep hin hcall q with hgone | hsame
    · exact hgone
    · exact hsame.trans ht.none
  | db undo call => exact hin.elim
  | render row =>
    cases hex
    exact ht

/-! ### The unwind -/

def PlacedFile.object (f : PlacedFile) : StagedObject := ⟨f.rel, f.ino⟩

/-- Disk and registry are back where the add found them. -/
structure Restored (base : Disk Content) (txnID : String) (v u : World) : Prop where
  disk : ∀ q, u.disk.node q = base.node q
  db : u.db = (v.db.rollbackAudioProjections txnID).1
  flag : u.dirSyncFailed = v.dirSyncFailed

section Unwind

variable {S : LongestFirst} {txnID : String} {w : SectionWriter} {v : World} {root : Path}
  {base : Disk Content} {files : List PlacedFile}

lemma spec_unwindObjects {dirs : List RelPath} (hU : UndoReliable ok)
    (hov : Overlay w.root base dirs files v.disk) (hrel : ∀ f ∈ files, checkRel f.rel = true) :
    Spec streamURL ok (unwindObjects w (files.map object))
      (fun failed u => failed = [] ∧ DiskOnly v u ∧ Overlay w.root base dirs [] u.disk) v := by
  induction files generalizing v with
  | nil => exact spec_ret ⟨rfl, .refl v, hov⟩
  | cons f files ih =>
    have hsplit : Overlay w.root base dirs ([] ++ f :: files) v.disk := hov
    refine wp_then (spec_removeStagedIfIdentity_hit hU hsplit (hrel f (by simp))) ?_
    rintro r u ⟨rfl, honly, hu⟩
    refine wp_then (ih hu fun g hg => hrel g (by simp [hg])) ?_
    rintro failed t ⟨rfl, honly', ht⟩
    exact spec_ret ⟨by simp, honly.trans honly', ht⟩

/-- Reliable undo calls bring back what the add found. -/
lemma spec_unwind (h : UndoReliable ok → Anchored root base files w v)
    (hrel : ∀ f ∈ files, checkRel f.rel = true) :
    Spec streamURL ok (unwind S txnID w (files.map object))
      (fun _ u => UndoReliable ok → Restored base txnID v u) v := by
  by_cases hU : UndoReliable ok
  · obtain ⟨rfl, hov⟩ := h hU
    refine wp_then (spec_unwindObjects hU hov hrel) ?_
    rintro failed u ⟨rfl, honly, hu⟩
    have hsorted : Overlay w.root base (S.sort w.createdDirs) [] u.disk :=
      hu.perm (S.perm _) (List.Perm.refl _)
    refine wp_then (spec_removeDirsIfEmpty hU (S.sorted _) hsorted) ?_
    rintro _ t ⟨honly', ht⟩
    refine spec_db fun c hc => ?_
    have hfinal : DiskOnly v t := honly.trans honly'
    simp only [DbCall.exec, hU.2 _ _ _ hc, Bool.false_eq_true, if_false]
    refine spec_ret fun _ => ⟨fun q => ht.rest q (by simp) (by simp), ?_, hfinal.2⟩
    rw [hfinal.1]
  · exact wp_mono (fun _ _ _ hU' => absurd hU' hU) (spec_trivial _ v)

/-- An unwind that looks for a file under a name it no longer has keeps the rows. -/
lemma spec_unwind_missing {objects : List StagedObject} {obj : StagedObject}
    (hU : UndoReliable ok) (hobj : obj ∈ objects) (hnone : v.disk.node (w.root ++ obj.rel) = none) :
    Spec streamURL ok (unwind S txnID w objects)
      (fun _ u => Missing v (w.root ++ obj.rel) u) v := by
  have hobjects : ∀ u, Missing v (w.root ++ obj.rel) u →
      Spec streamURL ok (unwindObjects w objects)
        (fun failed u => failed ≠ [] ∧ Missing v (w.root ++ obj.rel) u) u := by
    induction objects with
    | nil => cases hobj
    | cons o objs ih =>
      intro u hu
      rcases mem_cons.mp hobj with rfl | hmem
      · refine wp_then (spec_removeStagedIfIdentity_miss hU hu.none) ?_
        rintro r _ ⟨hr, rfl⟩
        refine wp_then (spec_missing (uses_unwindObjects fun _ _ => trivial) hu) fun failed t ht => ?_
        exact spec_ret ⟨by simp [hr], ht⟩
      · refine wp_then (spec_missing (uses_removeStagedIfIdentity trivial) hu) fun r t ht => ?_
        refine wp_then (ih hmem t ht) ?_
        rintro failed s ⟨hfailed, hs⟩
        refine spec_ret ⟨?_, hs⟩
        split_ifs
        · exact hfailed
        · simp
  refine wp_then (hobjects v ⟨rfl, hnone, id⟩) ?_
  rintro failed u ⟨hfailed, hu⟩
  refine wp_then (spec_missing uses_removeDirsIfEmpty hu) fun _ t ht => ?_
  simp only [hfailed, ne_eq, not_false_eq_true, if_true]
  exact spec_ret ht

end Unwind

/-! ### The loops -/

/-- A row and the inode its file was born with. -/
abbrev Born := AudioProjection × ℕ

def stagedFile (streamURL : String → ℤ → String) (b : Born) : PlacedFile :=
  ⟨stagingRelPath b.1, b.2, audioStub streamURL b.1⟩

def finalFile (streamURL : String → ℤ → String) (b : Born) : PlacedFile :=
  ⟨b.1.virtualPath, b.2, audioStub streamURL b.1⟩

/-- The pairs the publish loop runs over. -/
lemma zip_stagedFiles {streamURL : String → ℤ → String} {born : List Born}
    {rows : List AudioProjection} (h : born.map Prod.fst = rows) :
    rows.zip ((born.map (stagedFile streamURL)).map object)
      = born.map fun b => (b.1, (stagedFile streamURL b).object) := by
  rw [← h, map_map, zip_map']
  rfl

section Loops

variable {S : LongestFirst} {txnID : String} {w : SectionWriter} {v : World} {root : Path}
  {base : Disk Content} {files : List PlacedFile}

variable (streamURL ok txnID root base files) in
/-- The files of all rows are staged, or the failed loop is undone. -/
def WriteLoopEnds (rows : List AudioProjection) (v : World) :
    Except AddError (SectionWriter × List StagedObject) → World → Prop
  | .ok (w, objects), u => DiskOnly v u ∧ ∃ born : List Born, born.map Prod.fst = rows ∧
      objects = (files ++ born.map (stagedFile streamURL)).map object ∧
      Anchored root base (files ++ born.map (stagedFile streamURL)) w u ∧
      ∀ b ∈ born, checkRel (stagingRelPath b.1) = true
  | .error _, u => UndoReliable ok → Restored base txnID v u

lemma Restored.of_diskOnly {u t : World} (honly : DiskOnly v u) (h : Restored base txnID u t) :
    Restored base txnID v t :=
  ⟨h.disk, h.db.trans (by rw [honly.1]), h.flag.trans honly.2⟩

lemma spec_writeLoop {rows : List AudioProjection} (h : Anchored root base files w v)
    (hrel : ∀ f ∈ files, checkRel f.rel = true) :
    Spec streamURL ok (writeLoop S txnID w (files.map object) rows)
      (WriteLoopEnds streamURL ok txnID root base files rows v) v := by
  induction rows generalizing w v files with
  | nil => exact spec_ret ⟨.refl v, [], rfl, by simp, by simpa using h, by simp⟩
  | cons row rows ih =>
    refine spec_render ?_ ?_
    · refine wp_then (spec_unwind (fun _ => h) hrel) fun cleanup u hu => ?_
      exact spec_ret hu
    refine wp_then (spec_writeStagedIdentity h) ?_
    rintro ⟨r, w'⟩ u ⟨honly, hokay, herror⟩
    cases r with
    | error e =>
      refine wp_then (spec_unwind (herror e rfl) hrel) fun cleanup t ht => ?_
      exact spec_ret fun hU => (ht hU).of_diskOnly honly
    | ok ino =>
      obtain ⟨hcheck, hu⟩ := hokay ino rfl
      have hrel' : ∀ f ∈ files ++ [⟨stagingRelPath row, ino, audioStub streamURL row⟩],
          checkRel f.rel = true := Places.forall_join hrel hcheck
      have hnext := ih hu hrel'
      rw [map_append] at hnext
      refine wp_mono (fun r t ht => ?_) hnext
      cases r with
      | error e => exact fun hU => (ht hU).of_diskOnly honly
      | ok a =>
        obtain ⟨honly', born, hrows, hobjects, hanch, hborn⟩ := ht
        refine ⟨honly.trans honly', (row, ino) :: born, by simp [hrows], ?_, ?_, ?_⟩
        · rw [hobjects]
          simp [stagedFile]
        · simpa [stagedFile] using hanch
        · intro b hb
          rcases mem_cons.mp hb with rfl | hb
          · exact hcheck
          · exact hborn b hb

/-- The footprint of the publish loop: nothing hidden is made. -/
def publishFootprint : Footprint where
  mkdir p := leafHidden p = false
  put _ := False
  unlink _ := True
  move _ q := leafHidden q = false
  stmt _ := True

lemma leafHidden_of_visible {x : RelPath} (root : Path) (hx : x ≠ [])
    (hvis : ∀ part ∈ x, hidden part = false) : leafHidden (root ++ x) = false := by
  rw [leafHidden, getLast?_append, getLast?_eq_some_getLast hx]
  exact hvis _ (getLast_mem hx)

lemma rowIn_publishFootprint {row : AudioProjection} (h : VisiblePath row.virtualPath) :
    RowIn publishFootprint root row where
  mkdir _ hx hne := leafHidden_of_visible root hne fun part hpart =>
    (h.2 part (dropLast_subset _ (hx.subset hpart))).2
  staged := trivial
  final := trivial

/-- A hidden name that is free stays free in the publish loop. -/
lemma spec_hidden_none {α : Type} {R : α → Prop} {p : Prog α} {q : Path}
    (hp : p.Uses (Op.In publishFootprint) R) (hq : leafHidden q = true)
    (hnone : v.disk.node q = none) :
    Spec streamURL ok p (fun _ u => u.disk.node q = none) v := by
  refine wp_mono (fun _ _ h => h.2) (spec_of_uses (I := fun u => u.disk.node q = none) hp
    (fun o c t r u hin ht hex => ?_) hnone)
  cases o with
  | fs undo call =>
    obtain ⟨d', hcall, rfl⟩ := exec_fs hex
    rcases call.node_cases hin hcall q with
      hsame | ⟨hmk, -⟩ | ⟨hput, -⟩ | ⟨-, hgone⟩ | ⟨-, hgone⟩ | ⟨p, hmove, -⟩ | ⟨p, -, hgone⟩
    · exact hsame.trans ht
    · cases hq.symm.trans hmk
    · exact hput.elim
    · exact hgone
    · exact hgone
    · cases hq.symm.trans hmove
    · exact hgone
  | db undo call | render row =>
    cases hex
    exact ht

variable (streamURL ok txnID root base) in
/-- All files have their final names and no staging name is left; a failed loop
is undone, unless a directory sync failed. -/
def PublishLoopEnds (done born : List Born) (v : World) :
    Except AddError (SectionWriter × List StagedObject) → World → Prop
  | .ok (w, objects), u => DiskOnly v u ∧
      objects = ((done ++ born).map (finalFile streamURL)).map object ∧
      Anchored root base ((done ++ born).map (finalFile streamURL)) w u ∧
      (∀ b ∈ born, checkRel b.1.virtualPath = true ∧
        u.disk.node (root ++ stagingRelPath b.1) = none)
  | .error _, u => UndoReliable ok →
      Restored base txnID v u ∨ (u.dirSyncFailed = true ∧ u.db = v.db)

lemma spec_publishLoop {done born : List Born}
    (h : Anchored root base (done.map (finalFile streamURL) ++ born.map (stagedFile streamURL)) w v)
    (hdone : ∀ b ∈ done, checkRel b.1.virtualPath = true)
    (hborn : ∀ b ∈ born, checkRel (stagingRelPath b.1) = true ∧ VisiblePath b.1.virtualPath ∧
      leafHidden (root ++ stagingRelPath b.1) = true) :
    Spec streamURL ok
      (publishLoop S txnID w ((done.map (finalFile streamURL)).map object)
        (born.map fun b => (b.1, (stagedFile streamURL b).object)))
      (PublishLoopEnds streamURL ok txnID root base done born v) v := by
  induction born generalizing w v done with
  | nil => exact spec_ret ⟨.refl v, by simp, by simpa using h, by simp⟩
  | cons b born ih =>
    obtain ⟨hstaged, hvis, hhid⟩ := hborn b (by simp)
    have hborn' : ∀ c ∈ born, checkRel (stagingRelPath c.1) = true ∧
        VisiblePath c.1.virtualPath ∧ leafHidden (root ++ stagingRelPath c.1) = true :=
      fun c hc => hborn c (by simp [hc])
    have hfiles : ∀ f ∈ done.map (finalFile streamURL) ++ (b :: born).map (stagedFile streamURL),
        checkRel f.rel = true := by
      intro f hf
      rcases mem_append.mp hf with hf | hf <;> obtain ⟨c, hc, rfl⟩ := mem_map.mp hf
      · exact hdone c hc
      · exact (hborn c hc).1
    have hobjects : (done.map (finalFile streamURL)).map object
          ++ (stagedFile streamURL b).object
            :: (born.map fun b => (b.1, (stagedFile streamURL b).object)).map (·.2)
        = (done.map (finalFile streamURL) ++ (b :: born).map (stagedFile streamURL)).map
            object := by
      simp
    have hsplit : Anchored root base (done.map (finalFile streamURL)
        ++ stagedFile streamURL b :: born.map (stagedFile streamURL)) w v := h
    refine wp_then (spec_publish hsplit) ?_
    rintro ⟨r, w'⟩ u ⟨hdb, hokay, herror⟩
    cases r with
    | error e =>
      rw [hobjects]
      rcases herror e rfl with ⟨hflag, hu⟩ | ⟨hflag, hroot, hnone⟩
      · refine wp_then (spec_unwind (fun _ => hu) hfiles) fun _ t ht => ?_
        exact spec_ret fun hU => .inl ((ht hU).of_diskOnly ⟨hdb, hflag⟩)
      by_cases hU : UndoReliable ok
      · -- the unwind looks for the file under its staging name
        have hmem : (stagedFile streamURL b).object ∈ (done.map (finalFile streamURL) ++
            (b :: born).map (stagedFile streamURL)).map object :=
          mem_map_of_mem (by simp)
        rw [← hroot] at hnone
        refine wp_then (spec_unwind_missing hU hmem hnone) fun _ t ht => ?_
        exact spec_ret fun _ => .inr ⟨ht.flag hflag, ht.db_eq.trans hdb⟩
      · refine wp_then (spec_trivial _ u) fun _ t _ => ?_
        exact spec_ret fun hU' => absurd hU' hU
    | ok _ =>
      obtain ⟨hflag, hfinal, hu, hnone⟩ := hokay rfl
      have honly : DiskOnly v u := ⟨hdb, hflag⟩
      have hmoved : Anchored root base ((done ++ [b]).map (finalFile streamURL)
          ++ born.map (stagedFile streamURL)) w' u := by
        rw [map_append, append_assoc]
        exact hu
      have hnext := ih hmoved (Places.forall_join hdone hfinal) hborn'
      have huses : (publishLoop S txnID w'
          (((done ++ [b]).map (finalFile streamURL)).map object)
          (born.map fun b => (b.1, (stagedFile streamURL b).object))).Uses
          (Op.In publishFootprint) _ := uses_publishLoop
        (by
          intro x hx
          obtain ⟨c, hc, rfl⟩ := mem_map.mp hx
          exact rowIn_publishFootprint (hborn' c hc).2.1)
        (by
          intro x hx
          obtain ⟨c, hc, rfl⟩ := mem_map.mp hx
          exact ⟨trivial, leafHidden_of_visible _ (hborn' c hc).2.1.1
            fun part hp => ((hborn' c hc).2.1.2 part hp).2⟩)
        (fun _ _ => trivial) trivial
      have hboth := wp_alone_and hnext (spec_hidden_none huses hhid hnone) trivial
      rw [map_append, map_append] at hboth
      refine wp_mono (fun r t ht => ?_) hboth
      obtain ⟨ht, htnone⟩ := ht
      cases r with
      | error e =>
        intro hU
        rcases ht hU with hres | ⟨htflag, htdb⟩
        · exact .inl (hres.of_diskOnly honly)
        · exact .inr ⟨htflag, htdb.trans hdb⟩
      | ok a =>
        obtain ⟨honly', hobjs, hanch, hgone⟩ := ht
        refine ⟨honly.trans honly', by simpa using hobjs, by simpa using hanch, ?_⟩
        intro c hc
        rcases mem_cons.mp hc with rfl | hc
        · exact ⟨hfinal, htnone⟩
        · exact hgone c hc

end Loops

/-! ### The rows of an add -/

namespace AddRequest

variable {req : AddRequest} {r : AudioProjection} {db db' : Registry}

lemma mem_rows (h : r ∈ req.rows) : ∃ plan ∈ req.plans, ∃ i, r = req.row plan i := by
  obtain ⟨⟨plan, i⟩, hmem, rfl⟩ := mem_map.mp h
  have hplan : (plan, i) ∈ req.plans.zipIdx := mem_of_mem_filter hmem
  exact ⟨plan, (mem_zipIdx' hplan).2 ▸ getElem_mem _, i, rfl⟩

lemma visible_of_mem_rows (h : r ∈ req.rows) : VisiblePath r.virtualPath := by
  obtain ⟨plan, hplan, i, rfl⟩ := mem_rows h
  exact req.visible plan hplan

lemma leafHidden_of_mem_rows (h : r ∈ req.rows) :
    leafHidden ([req.sec.dirName] ++ stagingRelPath r) = true := by
  obtain ⟨plan, -, i, rfl⟩ := mem_rows h
  exact leafHidden_stagingFile (r := req.row plan i) rfl

lemma stagedBy_of_mem_rows (h : r ∈ req.rows) : stagedBy req.txnID r = true := by
  obtain ⟨plan, -, i, rfl⟩ := mem_rows h
  simp [stagedBy, row]

lemma stagedBy_of_fresh (hfresh : ∀ r ∈ db.rows, r.txnID ≠ req.txnID) (h : r ∈ db.rows) :
    stagedBy req.txnID r = false := by
  simp [stagedBy, hfresh r h]

lemma rows_of_stage (h : db.stageAudioProjections req.txnID req.rows = .ok db') :
    db'.rows = db.rows ++ req.rows := by
  rw [rows_stageAudioProjections h]
  congr 1
  refine (map_congr_left fun r hr => ?_).trans (map_id _)
  obtain ⟨plan, -, i, rfl⟩ := mem_rows hr
  rfl

/-- With a fresh transaction id the rollback takes back exactly what was staged. -/
lemma rollback_of_stage (hfresh : ∀ r ∈ db.rows, r.txnID ≠ req.txnID)
    (h : db.stageAudioProjections req.txnID req.rows = .ok db') :
    (db'.rollbackAudioProjections req.txnID).1 = db := by
  refine ext ?_
  simp only [rollbackAudioProjections, deleteWhere, rows_of_stage h,
    filter_append]
  rw [filter_eq_self.mpr fun r hr => by rw [stagedBy_of_fresh hfresh hr]; rfl,
    filter_eq_nil_iff.mpr fun r hr => by rw [stagedBy_of_mem_rows hr]; simp, append_nil]

lemma rowsAffected_of_stage (hfresh : ∀ r ∈ db.rows, r.txnID ≠ req.txnID)
    (h : db.stageAudioProjections req.txnID req.rows = .ok db') :
    db'.rowsAffected (stagedBy req.txnID) = req.rows.length := by
  rw [rowsAffected, rows_of_stage h, countP_append,
    countP_eq_zero.mpr fun r hr => by rw [stagedBy_of_fresh hfresh hr]; simp,
    countP_eq_length.mpr fun r hr => stagedBy_of_mem_rows hr, Nat.zero_add]

end AddRequest

/-! ### The whole add -/

/-- The statements of an add. -/
def DbCall.OfAdd (req : AddRequest) : DbCall → Prop
  | .stage txnID rows => txnID = req.txnID ∧ rows = req.rows
  | .commit _ _ | .rollback _ => True
  | _ => False

def addFootprint (req : AddRequest) : Footprint where
  mkdir _ := True
  put _ := True
  unlink _ := True
  move _ _ := True
  stmt := DbCall.OfAdd req

lemma uses_addAudio {S : LongestFirst} {req : AddRequest} :
    (addAudio S req).Only (Op.In (addFootprint req)) := by
  have hunwind : ∀ (w : SectionWriter) (objects : List StagedObject),
      (unwind S req.txnID w objects).Only (Op.In (addFootprint req)) :=
    fun _ _ => uses_unwind (fun _ _ => trivial) trivial
  refine uses_openSectionWriter.bind fun r _ => ?_
  cases r with
  | error e => exact uses_done
  | ok w =>
  split_ifs
  · exact uses_done
  refine uses_db_bind ⟨rfl, rfl⟩ fun r => ?_
  cases r with
  | error e => exact uses_done
  | ok _ =>
  refine (uses_writeLoop (fun _ _ => ⟨fun _ _ _ => trivial, trivial, trivial⟩) (fun _ _ => trivial)
    (fun _ _ => trivial) trivial).bind fun r _ => ?_
  cases r with
  | error e => exact uses_done
  | ok a =>
  refine (uses_publishLoop (fun _ _ => ⟨fun _ _ _ => trivial, trivial, trivial⟩)
    (fun _ _ => ⟨trivial, trivial⟩) (fun _ _ => trivial) trivial).bind fun r _ => ?_
  cases r with
  | error e => exact uses_done
  | ok a =>
  refine uses_db_bind trivial fun r => ?_
  cases r with
  | error e => exact (hunwind _ _).bind fun _ _ => uses_done
  | ok committed =>
    dsimp only
    split_ifs
    · exact (hunwind _ _).bind fun _ _ => uses_done
    · exact uses_done

end Tiramisu.Library
