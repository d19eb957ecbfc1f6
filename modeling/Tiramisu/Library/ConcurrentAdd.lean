import Tiramisu.Library.ConcurrentRemoval

/-!
# An add among other requests

Nobody else touches the rows and the names of an uncommitted transaction, so
the add finds its files where it put them, and commits rows whose stubs are in
place.
-/

namespace Tiramisu.Library

open Posix Protocol Program SectionWriter List AddRequest
open Metadb (AudioProjection Registry)

variable {streamURL : String → ℤ → String} {reqs : List Transaction} {pid : ℕ} {W : Shared}

lemma Staged.pending {req : AddRequest} {w : World} (h : Staged req w) : Pending req w := by
  intro r hr htxn
  obtain ⟨plan, -, i, rfl⟩ := mem_rows (h.only r hr htxn)
  rfl

/-- The staged rows of the transaction are the request's, each once. -/
lemma rowsAffected_of_staged {req : AddRequest} {v : World} (hnodup : req.rows.Nodup) (hst : Staged req v) :
    v.db.rowsAffected (Registry.stagedBy req.txnID) = req.rows.length := by
  have hrows : v.db.rows.Nodup := v.db.unique.imp fun {r s} h (heq : r = s) => h.path_ne (by rw [heq])
  rw [Registry.rowsAffected, countP_eq_length_filter]
  refine ((perm_ext_iff_of_nodup (hrows.filter _) hnodup).mpr fun r => ?_).length_eq
  rw [mem_filter]
  constructor
  · rintro ⟨hr, hby⟩
    simp only [Registry.stagedBy, Bool.and_eq_true, decide_eq_true_eq] at hby
    exact hst.only r hr hby.1
  · exact fun hr => ⟨hst.here r hr, stagedBy_of_mem_rows hr⟩

/-- A file at the staging name of a row. -/
structure Draft where
  row : AudioProjection
  ino : ℕ
  data : Content

/-- The add at work: its rows are staged, its drafts are in place, and the rows
in `done` have their stubs. -/
structure Working (streamURL : String → ℤ → String) (req : AddRequest) (drafts : List Draft)
    (done : List AudioProjection) (w : World) : Prop where
  staged : Staged req w
  draft_mem : ∀ d ∈ drafts, d.row ∈ req.rows
  nodup : (drafts.map fun d => stagingFile d.row).Nodup
  draft : ∀ d ∈ drafts, w.disk.node (stagingFile d.row) = some (.file d.ino d.data)
  done_mem : ∀ r ∈ done, r ∈ req.rows
  stub : ∀ r ∈ done, ∃ ino, w.disk.node (diskPath r.path)
    = some (.file ino (audioStub streamURL r))
  moved : ∀ r ∈ done, w.disk.node (stagingFile r) = none

section Add

variable {α : Type} {S : LongestFirst} {req : AddRequest} {w : SectionWriter}
variable {objects : List StagedObject} {call : FsCall}
  {drafts : List Draft} {done : List AudioProjection}

lemma Staged.rely {V : Shared} (hreq : reqs[pid]? = some (.add S req)) (h : Staged req W.world)
    (hr : Rely reqs pid W V) : Staged req V.world := by
  have hown := hr.own S req hreq h.pending
  refine ⟨fun r hmem => ?_, fun r hmem htxn => ?_⟩
  · exact (hown.rows r (txnID_of_mem hmem)).mpr (h.here r hmem)
  · exact h.only r ((hown.rows r htxn).mp hmem) htxn

lemma Working.rely {V : Shared} (hreq : reqs[pid]? = some (.add S req))
    (h : Working streamURL req drafts done W.world) (hr : Rely reqs pid W V) :
    Working streamURL req drafts done V.world := by
  have hown := hr.own S req hreq h.staged.pending
  have hkept : ∀ r ∈ req.rows, KeptAt r W.world V.world := fun r hmem =>
    hown.files r hmem (h.staged.here r hmem)
  refine ⟨h.staged.rely hreq hr, h.draft_mem, h.nodup, fun d hd => ?_, h.done_mem, fun r hr => ?_,
    fun r hr => ?_⟩
  · exact (hkept d.row (h.draft_mem d hd)).staged _ _ (h.draft d hd)
  · obtain ⟨ino, hino⟩ := h.stub r hr
    exact ⟨ino, (hkept r (h.done_mem r hr)).final _ _ hino⟩
  · exact (hkept r (h.done_mem r hr)).free (h.moved r hr)

section Own

variable (hdis : DistinctTxns reqs) (hreq : reqs[pid]? = some (.add S req))

include hdis hreq

/-- File calls at the request's own names keep its rows. -/
lemma runs_of_own {R : α → Prop} {p : Prog α} (hp : p.Uses (Op.In (ownFootprint req)) R)
    (hst : Staged req W.world) :
    Runs streamURL reqs pid p (fun a V => R a ∧ Staged req V.world) W :=
  runs_of_uses (I := fun V => Staged req V.world) hp (fun _ => id) (fun hI hr => hI.rely hreq hr)
    (fun _ _ _ _ _ b hinv hI hin hex =>
      ⟨stepKeeps_own_fs hdis hreq hinv hI hin hex b, hI.here, hI.only⟩) hst

lemma runs_unwind (hst : Staged req W.world)
    (hobj : ∀ obj ∈ objects, (ownFootprint req).unlink (w.root ++ obj.rel)) :
    Runs streamURL reqs pid (unwind S req.txnID w objects) (fun _ _ => True) W := by
  refine wp_then (runs_of_own hdis hreq (uses_unwindObjects hobj) hst) fun failed V hV => ?_
  refine wp_then (runs_of_own hdis hreq uses_removeDirsIfEmpty hV.2) fun r V hV => ?_
  by_cases hf : failed = []
  · simp only [hf, ne_eq, not_true_eq_false, if_false]
    refine runs_db fun V _ hinv c _ => ⟨stepKeeps_rollback hdis hreq hinv c, forall_mem_nil _, ?_⟩
    cases (DbCall.exec c V.world.db (.rollback req.txnID)).1 <;> exact runs_ret
  · simp only [hf, ne_eq, not_false_eq_true, if_true]
    exact runs_ret

end Own

/-! ### What the add's own calls do to its files -/

/-- Calls that make directories and read. -/
def dirFootprint : Footprint where
  mkdir p := leafHidden p = false
  put _ := False
  unlink _ := False
  move _ _ := False
  stmt _ := False

lemma Working.of_dirs (h : Working streamURL req drafts done W.world) {c : Choice}
    {r : call.Res} {d' : Disk Content} (hin : call.In dirFootprint)
    (hex : call.exec c W.world.disk = some (r, d')) (b : Bool) :
    Working streamURL req drafts done { W.world with disk := d', dirSyncFailed := b } := by
  have hfile : ∀ q ino data, W.world.disk.node q = some (.file ino data) →
      d'.node q = some (.file ino data) := by
    intro q ino data hq
    rcases call.node_cases hin hex q with hsame | ⟨-, hnone, -⟩ | ⟨hput, -⟩ | ⟨hdel, -⟩ |
      ⟨⟨i, hdir⟩, -⟩ | ⟨p, hmove, -⟩ | ⟨p, hmove, -⟩
    · exact hsame.trans hq
    · simp [hq] at hnone
    · exact hput.elim
    · exact hdel.elim
    · simp [hq] at hdir
    · exact hmove.elim
    · exact hmove.elim
  refine ⟨⟨h.staged.here, h.staged.only⟩, h.draft_mem, h.nodup, fun d hd => hfile _ _ _ (h.draft d hd),
    h.done_mem, fun r hr => ?_, fun r hr => ?_⟩
  · obtain ⟨ino, hino⟩ := h.stub r hr
    exact ⟨ino, hfile _ _ _ hino⟩
  have hhid := hidden_of_stagingFiles ⟨r, h.done_mem r hr, rfl⟩
  rcases call.node_cases hin hex (stagingFile r) with hsame | ⟨hmk, -⟩ | ⟨hput, -⟩ | ⟨hdel, -⟩ |
    ⟨-, hgone⟩ | ⟨p, hmove, -⟩ | ⟨p, hmove, -⟩
  · exact hsame.trans (h.moved r hr)
  · cases hhid.symm.trans hmk
  · exact hput.elim
  · exact hdel.elim
  · exact hgone
  · exact hmove.elim
  · exact hmove.elim

section Files

variable {v : World} {row : AudioProjection} {c : Choice} {d' : Disk Content} {b : Bool}

lemma Working.create {dirfd : DirFd} {leaf : String} {born : ℕ}
    (h : Working streamURL req drafts [] v) (hrow : row ∈ req.rows)
    (hleaf : dirfd.path ++ [leaf] = stagingFile row)
    (hex : FsCall.exec c v.disk (.createExcl dirfd leaf) = some (.ok born, d')) :
    Working streamURL req (drafts ++ [⟨row, born, .bytes ""⟩]) []
      { v with disk := d', dirSyncFailed := b } := by
  rcases FsCall.createExcl_cases hex with ⟨ino, hino, hcreate⟩ | ⟨e, he, -⟩
  · cases hino
    obtain ⟨-, hnone, -, -, hnode⟩ := Disk.create_eq_some hcreate
    rw [hleaf] at hnone hnode
    -- the name was free, so it is none of the drafts'
    have hfree : ∀ d ∈ drafts, stagingFile d.row ≠ stagingFile row := by
      intro d hd heq
      have := h.draft d hd
      rw [heq, hnone] at this
      cases this
    refine ⟨⟨h.staged.here, h.staged.only⟩, ?_, ?_, ?_, by simp, by simp, by simp⟩
    · exact Places.forall_join h.draft_mem hrow
    · rw [map_append, nodup_append]
      refine ⟨h.nodup, by simp, ?_⟩
      intro p hp q hq
      obtain ⟨d, hd, rfl⟩ := mem_map.mp hp
      rw [map_singleton, mem_singleton] at hq
      exact hq ▸ hfree d hd
    · refine Places.forall_join (fun d hd => ?_) ((hnode _).trans (if_pos rfl))
      exact (hnode _).trans ((if_neg (hfree d hd)).trans (h.draft d hd))
  · cases he

lemma Working.fill {old data : Content} {born : ℕ} {p : Path}
    (h : Working streamURL req (drafts ++ [⟨row, born, old⟩]) [] v) (hp : p = stagingFile row)
    (hex : FsCall.exec c v.disk (.write ⟨p, born⟩ data) = some (.ok (), d')) :
    Working streamURL req (drafts ++ [⟨row, born, data⟩]) []
      { v with disk := d', dirSyncFailed := b } := by
  subst hp
  simp only [FsCall.exec, Option.some.injEq] at hex
  split_ifs at hex
  · exact absurd (Prod.mk.inj hex).1 (by simp)
  obtain rfl := (Prod.mk.inj hex).2
  have hhere : v.disk.node (stagingFile row) = some (.file born old) :=
    h.draft ⟨row, born, old⟩ (by simp)
  have hnode : ∀ q, (v.disk.write ⟨stagingFile row, born⟩ data).node q
      = if q = stagingFile row then some (.file born data) else v.disk.node q :=
    Disk.node_write_of_file hhere
  have hnodup := h.nodup
  rw [map_append, nodup_append] at hnodup
  refine ⟨⟨h.staged.here, h.staged.only⟩, ?_, ?_, ?_, by simp, by simp, by simp⟩
  · exact Places.forall_join (fun d hd => h.draft_mem d (by simp [hd]))
      (h.draft_mem ⟨row, born, old⟩ (by simp))
  · rw [map_append, nodup_append]
    exact hnodup
  · refine Places.forall_join (fun d hd => ?_) ((hnode _).trans (if_pos rfl))
    have hne : stagingFile d.row ≠ stagingFile row :=
      hnodup.2.2 _ (mem_map_of_mem hd) _ (by simp)
    exact (hnode _).trans ((if_neg hne).trans (h.draft d (by simp [hd])))

lemma Working.publish {fd fd' : DirFd} {leaf leaf' : String} {d : Draft}
    (h : Working streamURL req (d :: drafts) done v) (hdata : d.data = audioStub streamURL d.row)
    (hsrc : fd.path ++ [leaf] = stagingFile d.row)
    (hdst : fd'.path ++ [leaf'] = diskPath d.row.path)
    (hex : FsCall.exec c v.disk (.renameNoReplace fd leaf fd' leaf') = some (.ok (), d')) :
    Working streamURL req drafts (done ++ [d.row]) { v with disk := d', dirSyncFailed := b } := by
  simp only [FsCall.exec, Option.some.injEq] at hex
  split_ifs at hex
  · exact absurd (Prod.mk.inj hex).1 (by simp)
  rcases Disk.renameNoReplace_cases v.disk fd leaf fd' leaf' with
    ⟨n, hn, -, hfree, -, hnode⟩ | ⟨e, he⟩
  · have hd' : d' = (v.disk.renameNoReplace fd leaf fd' leaf').2 := (congrArg Prod.snd hex).symm
    rw [hsrc] at hn hnode
    rw [hdst] at hfree hnode
    cases hn.symm.trans (h.draft d (by simp))
    have hmem : d.row ∈ req.rows := h.draft_mem d (by simp)
    have hvis : leafHidden (diskPath d.row.path) = false :=
      leafHidden_diskPath (visible_of_mem_rows hmem)
    have hne : ∀ r ∈ req.rows, stagingFile r ≠ diskPath d.row.path := by
      intro r hr heq
      have := hidden_of_stagingFiles ⟨r, hr, rfl⟩
      rw [heq, hvis] at this
      cases this
    obtain ⟨hhead, htail⟩ := nodup_cons.mp h.nodup
    have hdone : ∀ r ∈ done ++ [d.row], r ∈ req.rows := Places.forall_join h.done_mem hmem
    subst hd'
    refine ⟨⟨h.staged.here, h.staged.only⟩, fun x hx => h.draft_mem x (by simp [hx]), htail,
      fun x hx => ?_, hdone, fun r hr => ?_, fun r hr => ?_⟩
    · have hxne : stagingFile x.row ≠ stagingFile d.row := fun heq =>
        hhead (mem_map.mpr ⟨x, hx, heq⟩)
      rw [hnode, if_neg (hne x.row (h.draft_mem x (by simp [hx]))), if_neg hxne]
      exact h.draft x (by simp [hx])
    · rcases mem_append.mp hr with hr | hr
      · obtain ⟨ino, hino⟩ := h.stub r hr
        have hpath : diskPath r.path ≠ diskPath d.row.path := by
          intro heq
          rw [heq, hfree] at hino
          cases hino
        have hstaging : diskPath r.path ≠ stagingFile d.row := by
          intro heq
          have hhid := hidden_of_stagingFiles ⟨d.row, hmem, rfl⟩
          rw [← heq, leafHidden_diskPath (visible_of_mem_rows (h.done_mem r hr))] at hhid
          cases hhid
        exact ⟨ino, by rw [hnode, if_neg hpath, if_neg hstaging, hino]⟩
      · rw [mem_singleton.mp hr]
        exact ⟨d.ino, by rw [hnode, if_pos rfl, hdata]⟩
    · rw [hnode, if_neg (hne r (hdone r hr))]
      rcases mem_append.mp hr with hr | hr
      · split_ifs
        · rfl
        · exact h.moved r hr
      · rw [mem_singleton.mp hr, if_pos rfl]
  · rw [he] at hex
    exact absurd (Prod.mk.inj hex).1 (by simp)

end Files

lemma FsCall.In.own (h : call.In dirFootprint) : call.In (ownFootprint req) :=
  h.mono (fun _ h => h) (fun _ h => h.elim) (fun _ h => h.elim) fun _ _ h => h.elim

/-- The directories above a row's names may be made. -/
lemma dirFootprint_mkdir {r : AudioProjection} (hr : r ∈ req.rows) (root : Path) :
    ∀ x, x <+: r.virtualPath.dropLast → x ≠ [] → dirFootprint.mkdir (root ++ x) :=
  (rowIn_publishFootprint (visible_of_mem_rows hr)).mkdir

section Loops

variable (hdis : DistinctTxns reqs) (hreq : reqs[pid]? = some (.add S req))

include hdis hreq

lemma runs_of_dirs {R : α → Prop} {p : Prog α} (hp : p.Uses (Op.In dirFootprint) R)
    (hwork : Working streamURL req drafts done W.world) :
    Runs streamURL reqs pid p
      (fun a V => R a ∧ Working streamURL req drafts done V.world) W :=
  runs_of_uses (I := fun V => Working streamURL req drafts done V.world) hp (fun _ => id)
    (fun hI hr => hI.rely hreq hr) (fun _ _ _ _ _ b hinv hI hin hex =>
      ⟨stepKeeps_own_fs hdis hreq hinv hI.staged hin.own hex b, hI.of_dirs hin hex b⟩) hwork

/-- A call that makes nothing, in the middle of a method. -/
lemma runs_read {Q : α → Shared → Prop} {undo : Bool} {f : call.Res → Prog α}
    (hin : call.In dirFootprint) (hwork : Working streamURL req drafts done W.world)
    (h : ∀ r V, Working streamURL req drafts done V.world → Runs streamURL reqs pid (f r) Q V) :
    Runs streamURL reqs pid (fs undo call >>= f) Q W := by
  have hop : (fs undo call).Only (Op.In dirFootprint) := uses_op hin
  exact wp_then (runs_of_dirs hdis hreq hop hwork) fun r V hV => h r V hV.2

lemma runs_writeStagedIdentity {row : AudioProjection} {data : Content}
    (hroot : w.root = [req.sec.dirName]) (hrow : row ∈ req.rows)
    (hwork : Working streamURL req drafts [] W.world) :
    Runs streamURL reqs pid (w.writeStagedIdentity (stagingRelPath row) data)
      (fun a V => a.2.root = w.root ∧ Staged req V.world ∧ ∀ ino, a.1 = .ok ino →
        ∃ born, Working streamURL req (drafts ++ [⟨row, born, data⟩]) [] V.world) W := by
  unfold writeStagedIdentity
  split_ifs with hc
  · exact fun V hV _ => ⟨rfl, hwork.staged.rely hreq hV, by simp⟩
  have hrel : stagingRelPath row ≠ [] := checkRel_ne_nil (by simpa using hc)
  have hparent : (w.openParent false (stagingRelPath row) true).Uses (Op.In dirFootprint) _ :=
    uses_openParent true fun _ => by
      rw [dropLast_stagingRelPath]
      exact dirFootprint_mkdir hrow w.root
  refine wp_then (runs_of_dirs hdis hreq hparent hwork) ?_
  rintro ⟨parent, v⟩ V ⟨hopens, hV⟩
  have hv : v.root = w.root := hopens.1
  have hend : ∀ (e : WriterError) (U : Shared), Staged req U.world →
      Runs streamURL reqs pid (.ret (.error e, v))
        (fun (a : Except WriterError ℕ × SectionWriter) V => a.2.root = w.root ∧
          Staged req V.world ∧ ∀ ino, a.1 = .ok ino →
            ∃ born, Working streamURL req (drafts ++ [⟨row, born, data⟩]) [] V.world) U :=
    fun e U hU T hT _ => ⟨hv, hU.rely hreq hT, by simp⟩
  cases parent with
  | error e => exact hend e V hV.staged
  | ok dirfd =>
  have hleaf : dirfd.path ++ [leafOf (stagingRelPath row)] = stagingFile row := by
    rw [hopens.leaf rfl hrel, hroot, (diskPath_of_mem hrow).2]
  have hput : (ownFootprint req).put (stagingFile row) := ⟨row, hrow, rfl⟩
  have hunlinked : ∀ (e : WriterError) (U : Shared), Staged req U.world →
      Runs streamURL reqs pid (fs true (.unlinkAt dirfd (leafOf (stagingRelPath row))) >>=
        fun _ => (pure (.error e, v) : Prog (Except WriterError ℕ × SectionWriter)))
        (fun a V => a.2.root = w.root ∧ Staged req V.world ∧ ∀ ino, a.1 = .ok ino →
          ∃ born, Working streamURL req (drafts ++ [⟨row, born, data⟩]) [] V.world) U := by
    intro e U hU
    have hdel : (fs true (.unlinkAt dirfd (leafOf (stagingRelPath row)))).Only
        (Op.In (ownFootprint req)) :=
      uses_op (by rw [Op.In, FsCall.In, hleaf]; exact Or.inl hput)
    exact wp_then (runs_of_own hdis hreq hdel hU) fun _ T hT => hend e T hT.2
  -- the file is created empty
  refine runs_fs fun U hU hinv c r d' b hex => ?_
  have hU := hV.rely hreq hU
  refine ⟨stepKeeps_own_fs hdis hreq hinv hU.staged (by rw [FsCall.In, hleaf]; exact hput) hex b, ?_⟩
  cases r with
  | error e => exact hend _ _ ⟨hU.staged.here, hU.staged.only⟩
  | ok born =>
  have hborn : Working streamURL req (drafts ++ [⟨row, born, .bytes ""⟩]) []
      { U.world with disk := d', dirSyncFailed := b } := hU.create hrow hleaf hex
  -- then filled
  refine runs_fs fun T hT hinv c r d'' b' hex => ?_
  have hT := hborn.rely hreq hT
  refine ⟨stepKeeps_own_fs hdis hreq hinv hT.staged (by rw [FsCall.In, hleaf]; exact hput) hex b', ?_⟩
  cases r with
  | error e => exact hunlinked _ _ ⟨hT.staged.here, hT.staged.only⟩
  | ok _ =>
  have hfilled : Working streamURL req (drafts ++ [⟨row, born, data⟩]) []
      { T.world with disk := d'', dirSyncFailed := b' } := hT.fill hleaf hex
  refine runs_read hdis hreq trivial hfilled fun r Z hZ => ?_
  cases r with
  | error e => exact hunlinked _ _ hZ.staged
  | ok _ =>
  refine runs_read hdis hreq trivial hZ fun r Z hZ => ?_
  cases r with
  | error e => exact hunlinked _ _ hZ.staged
  | ok ino =>
    exact fun V hV _ => ⟨hv, (hZ.rely hreq hV).staged, fun _ _ => ⟨born, hZ.rely hreq hV⟩⟩

lemma runs_publish {d : Draft} (hroot : w.root = [req.sec.dirName])
    (hwork : Working streamURL req (d :: drafts) done W.world)
    (hdata : d.data = audioStub streamURL d.row) :
    Runs streamURL reqs pid (w.publish (stagingRelPath d.row) d.row.virtualPath)
      (fun a V => a.2.root = w.root ∧ Staged req V.world ∧
        (a.1 = .ok () → Working streamURL req drafts (done ++ [d.row]) V.world)) W := by
  have hrow : d.row ∈ req.rows := hwork.draft_mem d (by simp)
  have hend : ∀ (v : SectionWriter) (e : WriterError) (U : Shared), v.root = w.root →
      Staged req U.world → Runs streamURL reqs pid (.ret (.error e, v))
        (fun (a : Except WriterError Unit × SectionWriter) V => a.2.root = w.root ∧
          Staged req V.world ∧
            (a.1 = .ok () → Working streamURL req drafts (done ++ [d.row]) V.world)) U :=
    fun v e U hv hU T hT _ => ⟨hv, hU.rely hreq hT, by simp⟩
  unfold publish
  split_ifs with hc
  · exact hend w _ W rfl hwork.staged
  simp only [Bool.or_eq_true, Bool.not_eq_true', not_or, Bool.not_eq_false] at hc
  have hrel := checkRel_ne_nil hc.1
  have hfinal := checkRel_ne_nil hc.2
  refine wp_then (runs_of_dirs hdis hreq uses_findParent hwork) ?_
  rintro ⟨staged, v⟩ V ⟨hopens, hV⟩
  have hv : v.root = w.root := hopens.1
  cases staged with
  | error e => exact hend v e V hv hV.staged
  | ok _ =>
  have hparent : (v.openParent false d.row.virtualPath true).Uses (Op.In dirFootprint) _ :=
    uses_openParent true fun _ => dirFootprint_mkdir hrow v.root
  refine wp_then (runs_of_dirs hdis hreq hparent hV) ?_
  rintro ⟨final, u⟩ V ⟨hopens', hV⟩
  have hu : u.root = w.root := hopens'.1.trans hv
  cases final with
  | error e => exact hend u e V hu hV.staged
  | ok finalDir =>
  refine wp_then (runs_of_dirs hdis hreq uses_findParent hV) ?_
  rintro ⟨staged', t⟩ V ⟨hopens'', hV⟩
  have ht : t.root = w.root := hopens''.1.trans hu
  cases staged' with
  | error e => exact hend t e V ht hV.staged
  | ok stagedDir =>
  have hsrc : stagedDir.path ++ [leafOf (stagingRelPath d.row)] = stagingFile d.row := by
    rw [hopens''.leaf rfl hrel, hu, hroot, (diskPath_of_mem hrow).2]
  have hdst : finalDir.path ++ [leafOf d.row.virtualPath] = diskPath d.row.path := by
    rw [hopens'.leaf rfl hfinal, hv, hroot, (diskPath_of_mem hrow).1]
  refine runs_fs fun U hU hinv c r d' b hex => ?_
  have hU := hV.rely hreq hU
  have hmove : (ownFootprint req).move (stagingFile d.row) (diskPath d.row.path) :=
    ⟨⟨d.row, hrow, rfl⟩, d.row.path, ⟨d.row, hrow, rfl⟩, rfl⟩
  refine ⟨stepKeeps_own_fs hdis hreq hinv hU.staged
    (by rw [FsCall.In, hsrc, hdst]; exact hmove) hex b, ?_⟩
  cases r with
  | error e => exact hend t _ _ ht ⟨hU.staged.here, hU.staged.only⟩
  | ok _ =>
  have hmoved : Working streamURL req drafts (done ++ [d.row])
      { U.world with disk := d', dirSyncFailed := b } := hU.publish hdata hsrc hdst hex
  refine runs_read hdis hreq trivial hmoved fun r Z hZ => ?_
  cases r with
  | error e => exact hend t _ _ ht hZ.staged
  | ok _ =>
  refine runs_read hdis hreq trivial hZ fun r Z hZ => ?_
  cases r with
  | error e => exact hend t _ _ ht hZ.staged
  | ok _ => exact fun V hV _ => ⟨ht, (hZ.rely hreq hV).staged, fun _ => hZ.rely hreq hV⟩

omit hdis in
lemma runs_render {Q : α → Shared → Prop} {row : AudioProjection}
    {f : Option Content → Prog α} (hwork : Working streamURL req drafts done W.world)
    (hnone : ∀ V, Working streamURL req drafts done V.world → Runs streamURL reqs pid (f none) Q V)
    (hsome : ∀ V, Working streamURL req drafts done V.world →
      Runs streamURL reqs pid (f (some (audioStub streamURL row))) Q V) :
    Runs streamURL reqs pid ((Program.op (Op.render row) : Prog (Option Content)) >>= f) Q W := by
  intro V hV hinv c _ r u hex
  cases hex
  have hstep : StepKeeps streamURL reqs pid V V.world := .refl hinv
  obtain ⟨hinv', hguar⟩ := hstep.after (o := .render row)
    (r := if c.fail then none else some (audioStub streamURL row)) hinv (forall_mem_nil _)
  refine ⟨hinv', hguar, ?_⟩
  rw [hstep.after_eq hinv rfl rfl]
  split_ifs
  · exact hnone V (hwork.rely hreq hV)
  · exact hsome V (hwork.rely hreq hV)

/-- A failed loop unwinds what is at the request's own names. -/
lemma runs_fail
    {Q : Except AddError (SectionWriter × List StagedObject) → Shared → Prop} (cause : AddCause)
    (hst : Staged req W.world)
    (hobj : ∀ obj ∈ objects, (ownFootprint req).unlink (w.root ++ obj.rel))
    (hQ : ∀ e V, Q (.error e) V) : Runs streamURL reqs pid (do
      return (.error ⟨cause, ← unwind S req.txnID w objects⟩ :
        Except AddError (SectionWriter × List StagedObject))) Q W :=
  wp_then (runs_unwind hdis hreq hst hobj) fun _ _ _ _ _ _ => hQ _ _

/-- The drafts of all rows are in place after the write loop. -/
lemma runs_writeLoop {rows : List AudioProjection}
    (hroot : w.root = [req.sec.dirName]) (hrows : ∀ r ∈ rows, r ∈ req.rows)
    (hobj : objects.map (·.rel) = drafts.map fun d => stagingRelPath d.row)
    (hdata : ∀ d ∈ drafts, d.data = audioStub streamURL d.row)
    (hwork : Working streamURL req drafts [] W.world) :
    Runs streamURL reqs pid (writeLoop S req.txnID w objects rows)
      (fun r V => ∀ a, r = .ok a → a.1.root = w.root ∧ ∃ drafts' : List Draft,
        drafts'.map (·.row) = drafts.map (·.row) ++ rows ∧
        a.2.map (·.rel) = drafts'.map (fun d => stagingRelPath d.row) ∧
        (∀ d ∈ drafts', d.data = audioStub streamURL d.row) ∧
        Working streamURL req drafts' [] V.world) W := by
  induction rows generalizing w objects drafts W with
  | nil =>
    rintro V hV _ a ha
    obtain rfl := Except.ok.inj ha
    exact ⟨rfl, drafts, by simp, hobj, hdata, hwork.rely hreq hV⟩
  | cons row rows ih =>
    have hunlink : ∀ v : SectionWriter, v.root = w.root →
        ∀ obj ∈ objects, (ownFootprint req).unlink (v.root ++ obj.rel) := by
      intro v hv obj hmem
      have hrel : obj.rel ∈ drafts.map fun d => stagingRelPath d.row :=
        hobj ▸ mem_map_of_mem hmem
      obtain ⟨d, hd, heq⟩ := mem_map.mp hrel
      have hd := hwork.draft_mem d hd
      exact Or.inl ⟨d.row, hd, by rw [hv, hroot, ← heq, (diskPath_of_mem hd).2]⟩
    refine runs_render hreq hwork (fun V hV => ?_) fun V hV => ?_
    · exact runs_fail hdis hreq _ hV.staged (hunlink w rfl) (by simp)
    refine wp_then (runs_writeStagedIdentity hdis hreq hroot (hrows row (by simp)) hV) ?_
    rintro ⟨r, v⟩ U ⟨hv, hst, hok⟩
    cases r with
    | error e => exact runs_fail hdis hreq _ hst (hunlink v hv) (by simp)
    | ok ino =>
      obtain ⟨born, hU⟩ := hok ino rfl
      refine wp_mono (fun r V hend a ha => ?_) (ih (hv.trans hroot)
        (fun r hr => hrows r (by simp [hr])) ?_ ?_ hU)
      · obtain ⟨hroot', drafts', hmap, hrest⟩ := hend a ha
        exact ⟨hroot'.trans hv, drafts', by simpa using hmap, hrest⟩
      · simp [hobj]
      · exact Places.forall_join hdata rfl

/-- The stubs of all rows are in place after the publish loop. -/
lemma runs_publishLoop
    {rest : List (AudioProjection × StagedObject)} (hroot : w.root = [req.sec.dirName])
    (hrest : rest.map Prod.fst = drafts.map (·.row))
    (hrel : ∀ x ∈ rest, x.2.rel = stagingRelPath x.1)
    (hdata : ∀ d ∈ drafts, d.data = audioStub streamURL d.row)
    (hobj : ∀ obj ∈ objects, (ownFootprint req).unlink ([req.sec.dirName] ++ obj.rel))
    (hwork : Working streamURL req drafts done W.world) :
    Runs streamURL reqs pid (publishLoop S req.txnID w objects rest)
      (fun r V => ∀ a, r = .ok a → a.1.root = [req.sec.dirName] ∧
        (∀ obj ∈ a.2, (ownFootprint req).unlink ([req.sec.dirName] ++ obj.rel)) ∧
        Working streamURL req [] (done ++ drafts.map (·.row)) V.world) W := by
  induction rest generalizing w objects drafts done W with
  | nil =>
    rintro V hV _ a ha
    obtain rfl := Except.ok.inj ha
    obtain rfl : drafts = [] := map_eq_nil_iff.mp hrest.symm
    exact ⟨hroot, hobj, by simpa using hwork.rely hreq hV⟩
  | cons x rest ih =>
    obtain ⟨row, obj⟩ := x
    cases drafts with
    | nil => cases hrest
    | cons d drafts =>
    obtain ⟨hhead, htail⟩ := List.cons.inj hrest
    subst hhead
    have hstaged : ∀ x ∈ (d.row, obj) :: rest,
        (ownFootprint req).unlink ([req.sec.dirName] ++ x.2.rel) := by
      intro x hx
      have hmem : x.1 ∈ (d :: drafts).map (·.row) := hrest ▸ mem_map_of_mem hx
      obtain ⟨d', hd', heq⟩ := mem_map.mp hmem
      have hx' : x.1 ∈ req.rows := heq ▸ hwork.draft_mem d' hd'
      exact Or.inl ⟨x.1, hx', by rw [hrel x hx, (diskPath_of_mem hx').2]⟩
    have hobjrel : obj.rel = stagingRelPath d.row := hrel (d.row, obj) (by simp)
    have hpublish := runs_publish hdis hreq hroot hwork (hdata d (by simp))
    rw [← hobjrel] at hpublish
    refine wp_then hpublish ?_
    rintro ⟨r, v⟩ U ⟨hroot', hst, hok⟩
    have hv : v.root = [req.sec.dirName] := Eq.trans hroot' hroot
    cases r with
    | error e =>
      refine runs_fail hdis hreq _ hst ?_ (by simp)
      rw [hv]
      exact forall_mem_append.mpr ⟨hobj,
        forall_mem_map (f := Prod.snd) (l := (d.row, obj) :: rest) |>.mpr hstaged⟩
    | ok _ =>
      have hrow : d.row ∈ req.rows := hwork.draft_mem d (by simp)
      refine wp_mono (fun r V hend a ha => ?_) (ih hv htail
        (fun x hx => hrel x (by simp [hx])) (fun d hd => hdata d (by simp [hd])) ?_ (hok rfl))
      · simpa using hend a ha
      refine Places.forall_join hobj (.inr ⟨d.row.path, ⟨d.row, hrow, rfl⟩, ?_⟩)
      exact (diskPath_of_mem hrow).1.symm

lemma runs_commitRows (hnodup : req.rows.Nodup)
    (hobj : ∀ obj ∈ objects, (ownFootprint req).unlink (w.root ++ obj.rel))
    (hwork : Working streamURL req [] req.rows W.world) :
    Runs streamURL reqs pid (commitRows S req w objects) (fun _ _ => True) W := by
  refine runs_db fun V hV hinv c _ => ?_
  have hV := hwork.rely hreq hV
  simp only [DbCall.exec]
  split_ifs
  · refine ⟨.refl hinv, forall_mem_nil _, ?_⟩
    exact wp_then (runs_unwind hdis hreq hV.staged hobj) fun _ _ _ => runs_ret
  refine ⟨stepKeeps_commit hdis hreq hinv fun r hr hby => ?_, forall_mem_nil _, ?_⟩
  · simp only [Registry.stagedBy, Bool.and_eq_true, decide_eq_true_eq] at hby
    have hmem := hV.staged.only r hr hby.1
    exact ⟨hV.stub r hmem, hV.moved r hmem⟩
  · simp only [Registry.commitAudioProjections, rowsAffected_of_staged hnodup hV.staged,
      ne_eq, not_true_eq_false, if_false]
    exact runs_ret

lemma runs_addAudio (hfresh : ∀ r ∈ W.world.db.rows, r.txnID ≠ req.txnID) :
    Runs streamURL reqs pid (addAudio S req) (fun _ _ => True) W := by
  have hrely : ∀ {U V : Shared}, (∀ r ∈ U.world.db.rows, r.txnID ≠ req.txnID) →
      Rely reqs pid U V → ∀ r ∈ V.world.db.rows, r.txnID ≠ req.txnID := by
    intro U V hU hr r hmem htxn
    have hown := hr.own S req hreq fun s hs hs' => absurd hs' (hU s hs)
    exact hU r ((hown.rows r htxn).mp hmem) htxn
  refine wp_bind (runs_fs fun V hV hinv c r d' b hex => ⟨?_, ?_⟩)
  · have hin : (FsCall.openDir [] [req.sec.dirName]).In (claimFootprint fun _ => False) := trivial
    exact stepKeeps_claim_fs hinv (fun _ h => h.elim) hin hex b
  have hfreshV := hrely hfresh hV
  cases r with
  | error e => exact fun _ _ _ => runs_ret
  | ok ino =>
  intro U hU _
  have hfreshU : ∀ r ∈ U.world.db.rows, r.txnID ≠ req.txnID :=
    hrely (U := V.after pid _ _ { V.world with disk := d', dirSyncFailed := b }) hfreshV hU
  split_ifs
  · exact runs_ret
  refine runs_db fun T hT hinv c hok => ?_
  simp only [DbCall.exec]
  split_ifs
  · exact ⟨.refl hinv, forall_mem_nil _, runs_ret⟩
  cases hstage : T.world.db.stageAudioProjections req.txnID req.rows with
  | error e => exact ⟨.refl hinv, forall_mem_nil _, runs_ret⟩
  | ok db' =>
  refine ⟨stepKeeps_stage hdis hreq hinv hok hstage, forall_mem_nil _, ?_⟩
  have hstaged : Staged req { T.world with db := db' } :=
    staged_of_stage (hrely hfreshU hT) hstage
  have hnodup : req.rows.Nodup := by
    have hpair := db'.unique
    rw [rows_of_stage hstage, pairwise_append] at hpair
    exact hpair.2.1.imp fun {r s} h (heq : r = s) => h.path_ne (by rw [heq])
  have hwork : Working streamURL req [] [] { T.world with db := db' } :=
    ⟨hstaged, by simp, by simp, by simp, by simp, by simp, by simp⟩
  refine wp_then (runs_writeLoop hdis hreq rfl (fun r hr => hr) rfl (by simp) hwork) fun r V hV => ?_
  cases r with
  | error e => exact runs_ret
  | ok a =>
  obtain ⟨w, objects⟩ := a
  obtain ⟨hroot, drafts, hrows, hobjects, hdata, hV⟩ := hV _ rfl
  rw [map_nil, nil_append] at hrows
  have hpairs : List.Forall₂ (fun r o => stagingRelPath r = o.rel) req.rows objects := by
    have hmap : req.rows.map stagingRelPath = objects.map (·.rel) := by
      rw [hobjects, ← hrows, map_map]
      rfl
    rwa [← forall₂_eq_eq_eq, forall₂_map_left_iff, forall₂_map_right_iff] at hmap
  refine wp_then (runs_publishLoop hdis hreq hroot ?_ ?_ hdata (by simp) hV) fun r V hend => ?_
  · rw [map_fst_zip hpairs.length_eq.le, hrows]
  · rintro ⟨r, o⟩ hmem
    exact ((forall₂_iff_zip.mp hpairs).2 hmem).symm
  cases r with
  | error e => exact runs_ret
  | ok a =>
    obtain ⟨w', objects'⟩ := a
    obtain ⟨hroot', hobj', hdone⟩ := hend _ rfl
    rw [nil_append, hrows] at hdone
    exact runs_commitRows hdis hreq hnodup (by rwa [hroot']) hdone

end Loops

end Add

end Tiramisu.Library
