import Tiramisu.Library.AddSpec

/-!
# The recovery of interrupted requests

Every prefix of a prefix removal and of the recovery keeps registry and disk
coherent, and a recovery of coherent ones that reports no error finds both names
of every unfinished row and leaves only committed rows with their stubs.
-/

namespace Tiramisu.Library

open Posix Protocol Program SectionWriter Transition List AddRequest DbCall
open Metadb (AudioPath AudioProjection AudioSection Registry RelPath)

variable {streamURL : String → ℤ → String} {ok : Op → Choice → World → Prop}
variable {r : AudioProjection}

/-- The requests run alone, and each step keeps registry and disk coherent. -/
abbrev Keeps {α : Type} (streamURL : String → ℤ → String) (ok : Op → Choice → World → Prop)
    (p : Prog α) (Q : α → World → Prop) (w : World) : Prop :=
  wp (machine streamURL) (.alone (Coherent streamURL) ok) Q p w

section Rules

variable {α : Type} {Q : α → World → Prop} {w : World}

lemma keeps_of_uses {K : AudioPath → Prop} {put : Path → Prop} {R : α → Prop} {p : Prog α}
    (hp : p.Uses (Op.In (requestFootprint K put)) R) (hK : Holds K put w) :
    Keeps streamURL ok p (fun a u => R a ∧ Holds K put u) w := by
  refine wp_of_uses hp (fun v v' hI hrely _ => hrely ▸ hI) (fun o c v r u hin _ hinv hI hex => ?_) hK
  obtain ⟨hu, hI'⟩ := hinv.step hI hin hex
  exact ⟨hu, trivial, hI'⟩

lemma keeps_intro {p : Prog α} (h : Coherent streamURL w → Keeps streamURL ok p Q w) :
    Keeps streamURL ok p Q w :=
  wp_of_rely fun _ hv hi => hv ▸ h (hv ▸ hi)

lemma keeps_db {undo : Bool} {call : DbCall} {f : call.Res → Prog α} (hw : Coherent streamURL w)
    (hcall : call.Shrinks)
    (h : ∀ c, Coherent streamURL { w with db := (call.exec c w.db).2 } →
      Keeps streamURL ok (f (call.exec c w.db).1) Q { w with db := (call.exec c w.db).2 }) :
    Keeps streamURL ok (db undo call >>= f) Q w := by
  refine wp_alone_perform fun c hc r u hex => ?_
  cases hex
  exact ⟨hw.db hcall, h c (hw.db hcall)⟩

lemma keeps_openSectionWriter {sec : AudioSection}
    {f : Except Errno SectionWriter → Prog α} (hw : Coherent streamURL w)
    (herr : ∀ e, Keeps streamURL ok (f (.error e)) Q w)
    (hok : Keeps streamURL ok (f (.ok ⟨[sec.dirName], []⟩)) Q w) :
    Keeps streamURL ok (openSectionWriter sec >>= f) Q w := by
  refine wp_alone_perform fun c hc r u hex => ?_
  obtain ⟨-, rfl⟩ := Prod.mk.inj (Option.some.inj hex)
  simp only [FsCall.isSyncDir, Bool.false_and, Bool.or_false]
  refine ⟨hw, ?_⟩
  cases r with
  | error e => exact herr e
  | ok ino => exact hok

end Rules

/-! ### Removals -/

section Removal

variable {w : World} {sec : AudioSection} {virtualPath : RelPath} {now : ℤ}

section

variable (hw : Coherent streamURL w)

include hw

/-- A request that stages nothing and holds the paths of rows it found
uncommitted. -/
lemma holds_of_rows {K : AudioPath → Prop}
    (hK : ∀ k, K k → ∃ r ∈ w.db.rows, r.path = k ∧ r.state ≠ .committed) :
    Holds K (fun _ => False) w where
  uncommitted s hs hk := by
    obtain ⟨r, hr, hpath, hst⟩ := hK s.path hk
    rwa [← Registry.eq_of_path_eq hr hs hpath]
  visible k hk := by
    obtain ⟨r, hr, rfl, -⟩ := hK k hk
    exact hw.visible r hr
  hidden p hp := hp.elim
  free p hp := hp.elim

lemma keeps_removeAudioPrefix {pre : RelPath} :
    Keeps streamURL ok (removeAudioPrefix sec pre now) (fun _ _ => True) w := by
  refine keeps_db hw trivial fun c hw' => ?_
  simp only [exec]
  split_ifs
  · exact wp_alone_done
  cases hlist : w.db.audioProjectionsByPrefix sec pre with
  | nil => exact wp_alone_done
  | cons row rows =>
    dsimp only
    split_ifs
    · exact wp_alone_done
    have hlisted : ∀ r ∈ row :: rows, r ∈ w.db.rows ∧ r.sec = sec ∧
        (r.state = .committed ∨ r.state = .removing) := by
      intro r hr
      rw [← hlist] at hr
      have := mem_filter.mp hr
      simp only [Bool.and_eq_true, Bool.or_eq_true, decide_eq_true_eq] at this
      exact ⟨this.1, this.2.1.1, this.2.1.2⟩
    refine keeps_db hw trivial fun c' hw' => ?_
    simp only [exec] at hw' ⊢
    split_ifs with hf
    · exact wp_alone_done
    simp only [hf, Bool.false_eq_true, if_false] at hw'
    refine keeps_openSectionWriter hw' (fun e => wp_alone_done) ?_
    have hK : Holds (fun k => ∃ r ∈ row :: rows, r.path = k) (fun _ => False)
        { w with db := (w.db.markAudioProjectionsRemovingPaths sec
          ((row :: rows).map (·.virtualPath)) now).1 } := by
      refine holds_of_rows hw' ?_
      rintro k ⟨r, hr, rfl⟩
      obtain ⟨hmem, hsec, hst⟩ := hlisted r hr
      refine ⟨_, mem_map_of_mem hmem, ?_, ?_⟩
      · split_ifs <;> rfl
      split_ifs with hp
      · simp [AudioProjection.withState]
      · intro hcom
        refine hp ?_
        simp only [Registry.committedAt, hsec, hcom, decide_true, Bool.true_and]
        exact contains_iff_mem.mpr (mem_map_of_mem hr)
    have huses : (removeRows ⟨[sec.dirName], []⟩ (row :: rows)).Uses
        (Op.In (requestFootprint (fun k => ∃ r ∈ row :: rows, r.path = k) fun _ => False))
        fun _ => True := uses_removeRows
      (fun r hr => .inr ⟨r.path, ⟨r, hr, rfl⟩, by
        rw [diskPath, ← (hlisted r hr).2.1]
        rfl⟩) (fun _ _ => trivial)
    refine wp_then (keeps_of_uses huses hK) fun finished u _ => ?_
    cases finished with
    | false => exact wp_alone_done
    | true =>
      refine keeps_intro fun hu => keeps_db hu trivial fun c hu' => ?_
      simp only [exec]
      split_ifs <;> exact wp_alone_done

end

end Removal

/-! ### The add -/

section Add

variable {w : World} {S : LongestFirst} {req : AddRequest} {db' : Registry}

def AddRequest.paths (req : AddRequest) (k : AudioPath) : Prop := ∃ r ∈ req.rows, r.path = k

def AddRequest.stagingFiles (req : AddRequest) (p : Path) : Prop :=
  ∃ r ∈ req.rows, p = stagingFile r

lemma AddRequest.diskPath_of_mem (h : r ∈ req.rows) :
    diskPath r.path = [req.sec.dirName] ++ r.virtualPath ∧
      stagingFile r = [req.sec.dirName] ++ stagingRelPath r := by
  obtain ⟨plan, -, i, rfl⟩ := mem_rows h
  exact ⟨rfl, rfl⟩

/-- A row whose staging file is one of the request's has its transaction id. -/
lemma txnID_of_stagingFile {s : AudioProjection} (hw : Coherent streamURL w)
    (hs : s ∈ w.db.rows) (hr : r ∈ req.rows) (h : stagingFile s = stagingFile r) :
    s.txnID = req.txnID := by
  obtain ⟨plan, -, i, rfl⟩ := mem_rows hr
  obtain ⟨hlen, j, hname⟩ := hw.named s hs
  have hlast := congrArg List.getLast? h
  simp only [stagingFile, stagingRelPath, ← cons_append, getLast?_concat,
    Option.some.injEq] at hlast
  rw [hname] at hlast
  exact txnID_of_stagingName hlen req.txnID_length hlast

/-- The staged rows are coherent with a disk that has none of their files yet. -/
lemma Coherent.stage (hw : Coherent streamURL w)
    (hstage : w.db.stageAudioProjections req.txnID req.rows = .ok db') :
    Coherent streamURL { w with db := db' } := by
  have hmem : ∀ r ∈ db'.rows, r ∈ w.db.rows ∨ r ∈ req.rows := by
    intro r hr
    rwa [rows_of_stage hstage, mem_append] at hr
  refine ⟨fun r hr => ?_, fun r hr => ?_, fun r hr hcom => ?_, fun r hr hst => ?_⟩
  · rcases hmem r hr with hr | hr
    · exact hw.visible r hr
    · exact visible_of_mem_rows hr
  · rcases hmem r hr with hr | hr
    · exact hw.named r hr
    · obtain ⟨plan, -, i, rfl⟩ := mem_rows hr
      exact ⟨req.txnID_length, i, rfl⟩
  · rcases hmem r hr with hr | hr
    · exact hw.stub r hr hcom
    · obtain ⟨plan, -, i, rfl⟩ := mem_rows hr
      exact absurd hcom (by simp [row])
  · rcases hmem r hr with hr | hr
    · exact hw.settled r hr hst
    · obtain ⟨plan, -, i, rfl⟩ := mem_rows hr
      exact absurd rfl hst

/-- The rows of the request stand in the table, and no other row has its transaction id. -/
structure Staged (req : AddRequest) (w : World) : Prop where
  here : ∀ r ∈ req.rows, r ∈ w.db.rows
  only : ∀ r ∈ w.db.rows, r.txnID = req.txnID → r ∈ req.rows

lemma staged_of_stage (hfresh : ∀ r ∈ w.db.rows, r.txnID ≠ req.txnID)
    (hstage : w.db.stageAudioProjections req.txnID req.rows = .ok db') :
    Staged req { w with db := db' } := by
  have hrows := rows_of_stage hstage
  refine ⟨fun r hr => ?_, fun r hr htxn => ?_⟩
  · rw [hrows]
    exact mem_append_right _ hr
  · rw [hrows, mem_append] at hr
    exact hr.resolve_left fun hr => hfresh r hr htxn

lemma holds_of_staged (hw : Coherent streamURL w) (hst : Staged req w) :
    Holds req.paths req.stagingFiles w := by
  refine ⟨?_, ?_, ?_, ?_⟩
  · rintro s hs ⟨r, hr, hpath⟩
    obtain rfl := Registry.eq_of_path_eq (hst.here r hr) hs hpath
    obtain ⟨plan, -, i, rfl⟩ := mem_rows hr
    simp [row]
  · rintro k ⟨r, hr, rfl⟩
    exact visible_of_mem_rows hr
  · rintro p ⟨r, hr, rfl⟩
    rw [(diskPath_of_mem hr).2]
    exact leafHidden_of_mem_rows hr
  · rintro p ⟨r, hr, rfl⟩ s hs hstate heq
    -- a settled row carries another transaction in its staging name
    have htxn : s.txnID = req.txnID := txnID_of_stagingFile hw hs hr heq.symm
    obtain ⟨plan, -, i, rfl⟩ := mem_rows (hst.only s hs htxn)
    exact absurd rfl hstate

/-- The commit of rows whose files have their final names. -/
lemma Coherent.commit {t : ℤ} (hw : Coherent streamURL w)
    (hfiles : ∀ r ∈ w.db.rows, Registry.stagedBy req.txnID r = true →
      (∃ ino, w.disk.node (diskPath r.path) = some (.file ino (audioStub streamURL r))) ∧
        w.disk.node (stagingFile r) = none) :
    Coherent streamURL { w with db := (w.db.commitAudioProjections req.txnID t).1 } := by
  have hback : ∀ r ∈ (w.db.commitAudioProjections req.txnID t).1.rows,
      (∃ s ∈ w.db.rows, Registry.stagedBy req.txnID s = true ∧ r = s.withState .committed t) ∨
        r ∈ w.db.rows := by
    intro r hr
    obtain ⟨s, hs, rfl⟩ := mem_map.mp hr
    split_ifs with hst
    · exact .inl ⟨s, hs, hst, rfl⟩
    · exact .inr hs
  refine ⟨fun r hr => ?_, fun r hr => ?_, fun r hr hcom => ?_, fun r hr hst => ?_⟩
  · rcases hback r hr with ⟨s, hs, -, rfl⟩ | hr
    · exact hw.visible s hs
    · exact hw.visible r hr
  · rcases hback r hr with ⟨s, hs, -, rfl⟩ | hr
    · exact hw.named s hs
    · exact hw.named r hr
  · rcases hback r hr with ⟨s, hs, hby, rfl⟩ | hr
    · exact (hfiles s hs hby).1
    · exact hw.stub r hr hcom
  · rcases hback r hr with ⟨s, hs, hby, rfl⟩ | hr
    · exact (hfiles s hs hby).2
    · exact hw.settled r hr hst

end Add

/-! ### The recovery -/

section Recover

variable {w : World}

lemma holds_listed (st : Metadb.AudioProjectionState) (hw : Coherent streamURL w)
    (hst : st ≠ .committed) :
    Holds (fun k => ∃ r ∈ w.db.audioProjectionsByState st, r.path = k) (fun _ => False) w := by
  refine holds_of_rows hw ?_
  rintro k ⟨r, hr, rfl⟩
  obtain ⟨hrow, rfl⟩ := Registry.mem_audioProjectionsByState.mp hr
  exact ⟨r, hrow, rfl, hst⟩

lemma keeps_recoverStagedAudioTransactions (hw : Coherent streamURL w) :
    Keeps streamURL ok recoverStagedAudioTransactions (fun _ _ => True) w := by
  refine keeps_db hw trivial fun c _ => ?_
  simp only [exec]
  split_ifs
  · exact wp_alone_done
  refine wp_mono (fun _ _ _ => trivial)
    (keeps_of_uses (uses_recoverTransactions ?_ ?_ ?_) (holds_listed .staged hw (by simp)))
  · exact fun r hr => .inr ⟨r.path, ⟨r, hr, rfl⟩, rfl⟩
  · intro r hr
    obtain ⟨-, i, hname⟩ := hw.named r (Registry.mem_audioProjectionsByState.mp hr).1
    exact .inl (leafHidden_stagingFile hname)
  · exact fun _ => trivial

lemma keeps_recoverRemovingAudioProjections (hw : Coherent streamURL w) :
    Keeps streamURL ok recoverRemovingAudioProjections (fun _ _ => True) w := by
  refine keeps_db hw trivial fun c _ => ?_
  simp only [exec]
  split_ifs
  · exact wp_alone_done
  refine wp_mono (fun _ _ _ => trivial)
    (keeps_of_uses (uses_recoverRemovingRows ?_ ?_) (holds_listed .removing hw (by simp)))
  · exact fun r hr => .inr ⟨r.path, ⟨r, hr, rfl⟩, rfl⟩
  · exact fun _ _ => trivial

lemma keeps_recoverAudio (hw : Coherent streamURL w) :
    Keeps streamURL ok recoverAudio (fun _ _ => True) w := by
  refine wp_then (keeps_recoverStagedAudioTransactions hw) fun _ u _ => ?_
  refine keeps_intro fun hu => ?_
  refine wp_then (keeps_recoverRemovingAudioProjections hu) fun _ t _ => ?_
  exact wp_alone_done

end Recover

/-! ### What a recovery without an error has done -/

/-- The statements that only delete rows. -/
def DbCall.Deletes : DbCall → Prop
  | .stage _ _ | .commit _ _ | .mark _ _ _ | .markPaths _ _ _ => False
  | _ => True

/-- Names were freed and rows deleted, nothing else. -/
structure Swept (v u : World) : Prop where
  node : ∀ q, u.disk.node q = none ∨ u.disk.node q = v.disk.node q
  rows : ∀ r ∈ u.db.rows, r ∈ v.db.rows

lemma Swept.refl (v : World) : Swept v v := ⟨fun _ => .inr rfl, fun _ h => h⟩

lemma Swept.none {v u : World} (h : Swept v u) {q : Path} (hq : v.disk.node q = none) :
    u.disk.node q = none :=
  (h.node q).elim id fun hsame => hsame.trans hq

lemma DbCall.Deletes.rows {c : Choice} {db : Registry} {call : DbCall} (hcall : call.Deletes)
    (hr : r ∈ (call.exec c db).2.rows) : r ∈ db.rows := by
  cases call with
  | get | byPrefix | byState | byHash => exact hr
  | stage | commit | mark | markPaths => exact hcall.elim
  | rollback | delete =>
    simp only [exec] at hr
    split_ifs at hr
    · exact hr
    · exact mem_of_mem_filter hr

lemma Swept.step {o : Op} {c : Choice} {v t u : World} {r : o.Res} (ht : Swept v t)
    (hin : o.In (sweepFootprint DbCall.Deletes))
    (hex : (machine streamURL).exec o c t = some (r, u)) : Swept v u := by
  cases o with
  | fs undo call =>
    obtain ⟨d', hcall, rfl⟩ := exec_fs hex
    refine ⟨fun q => ?_, ht.rows⟩
    rcases call.node_of_sweep hin hcall q with hgone | hsame
    · exact .inl hgone
    · exact (ht.node q).imp hsame.trans hsame.trans
  | db undo call =>
    cases hex
    exact ⟨ht.node, fun r hr => ht.rows r (DbCall.Deletes.rows hin hr)⟩
  | render row =>
    cases hex
    exact ht

/-- A sweeping program with one more fact about its end. -/
lemma spec_sweep {α : Type} {R : α → Prop} {Q : α → World → Prop} {p : Prog α} {v : World}
    (hp : p.Uses (Op.In (sweepFootprint DbCall.Deletes)) R) (h : Spec streamURL ok p Q v) :
    Spec streamURL ok p (fun a u => Q a u ∧ R a ∧ Swept v u) v :=
  wp_alone_and h (spec_of_uses hp (fun _ _ _ _ _ hin ht hex => ht.step hin hex) (.refl v)) trivial

/-- Both names of a row are free. -/
def Gone (r : AudioProjection) (u : World) : Prop :=
  u.disk.node (diskPath r.path) = none ∧
    (r.stagingName ≠ "" → u.disk.node (stagingFile r) = none)

lemma Gone.swept {v u : World} (h : Gone r v) (hs : Swept v u) : Gone r u :=
  ⟨hs.none h.1, fun hne => hs.none (h.2 hne)⟩

section Functional

variable {v : World} {rows : List AudioProjection} {opened : List AudioSection}

lemma spec_removeStagedNames :
    Spec streamURL ok (removeStagedNames opened rows)
      (fun r u => r ≠ none → ∀ row ∈ rows, Gone row u) v := by
  induction rows generalizing opened v with
  | nil => exact spec_ret (by simp)
  | cons row rows ih =>
    have hrest : ∀ u, Gone row u →
        Spec streamURL ok (removeStagedNames (row.sec :: opened) rows)
          (fun r t => r ≠ none → ∀ r' ∈ row :: rows, Gone r' t) u := by
      intro u hu
      refine wp_mono (fun r t ht hr => ?_)
        (spec_sweep (uses_removeStagedNames (fun _ _ => trivial) fun _ _ => trivial) ih)
      exact forall_mem_cons.mpr ⟨hu.swept ht.2.2, ht.1 hr⟩
    refine wp_then (spec_sweep uses_sectionWriterMemo (spec_trivial _ v)) fun r u hu => ?_
    cases r with
    | error e => exact spec_ret (by simp)
    | ok w =>
      obtain rfl := hu.2.1 w rfl
      refine wp_then spec_removeStaged fun r t ht => ?_
      cases r with
      | error e => exact spec_ret (by simp)
      | ok _ =>
        split_ifs with hname
        · exact hrest t ⟨ht rfl, fun hne => absurd hname hne⟩
        · refine wp_then (spec_sweep (uses_removeStaged trivial) spec_removeStaged) fun r s hs => ?_
          cases r with
          | error e => exact spec_ret (by simp)
          | ok _ => exact hrest s ⟨hs.2.2.none (ht rfl), fun _ => hs.1 rfl⟩

/-- A transaction reported as recovered is gone, files and rows. -/
def RolledBack (txnID : String) (rows : List AudioProjection) (u : World) : Prop :=
  (∀ r ∈ rows, r.txnID = txnID → Gone r u) ∧
    ∀ r ∈ u.db.rows, Registry.stagedBy txnID r = false

lemma RolledBack.swept {txnID : String} {u : World} (h : RolledBack txnID rows v)
    (hs : Swept v u) : RolledBack txnID rows u :=
  ⟨fun r hr htxn => (h.1 r hr htxn).swept hs, fun r hr => h.2 r (hs.rows r hr)⟩

lemma spec_recoverStagedTransaction {txnID : String} :
    Spec streamURL ok (recoverStagedTransaction txnID (rows.filter fun r => r.txnID = txnID))
      (fun b u => b = true → RolledBack txnID rows u) v := by
  refine wp_then spec_removeStagedNames fun r u hu => ?_
  cases r with
  | none => exact spec_ret (by simp)
  | some opened =>
    refine wp_then (spec_sweep uses_pruneRows (spec_trivial _ u)) fun _ t ht => ?_
    refine spec_db fun c hc => ?_
    simp only [exec]
    split_ifs
    · exact spec_ret (by simp)
    refine spec_ret fun _ => ⟨fun r hr htxn => ?_, fun r hr => ?_⟩
    · have hgone : Gone r t :=
        (hu (by simp) r (mem_filter.mpr ⟨hr, by simpa using htxn⟩)).swept ht.2.2
      exact hgone
    · simpa using (mem_filter.mp hr).2

lemma spec_recoverTransactions {txns : List String} :
    Spec streamURL ok (recoverTransactions rows txns)
      (fun b u => b = true → ∀ txnID ∈ txns, RolledBack txnID rows u) v := by
  induction txns generalizing v with
  | nil => exact spec_ret (by simp)
  | cons txnID txns ih =>
    refine wp_then spec_recoverStagedTransaction fun b u hu => ?_
    refine wp_bind (wp_mono (fun b' t ht => ?_) (spec_sweep
      (uses_recoverTransactions (fun _ _ => trivial) (fun _ _ => trivial) fun _ => trivial) ih))
    refine spec_ret fun hb => ?_
    rw [Bool.and_eq_true] at hb
    exact forall_mem_cons.mpr ⟨(hu hb.1).swept ht.2.2, ht.1 hb.2⟩

lemma spec_recoverRemovingRows :
    Spec streamURL ok (recoverRemovingRows opened rows)
      (fun b u => b = true → ∀ r ∈ rows, u.disk.node (diskPath r.path) = none ∧
        ∀ s ∈ u.db.rows, s.path ≠ r.path) v := by
  induction rows generalizing opened v with
  | nil => exact spec_ret (by simp)
  | cons row rows ih =>
    have hfail : ∀ o u, Spec streamURL ok (recoverRemovingRows o rows >>= fun _ => pure false)
        (fun b u => b = true → ∀ r ∈ row :: rows, u.disk.node (diskPath r.path) = none ∧
          ∀ s ∈ u.db.rows, s.path ≠ r.path) u := fun o u =>
      wp_then (spec_trivial _ u) fun _ _ _ => spec_ret (by simp)
    refine wp_then (spec_sweep uses_sectionWriterMemo (spec_trivial _ v)) fun r u hu => ?_
    cases r with
    | error e => exact hfail _ u
    | ok w =>
      obtain rfl := hu.2.1 w rfl
      refine wp_then spec_removeStaged fun r t ht => ?_
      cases r with
      | error e => exact hfail _ t
      | ok _ =>
        refine wp_then (spec_sweep uses_pruneEmptyDirs (spec_trivial _ t)) fun _ s hs => ?_
        have hnone : s.disk.node (diskPath row.path) = none := hs.2.2.none (ht rfl)
        refine spec_db fun c hc => ?_
        simp only [exec]
        split_ifs
        · exact hfail _ _
        refine wp_mono (fun b x hx hb => ?_) (spec_sweep
          (uses_recoverRemovingRows (fun _ _ => trivial) fun _ _ => trivial) ih)
        refine forall_mem_cons.mpr ⟨⟨hx.2.2.none hnone, fun r hr => ?_⟩, hx.1 hb⟩
        have hkept := (mem_filter.mp (hx.2.2.rows r hr)).2
        rw [Bool.not_eq_true', decide_eq_false_iff_not] at hkept
        exact hkept

/-- The rollbacks of the first phase leave every row past staging. -/
def DbCall.RollsBack : DbCall → Prop
  | .rollback _ | .byState _ => True
  | _ => False

/-- What a recovery that reports no error leaves of the rows it found. -/
structure Settled (v u : World) : Prop where
  swept : Swept v u
  committed : ∀ r ∈ v.db.rows, r.state = .committed → r ∈ u.db.rows
  staged : ∀ r ∈ v.db.rows, r.state = .staged → r.txnID ≠ "" → Gone r u
  removing : ∀ r ∈ v.db.rows, r.state = .removing → u.disk.node (diskPath r.path) = none
  rows : ∀ r ∈ u.db.rows, r ∈ v.db.rows ∧ (r.state = .staged → r.txnID = "") ∧
    r.state ≠ .removing

lemma spec_recoverStagedAudioTransactions :
    Spec streamURL ok recoverStagedAudioTransactions
      (fun b u => b = true →
        (∀ r ∈ v.db.rows, r.state = .staged → r.txnID ≠ "" → Gone r u) ∧
        (∀ r ∈ u.db.rows, r ∈ v.db.rows ∧ (r.state = .staged → r.txnID = "")) ∧
        ∀ r ∈ v.db.rows, r.state ≠ .staged → r ∈ u.db.rows) v := by
  refine spec_db fun c hc => ?_
  simp only [exec]
  split_ifs
  · exact spec_ret (by simp)
  have hlisted : ∀ r ∈ v.db.rows, r.state = .staged → r ∈ v.db.audioProjectionsByState .staged :=
    fun r hr hst => Registry.mem_audioProjectionsByState.mpr ⟨hr, hst⟩
  have htxns : ∀ r ∈ v.db.rows, r.state = .staged → r.txnID ≠ "" → r.txnID ∈
      (((v.db.audioProjectionsByState .staged).map (·.txnID)).filter (· ≠ "")).eraseDups := by
    intro r hr hst htxn
    refine mem_eraseDups.mpr (mem_filter.mpr ⟨?_, by simpa using htxn⟩)
    exact mem_map_of_mem (hlisted r hr hst)
  have hkeep : Spec streamURL ok (recoverTransactions (v.db.audioProjectionsByState .staged)
      (((v.db.audioProjectionsByState .staged).map (·.txnID)).filter (· ≠ "")).eraseDups)
      (fun _ u => True ∧ ∀ r ∈ v.db.rows, r.state ≠ .staged → r ∈ u.db.rows) v := by
    refine spec_of_uses (uses_recoverTransactions (F := sweepFootprint DbCall.RollsBack)
      (fun _ _ => trivial) (fun _ _ => trivial) fun _ => trivial)
      (fun o c t r u hin ht hex => ?_) (fun r hr _ => hr)
    cases o with
    | fs undo call =>
      obtain ⟨d', -, rfl⟩ := exec_fs hex
      exact ht
    | render row =>
      cases hex
      exact ht
    | db undo call =>
      cases hex
      intro s hs hst
      cases call with
      | rollback txnID =>
        simp only [exec]
        split_ifs
        · exact ht s hs hst
        · exact mem_filter.mpr ⟨ht s hs hst, by simp [Registry.stagedBy, hst]⟩
      | byState state => exact ht s hs hst
      | get | stage | commit | mark | markPaths | byPrefix | byHash | delete => exact hin.elim
  refine wp_mono (fun b u hu hb => ?_) (wp_alone_and (spec_sweep (uses_recoverTransactions
    (fun _ _ => trivial) (fun _ _ => trivial) fun _ => trivial) spec_recoverTransactions)
    hkeep trivial)
  obtain ⟨⟨hrolled, -, hswept⟩, -, hkept⟩ := hu
  refine ⟨fun r hr hst htxn => ?_, fun r hr => ⟨hswept.rows r hr, fun hst => ?_⟩, hkept⟩
  · exact (hrolled hb _ (htxns r hr hst htxn)).1 r (hlisted r hr hst) rfl
  · by_contra htxn
    have hby := (hrolled hb _ (htxns r (hswept.rows r hr) hst htxn)).2 r hr
    simp [Registry.stagedBy, hst] at hby

/-- The removals of the second phase leave every committed row. -/
def DbCall.DeletesAt (rows : List AudioProjection) : DbCall → Prop
  | .delete sec virtualPath => ∃ r ∈ rows, r.path = ⟨sec, virtualPath⟩
  | _ => False

lemma spec_recoverRemovingRows_kept (hrows : ∀ r ∈ rows, r ∈ v.db.rows ∧ r.state = .removing) :
    Spec streamURL ok (recoverRemovingRows opened rows)
      (fun _ u => ∀ r ∈ v.db.rows, r.state = .committed → r ∈ u.db.rows) v := by
  refine wp_mono (fun _ _ h => h.2) (spec_of_uses
    (I := fun u => ∀ r ∈ v.db.rows, r.state = .committed → r ∈ u.db.rows)
    (uses_recoverRemovingRows (F := sweepFootprint (DbCall.DeletesAt rows)) (fun _ _ => trivial)
      fun r hr => ⟨r, hr, rfl⟩) (fun o c t a u hin ht hex => ?_) fun r hr _ => hr)
  cases o with
  | fs undo call =>
    obtain ⟨d', -, rfl⟩ := exec_fs hex
    exact ht
  | render row =>
    cases hex
    exact ht
  | db undo call =>
    cases hex
    intro s hs hst
    cases call with
    | delete sec virtualPath =>
      obtain ⟨r, hr, hpath⟩ := hin
      simp only [exec]
      split_ifs
      · exact ht s hs hst
      refine mem_filter.mpr ⟨ht s hs hst, ?_⟩
      rw [Bool.not_eq_true', decide_eq_false_iff_not, ← hpath]
      intro heq
      rw [Registry.eq_of_path_eq hs (hrows r hr).1 heq, (hrows r hr).2] at hst
      cases hst
    | get | stage | commit | mark | markPaths | byPrefix | byHash | byState | rollback =>
      exact hin.elim

lemma uses_recoverAudio :
    recoverAudio.Only (Op.In (sweepFootprint DbCall.Deletes)) := by
  have hstaged : recoverStagedAudioTransactions.Only (Op.In (sweepFootprint DbCall.Deletes)) := by
    refine uses_db_bind trivial fun r => ?_
    cases r with
    | error e => exact uses_done
    | ok rows =>
      exact uses_recoverTransactions (fun _ _ => trivial) (fun _ _ => trivial) fun _ => trivial
  have hremoving : recoverRemovingAudioProjections.Only (Op.In (sweepFootprint DbCall.Deletes)) := by
    refine uses_db_bind trivial fun r => ?_
    cases r with
    | error e => exact uses_done
    | ok rows => exact uses_recoverRemovingRows (fun _ _ => trivial) fun _ _ => trivial
  exact hstaged.bind fun _ _ => hremoving.bind fun _ _ => uses_done

lemma spec_recoverAudio :
    Spec streamURL ok recoverAudio (fun b u => b = true → Settled v u) v := by
  suffices h : Spec streamURL ok recoverAudio (fun b u => b = true → Swept v u → Settled v u) v by
    exact wp_mono (fun b u hu hb => hu.1 hb hu.2.2) (spec_sweep uses_recoverAudio h)
  refine wp_then spec_recoverStagedAudioTransactions fun b u hu => ?_
  refine wp_bind (spec_db fun c hc => ?_)
  simp only [exec]
  split_ifs
  · exact spec_ret (spec_ret (by simp))
  refine wp_mono (fun b' t ht => spec_ret fun hb hvt => ?_)
    (wp_alone_and (spec_sweep (uses_recoverRemovingRows (fun _ _ => trivial) fun _ _ => trivial)
      spec_recoverRemovingRows) (spec_recoverRemovingRows_kept fun r =>
        Registry.mem_audioProjectionsByState.mp)
      trivial)
  rw [Bool.and_eq_true] at hb
  obtain ⟨⟨hremoved, -, hswept⟩, hcommitted⟩ := ht
  obtain ⟨hstaged, hrows, hkept⟩ := hu hb.1
  constructor
  · exact hvt
  · exact fun r hr hst => hcommitted r (hkept r hr (by simp [hst])) hst
  · exact fun r hr hst htxn => (hstaged r hr hst htxn).swept hswept
  · exact fun r hr hst =>
      (hremoved hb.2 r (Registry.mem_audioProjectionsByState.mpr ⟨hkept r hr (by simp [hst]), hst⟩)).1
  · intro r hr
    obtain ⟨hv, hst⟩ := hrows r (hswept.rows r hr)
    refine ⟨hv, hst, fun hrem => ?_⟩
    exact (hremoved hb.2 r (Registry.mem_audioProjectionsByState.mpr ⟨hswept.rows r hr, hrem⟩)).2 r hr rfl

end Functional

/-! ### Histories -/

/-- What may run between two starts of the server. -/
inductive Transaction
  | add (S : LongestFirst) (req : AddRequest)
  | remove (sec : AudioSection) (virtualPath : RelPath) (now : ℤ)
  | removePrefix (sec : AudioSection) (pre : RelPath) (now : ℤ)
  | recover

def Transaction.prog : Transaction → Prog Unit
  | .add S req => do let _ ← addAudio S req
  | .remove sec virtualPath now => do let _ ← removeAudio sec virtualPath now
  | .removePrefix sec pre now => do let _ ← removeAudioPrefix sec pre now
  | .recover => do let _ ← recoverAudio

/-- The id of an add is of no earlier transaction in the table. -/
def Transaction.Fresh (w : World) : Transaction → Prop
  | .add _ req => ∀ r ∈ w.db.rows, r.txnID ≠ req.txnID
  | _ => True

/-- A transaction that was cut off at any of its operations, or finished. -/
def interrupted (streamURL : String → ℤ → String) (w : World) (t : Transaction) (w' : World) :
    Prop :=
  t.Fresh w ∧ ∃ q, Steps (machine streamURL) (fun _ _ _ => True) t.prog w q w'

lemma stagingName_ne_empty (txnID : String) (i : ℕ) : stagingName txnID i ≠ "" := by
  intro h
  have := hidden_stagingName txnID i
  rw [h] at this
  exact absurd this (by decide)

/-- The rows that stay have their stubs, the others leave nothing at their names. -/
lemma Settled.rows_and_names {w w' : World} (hset : Settled w w') (hw : Coherent streamURL w)
    (hw' : Coherent streamURL w') :
    (∀ r ∈ w'.db.rows, r.state = .committed ∧
      ∃ ino, w'.disk.node (diskPath r.path) = some (.file ino (audioStub streamURL r))) ∧
    (∀ r ∈ w.db.rows, r.state = .committed → r ∈ w'.db.rows) ∧
    ∀ r ∈ w.db.rows, r.state ≠ .committed →
      w'.disk.node (diskPath r.path) = none ∧ w'.disk.node (stagingFile r) = none := by
  refine ⟨fun r hr => ?_, hset.committed, fun r hr hst => ?_⟩
  · obtain ⟨hmem, hstaged, hremoving⟩ := hset.rows r hr
    have hcom : r.state = .committed := by
      cases hstate : r.state with
      | committed => rfl
      | removing => exact absurd hstate hremoving
      | staged =>
        have hlen := (hw.named r hmem).1
        rw [hstaged hstate] at hlen
        exact absurd hlen (by decide)
    exact ⟨hcom, hw'.stub r hr hcom⟩
  · obtain ⟨hlen, i, hname⟩ := hw.named r hr
    cases hstate : r.state with
    | committed => exact absurd hstate hst
    | removing =>
      exact ⟨hset.removing r hr hstate, hset.swept.none (hw.settled r hr (by simp [hstate]))⟩
    | staged =>
      have htxn : r.txnID ≠ "" := by
        intro h
        rw [h] at hlen
        exact absurd hlen (by decide)
      obtain ⟨hvirtual, hstaging⟩ := hset.staged r hr hstate htxn
      exact ⟨hvirtual, hstaging (hname ▸ stagingName_ne_empty _ _)⟩

lemma coherent_empty (d : Disk Content) : Coherent streamURL ⟨Registry.empty, d, false⟩ := by
  constructor <;> simp [Registry.empty]

/-! ### A concrete add -/

def introPath : RelPath := ["Artist", "Album", "01 - Intro_01234567.flac"]

def introPlan : PlannedFile where
  virtualPath := introPath
  portablePathKey := "artist/album/01 - intro_01234567.flac"
  fileIndex := 1
  sourcePath := "Album/01 - Intro.flac"
  size := 1000
  externalID := ""
  externalIDNamespace := ""
  cueTrack := 0
  byteOffset := 0
  header := []
  created := true

lemma introPlan_visible : ∀ f ∈ [introPlan], VisiblePath f.virtualPath := by decide

def introRequest : AddRequest where
  sec := .music
  txnID := "00112233445566778899aabb"
  now := 1
  hash := "0123456789abcdef0123456789abcdef01234567"
  title := "Album"
  magnet := "magnet:?xt=urn:btih:0123456789abcdef0123456789abcdef01234567"
  plans := [introPlan]
  visible := introPlan_visible
  txnID_length := by decide

def gostormURL : String → ℤ → String := Manager.streamURL "http://127.0.0.1:8090"

/-- Choices without a fault, each with an inode of its own. -/
def smooth (n : ℕ) : List Choice := (List.range n).map fun i => ⟨false, 100 + i, .bytes ""⟩

/-- A source path with an empty music section. -/
def musicDisk : Disk Content := ((Disk.empty 1).create ["music"] (.dir 2)).getD (Disk.empty 1)

def recovered (w : World) : Program Op Op.Res Bool × World :=
  runAlone (machine gostormURL) (fun _ _ _ => True) (smooth 40) recoverAudio w

end Tiramisu.Library
