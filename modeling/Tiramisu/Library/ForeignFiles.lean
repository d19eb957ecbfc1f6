import Tiramisu.Library.Recovery

/-!
# Files that no row accounts for

An add never touches a file that was there before: it creates exclusively,
renames onto free names and unlinks only what it made.  The recovery has the
names in the rows and nothing else, so it takes such a file for the
transaction's own when it stands at one of them.
-/

namespace Tiramisu.Library

open Posix Protocol SectionWriter List
open Metadb (AudioProjection AudioProjectionState Registry RelPath)

/-- Every file of the base disk is where it was. -/
def KeepsFiles (base d : Disk Content) : Prop :=
  ∀ p ino data, base.node p = some (.file ino data) → d.node p = some (.file ino data)

def NotFile (base : Disk Content) (p : Path) : Prop :=
  ∀ ino data, base.node p ≠ some (.file ino data)

/-- What may be done without touching a file of the base disk. -/
def keepFootprint (base : Disk Content) : Footprint where
  mkdir _ := True
  put := NotFile base
  unlink := NotFile base
  move p _ := NotFile base p
  stmt _ := True

variable {streamURL : String → ℤ → String} {base : Disk Content} {v : World}

lemma KeepsFiles.fs {c : Choice} {d d' : Disk Content} {call : FsCall} {r : call.Res}
    (h : KeepsFiles base d) (hin : call.In (keepFootprint base))
    (hex : call.exec c d = some (r, d')) : KeepsFiles base d' := by
  intro p ino data hp
  have hd := h p ino data hp
  rcases call.node_cases hin hex p with
    hsame | ⟨-, hnone, -⟩ | ⟨hput, -⟩ | ⟨hunlink, -⟩ | ⟨⟨i, hdir⟩, -⟩ | ⟨q, -, hnone⟩ | ⟨q, hmove, -⟩
  · exact hsame.trans hd
  · simp [hd] at hnone
  · exact absurd hp (hput ino data)
  · exact absurd hp (hunlink ino data)
  · simp [hd] at hdir
  · simp [hd] at hnone
  · exact absurd hp (hmove ino data)

/-- The program keeps the files of the base disk at every step. -/
abbrev Guards {α : Type} (streamURL : String → ℤ → String) (base : Disk Content) (p : Prog α)
    (Q : α → World → Prop) (v : World) : Prop :=
  wp (machine streamURL) (.alone (fun u => KeepsFiles base u.disk) fun _ _ _ => True) Q p v

section Rules

variable {α : Type} {Q : α → World → Prop}

lemma guards_of_uses {R : α → Prop} {p : Prog α} (hp : p.Uses (Op.In (keepFootprint base)) R) :
    Guards streamURL base p (fun a _ => R a) v := by
  refine wp_mono (fun _ _ h => h.1) (wp_of_uses (I := fun _ => True) hp (fun _ _ _ _ _ => trivial)
    (fun o c t r u hin _ ht _ hex => ⟨?_, trivial, trivial⟩) trivial)
  cases o with
  | fs undo call =>
    obtain ⟨d', hcall, rfl⟩ := exec_fs hex
    exact KeepsFiles.fs ht hin hcall
  | db undo call | render row =>
    cases hex
    exact ht

lemma guards_fs {undo : Bool} {call : FsCall} {f : call.Res → Prog α}
    (h : ∀ c r d', KeepsFiles base v.disk → call.exec c v.disk = some (r, d') →
      KeepsFiles base d' ∧ ∀ b, Guards streamURL base (f r) Q
        { v with disk := d', dirSyncFailed := b }) :
    Guards streamURL base (fs undo call >>= f) Q v := by
  rintro u rfl hu c - r t hex
  obtain ⟨d', hcall, rfl⟩ := exec_fs hex
  obtain ⟨hd, hf⟩ := h c r d' hu hcall
  exact ⟨hd, trivial, hf _⟩

lemma guards_op {o : Op} {f : o.Res → Prog α} (hin : o.In (keepFootprint base))
    (h : ∀ r u, Guards streamURL base (f r) Q u) :
    Guards streamURL base (Program.op o >>= f) Q v :=
  wp_then (guards_of_uses (R := fun _ => True) (Program.uses_op hin)) fun r u _ => h r u

end Rules

/-! ### The writer -/

section Writer

variable {w : SectionWriter} {rel final : RelPath}

/-- A staging file is only ever made where the base disk has no file. -/
lemma guards_writeStagedIdentity {data : Content} :
    Guards streamURL base (w.writeStagedIdentity rel data)
      (fun a _ => a.2.root = w.root ∧ ∀ ino, a.1 = .ok ino → NotFile base (w.root ++ rel)) v := by
  by_cases hfree : NotFile base (w.root ++ rel)
  · refine wp_mono (fun a _ ha => ⟨ha, fun _ _ => hfree⟩) (guards_of_uses ?_)
    exact uses_writeStagedIdentity (fun _ _ _ => trivial) hfree hfree
  unfold NotFile at hfree
  push Not at hfree
  obtain ⟨ino, old, hfile⟩ := hfree
  unfold writeStagedIdentity
  split_ifs with hc
  · exact wp_alone_ret ⟨rfl, by simp⟩
  have hrel : rel ≠ [] := checkRel_ne_nil (by simpa using hc)
  refine wp_then (guards_of_uses (uses_openParent true fun _ _ _ _ => trivial)) fun a u ha => ?_
  obtain ⟨parent, w'⟩ := a
  cases parent with
  | error e => exact wp_alone_ret ⟨ha.1, by simp⟩
  | ok dirfd =>
    have hleaf : dirfd.path ++ [leafOf rel] = w.root ++ rel := ha.leaf rfl hrel
    refine guards_fs fun c r d' hu hex => ?_
    -- the name is taken, so the exclusive creation fails
    rcases FsCall.createExcl_cases hex with ⟨born, -, hcreate⟩ | ⟨e, rfl, rfl⟩
    · have hnone := (Disk.create_eq_some hcreate).2.1
      rw [hleaf, hu _ _ _ hfile] at hnone
      cases hnone
    · exact ⟨hu, fun b => wp_alone_ret ⟨ha.1, by simp⟩⟩

lemma guards_publish (hstaged : NotFile base (w.root ++ rel)) :
    Guards streamURL base (w.publish rel final)
      (fun a _ => a.2.root = w.root ∧ (a.1 = .ok () → NotFile base (w.root ++ final))) v := by
  by_cases hfree : NotFile base (w.root ++ final)
  · refine wp_mono (fun a _ ha => ⟨ha, fun _ => hfree⟩) (guards_of_uses ?_)
    exact uses_publish (fun _ _ _ => trivial) hstaged
  unfold NotFile at hfree
  push Not at hfree
  obtain ⟨ino, old, hfile⟩ := hfree
  unfold publish
  split_ifs with hc
  · exact wp_alone_ret ⟨rfl, by simp⟩
  simp only [Bool.or_eq_true, Bool.not_eq_true', not_or, Bool.not_eq_false] at hc
  have hfinal : final ≠ [] := checkRel_ne_nil hc.2
  refine wp_then (guards_of_uses uses_findParent) fun a u ha => ?_
  obtain ⟨staged, w1⟩ := a
  cases staged with
  | error e => exact wp_alone_ret ⟨ha.1, by simp⟩
  | ok _ =>
  have h1 : w1.root = w.root := ha.1
  refine wp_then (guards_of_uses (uses_openParent true fun _ _ _ _ => trivial)) fun a u ha => ?_
  obtain ⟨fin, w2⟩ := a
  have h2 : w2.root = w.root := ha.1.trans h1
  cases fin with
  | error e => exact wp_alone_ret ⟨h2, by simp⟩
  | ok finalDir =>
  have hdst : finalDir.path ++ [leafOf final] = w.root ++ final := (ha.leaf rfl hfinal).trans (by rw [h1])
  refine wp_then (guards_of_uses uses_findParent) fun a u ha => ?_
  obtain ⟨staged, w3⟩ := a
  have h3 : w3.root = w.root := ha.1.trans h2
  cases staged with
  | error e => exact wp_alone_ret ⟨h3, by simp⟩
  | ok stagedDir =>
  refine guards_fs fun c r d' hu hex => ?_
  -- the final name is taken, so the rename refuses to replace it
  have hcases : (∃ e, r = .error e) ∧ d' = u.disk := by
    simp only [FsCall.exec, Option.some.injEq] at hex
    split_ifs at hex
    · cases hex
      exact ⟨⟨_, rfl⟩, rfl⟩
    rcases Disk.renameNoReplace_cases u.disk stagedDir (leafOf rel) finalDir (leafOf final) with
      ⟨n, -, -, hnone, -, -⟩ | ⟨e, he⟩
    · rw [hdst, hu _ _ _ hfile] at hnone
      cases hnone
    · rw [he] at hex
      cases hex
      exact ⟨⟨e, rfl⟩, rfl⟩
  obtain ⟨⟨e, rfl⟩, rfl⟩ := hcases
  exact ⟨hu, fun b => wp_alone_ret ⟨h3, by simp⟩⟩

end Writer

/-! ### The add -/

section Add

variable {S : LongestFirst} {txnID : String} {w : SectionWriter}

lemma guards_unwind {objects : List StagedObject}
    (hobj : ∀ o ∈ objects, NotFile base (w.root ++ o.rel)) :
    Guards streamURL base (unwind S txnID w objects) (fun _ _ => True) v :=
  guards_of_uses (uses_unwind hobj trivial)

lemma guards_writeLoop {objects : List StagedObject} {rows : List AudioProjection}
    (hobj : ∀ o ∈ objects, NotFile base (w.root ++ o.rel)) :
    Guards streamURL base (writeLoop S txnID w objects rows)
      (fun r _ => ∀ a, r = .ok a → ∀ o ∈ a.2, NotFile base (a.1.root ++ o.rel)) v := by
  induction rows generalizing w objects v with
  | nil =>
    refine wp_alone_ret fun a ha => ?_
    rw [← Except.ok.inj ha]
    exact hobj
  | cons row rows ih =>
    refine guards_op trivial fun data u => ?_
    cases data with
    | none =>
      exact wp_then (guards_unwind hobj) fun _ _ _ => wp_alone_ret (by simp)
    | some data =>
      refine wp_then guards_writeStagedIdentity fun a t ha => ?_
      obtain ⟨r, w'⟩ := a
      obtain ⟨hroot, hfree⟩ := ha
      rw [← hroot] at hobj hfree
      cases r with
      | error e =>
        exact wp_then (guards_unwind hobj) fun _ _ _ => wp_alone_ret (by simp)
      | ok ino =>
        exact ih (Places.forall_join hobj (hfree ino rfl))

lemma guards_publishLoop {done : List StagedObject}
    {rest : List (AudioProjection × StagedObject)}
    (hdone : ∀ o ∈ done, NotFile base (w.root ++ o.rel))
    (hrest : ∀ x ∈ rest, NotFile base (w.root ++ x.2.rel)) :
    Guards streamURL base (publishLoop S txnID w done rest)
      (fun r _ => ∀ a, r = .ok a → ∀ o ∈ a.2, NotFile base (a.1.root ++ o.rel)) v := by
  induction rest generalizing w done v with
  | nil =>
    refine wp_alone_ret fun a ha => ?_
    rw [← Except.ok.inj ha]
    exact hdone
  | cons x rest ih =>
    obtain ⟨row, obj⟩ := x
    refine wp_then (guards_publish (hrest (row, obj) (by simp))) fun a t ha => ?_
    obtain ⟨r, w'⟩ := a
    obtain ⟨hroot, hfree⟩ := ha
    rw [← hroot] at hdone hrest hfree
    cases r with
    | error e =>
      refine wp_then (guards_unwind ?_) fun _ _ _ => wp_alone_ret (by simp)
      exact forall_mem_append.mpr ⟨hdone,
        forall_mem_map (f := Prod.snd) (l := (row, obj) :: rest) |>.mpr hrest⟩
    | ok _ =>
      exact ih (Places.forall_join hdone (hfree rfl)) fun x hx => hrest x (by simp [hx])

lemma guards_addAudio {req : AddRequest} :
    Guards streamURL base (addAudio S req) (fun _ _ => True) v := by
  refine wp_then (guards_of_uses uses_openSectionWriter) fun r u hr => ?_
  cases r with
  | error e => exact wp_alone_done
  | ok w =>
  split_ifs
  · exact wp_alone_done
  refine guards_op trivial fun r u => ?_
  cases r with
  | error e => exact wp_alone_done
  | ok _ =>
  refine wp_then (guards_writeLoop (by simp)) fun r u hr => ?_
  cases r with
  | error e => exact wp_alone_done
  | ok a =>
  refine wp_then (guards_publishLoop (by simp) fun x hx => hr a rfl x.2 (of_mem_zip hx).2)
    fun r u hr => ?_
  cases r with
  | error e => exact wp_alone_done
  | ok a =>
    refine guards_op trivial fun r u => ?_
    cases r with
    | error e =>
      exact wp_then (guards_unwind (hr a rfl)) fun _ _ _ => wp_alone_done
    | ok committed =>
      dsimp only
      split_ifs
      · exact wp_then (guards_unwind (hr a rfl)) fun _ _ _ => wp_alone_done
      · exact wp_alone_done

end Add

/-! ### The rows -/

/-- An unfinished row is one of before or staged by the add. -/
def RowsOfAdd (req : AddRequest) (w u : World) : Prop :=
  ∀ r ∈ u.db.rows, r.state ≠ .committed →
    r ∈ w.db.rows ∨ (r.state = .staged ∧ r ∈ req.rows)

lemma RowsOfAdd.stmt {req : AddRequest} {w u : World} {c : Choice} {call : DbCall}
    (h : RowsOfAdd req w u) (hcall : call.OfAdd req) :
    RowsOfAdd req w { u with db := (call.exec c u.db).2 } := by
  intro r hr hst
  cases call with
  | stage txnID rows =>
    obtain ⟨rfl, rfl⟩ := hcall
    simp only [DbCall.exec] at hr
    split_ifs at hr
    · exact h r hr hst
    cases hstage : u.db.stageAudioProjections req.txnID req.rows with
    | error e =>
      rw [hstage] at hr
      exact h r hr hst
    | ok db' =>
      rw [hstage] at hr
      simp only [AddRequest.rows_of_stage hstage, mem_append] at hr
      rcases hr with hr | hr
      · exact h r hr hst
      · obtain ⟨plan, -, i, hrow⟩ := AddRequest.mem_rows hr
        exact Or.inr ⟨by rw [hrow]; rfl, hr⟩
  | commit txnID t =>
    simp only [DbCall.exec] at hr
    split_ifs at hr
    · exact h r hr hst
    · obtain ⟨s, hs, rfl⟩ := mem_map.mp hr
      split_ifs at hst ⊢
      · exact absurd rfl hst
      · exact h s hs hst
  | rollback txnID =>
    simp only [DbCall.exec] at hr
    split_ifs at hr
    · exact h r hr hst
    · exact h r (mem_of_mem_filter hr) hst
  | get | mark | markPaths | byPrefix | byState | byHash | delete => exact hcall.elim

lemma rowsOfAdd_of_steps {S : LongestFirst} {req : AddRequest} {w w' : World}
    {q : Prog (Except AddError Unit)}
    (h : Steps (machine streamURL) (fun _ _ _ => True) (addAudio S req) w q w') :
    RowsOfAdd req w w' := by
  have hadd : wp (machine streamURL) (.alone (RowsOfAdd req w) fun _ _ _ => True)
      (fun _ _ => True) (addAudio S req) w := by
    refine wp_mono (fun _ _ _ => trivial) (wp_of_uses (I := fun _ => True) uses_addAudio
      (fun _ _ _ _ _ => trivial) (fun o c t r u hin _ ht _ hex => ⟨?_, trivial, trivial⟩) trivial)
    cases o with
    | fs undo call =>
      obtain ⟨d', -, rfl⟩ := exec_fs hex
      exact ht
    | db undo call =>
      cases hex
      exact RowsOfAdd.stmt ht hin
    | render row =>
      cases hex
      exact ht
  exact (h.sound hadd fun r hr _ => Or.inl hr).1

/-! ### The recovery -/

/-- A name the recovery goes by. -/
def UnfinishedName (w : World) (p : Path) : Prop :=
  ∃ r ∈ w.db.rows, r.state ≠ .committed ∧ (p = diskPath r.path ∨ p = stagingFile r)

/-- The recovery unlinks at names of unfinished rows only. -/
structure Spared (w u : World) : Prop where
  files : ∀ p ino data, ¬UnfinishedName w p → w.disk.node p = some (.file ino data) →
    u.disk.node p = some (.file ino data)
  rows : ∀ r ∈ u.db.rows, r ∈ w.db.rows

def recoveryFootprint (w : World) : Footprint :=
  { sweepFootprint DbCall.Deletes with unlink := UnfinishedName w }

lemma Spared.step {o : Op} {c : Choice} {w t u : World} {r : o.Res} (ht : Spared w t)
    (hin : o.In (recoveryFootprint w)) (hex : (machine streamURL).exec o c t = some (r, u)) :
    Spared w u := by
  cases o with
  | fs undo call =>
    obtain ⟨d', hcall, rfl⟩ := exec_fs hex
    refine ⟨fun p ino data hname hfile => ?_, ht.rows⟩
    have hp := ht.files p ino data hname hfile
    rcases call.node_cases hin hcall p with
      hsame | ⟨hmk, -⟩ | ⟨hput, -⟩ | ⟨hunlink, -⟩ | ⟨⟨i, hdir⟩, -⟩ | ⟨q, hmove, -⟩ | ⟨q, hmove, -⟩
    · exact hsame.trans hp
    · exact hmk.elim
    · exact hput.elim
    · exact absurd hunlink hname
    · simp [hp] at hdir
    · exact hmove.elim
    · exact hmove.elim
  | db undo call =>
    cases hex
    exact ⟨ht.files, fun r hr => ht.rows r (DbCall.Deletes.rows hin hr)⟩
  | render row =>
    cases hex
    exact ht

section Recover

variable {w : World}

abbrev Spares {α : Type} (streamURL : String → ℤ → String) (w : World) (p : Prog α)
    (Q : α → World → Prop) (v : World) : Prop :=
  wp (machine streamURL) (.alone (Spared w) fun _ _ _ => True) Q p v

lemma spares_of_uses {α : Type} {R : α → Prop} {p : Prog α}
    (hp : p.Uses (Op.In (recoveryFootprint w)) R) :
    Spares streamURL w p (fun _ _ => True) v :=
  wp_mono (fun _ _ _ => trivial) (wp_of_uses (I := fun _ => True) hp (fun _ _ _ _ _ => trivial)
    (fun _ _ _ _ _ hin _ ht _ hex => ⟨ht.step hin hex, trivial, trivial⟩) trivial)

/-- The rows a phase of the recovery lists. -/
lemma spares_byState {state : AudioProjectionState}
    {f : Except DbError (List AudioProjection) → Prog Bool}
    (herr : ∀ e u, Spares streamURL w (f (.error e)) (fun _ _ => True) u)
    (hok : ∀ rows u, (∀ r ∈ rows, r ∈ w.db.rows ∧ r.state = state) →
      Spares streamURL w (f (.ok rows)) (fun _ _ => True) u) :
    Spares streamURL w (db false (.byState state) >>= f) (fun _ _ => True) v := by
  rintro u rfl hu c - r t hex
  cases hex
  refine ⟨hu, trivial, ?_⟩
  simp only [DbCall.exec]
  split_ifs
  · exact herr _ _
  · refine hok _ _ fun r hr => ?_
    obtain ⟨hrow, hst⟩ := Registry.mem_audioProjectionsByState.mp hr
    exact ⟨hu.rows r hrow, hst⟩

lemma spared_of_steps {w' : World} {q : Prog Bool}
    (h : Steps (machine streamURL) (fun _ _ _ => True) recoverAudio w q w') : Spared w w' := by
  have hname : ∀ (r : AudioProjection) state, r ∈ w.db.rows ∧ r.state = state →
      state ≠ .committed → (recoveryFootprint w).unlink (r.sec.dirName :: r.virtualPath) ∧
        (recoveryFootprint w).unlink (r.sec.dirName :: stagingRelPath r) := by
    rintro r state ⟨hr, rfl⟩ hst
    exact ⟨⟨r, hr, hst, Or.inl rfl⟩, ⟨r, hr, hst, Or.inr rfl⟩⟩
  have hstaged : ∀ v, Spares streamURL w recoverStagedAudioTransactions (fun _ _ => True) v := by
    refine fun v => spares_byState (fun e u => wp_alone_done) fun rows u hrows => ?_
    refine spares_of_uses (uses_recoverTransactions ?_ ?_ fun _ => trivial)
    · exact fun r hr => (hname r _ (hrows r hr) (by simp)).1
    · exact fun r hr => (hname r _ (hrows r hr) (by simp)).2
  have hremoving : ∀ v, Spares streamURL w recoverRemovingAudioProjections (fun _ _ => True) v := by
    refine fun v => spares_byState (fun e u => wp_alone_done) fun rows u hrows => ?_
    refine spares_of_uses (uses_recoverRemovingRows ?_ fun _ _ => trivial)
    exact fun r hr => (hname r _ (hrows r hr) (by simp)).1
  have hrecover : Spares streamURL w recoverAudio (fun _ _ => True) w :=
    wp_then (hstaged w)
      fun _ u _ => wp_bind (wp_mono (fun _ _ _ => wp_alone_done) (hremoving u))
  exact (h.sound hrecover ⟨fun _ _ _ _ hfile => hfile, fun _ hr => hr⟩).1

end Recover

/-- No row of the registry has the path as its virtual or its staging name. -/
def Unregistered (w : World) (p : Path) : Prop :=
  ∀ r ∈ w.db.rows, p ≠ diskPath r.path ∧ p ≠ stagingFile r

/-- Every unregistered file of the first world is unchanged in the second. -/
def SparesForeign (w w' : World) : Prop :=
  ∀ p ino data, Unregistered w p → w.disk.node p = some (.file ino data) →
    w'.disk.node p = some (.file ino data)

/-- No row staged since the first world has a name at which it had an unregistered file. -/
def StagedNamesFree (w w' : World) : Prop :=
  ∀ r ∈ w'.db.rows, r.state = .staged → r ∉ w.db.rows →
    ∀ p, p = diskPath r.path ∨ p = stagingFile r → Unregistered w p → NotFile w.disk p

/-- The recovery after an add cut off anywhere spares the unregistered files of
before exactly when no staged row left by the add names one of them. -/
theorem recovery_spares_foreign_files_iff {S : LongestFirst} {req : AddRequest} {w₀ w₁ : World}
    {q : Prog (Except AddError Unit)}
    (hadd : Steps (machine streamURL) (fun _ _ _ => True) (addAudio S req) w₀ q w₁) :
    (∀ q₂ w₂, Steps (machine streamURL) (fun _ _ _ => True) recoverAudio w₁ q₂ w₂ →
      StagedNamesFree w₀ w₁ → SparesForeign w₀ w₂) ∧
    ∀ w₂, Steps (machine streamURL) (fun _ _ _ => True) recoverAudio w₁ (.ret true) w₂ →
      (SparesForeign w₀ w₂ ↔ StagedNamesFree w₀ w₁) := by
  have hkeep : KeepsFiles w₀.disk w₁.disk :=
    (hadd.sound guards_addAudio fun _ _ _ hfile => hfile).1
  have hrows : RowsOfAdd req w₀ w₁ := rowsOfAdd_of_steps hadd
  have hspares : ∀ q₂ w₂, Steps (machine streamURL) (fun _ _ _ => True) recoverAudio w₁ q₂ w₂ →
      StagedNamesFree w₀ w₁ → SparesForeign w₀ w₂ := by
    intro q₂ w₂ hrec hfree p ino data hunreg hfile
    refine (spared_of_steps hrec).files p ino data ?_ (hkeep p ino data hfile)
    rintro ⟨r, hr, hst, hname⟩
    by_cases hold : r ∈ w₀.db.rows
    · exact hname.elim (hunreg r hold).1 (hunreg r hold).2
    · obtain ⟨hstaged, -⟩ := (hrows r hr hst).resolve_left hold
      exact hfree r hr hstaged hold p hname hunreg ino data hfile
  refine ⟨hspares, fun w₂ hrec => ⟨fun hspared r hr hst hold p hname hunreg ino data hfile => ?_,
    hspares _ w₂ hrec⟩⟩
  have hset : Settled w₁ w₂ := steps_spec hrec spec_recoverAudio rfl
  obtain ⟨plan, -, i, rfl⟩ : ∃ plan ∈ req.plans, ∃ i, r = req.row plan i :=
    AddRequest.mem_rows ((hrows r hr (by simp [hst])).resolve_left hold).2
  have htxn : req.txnID ≠ "" := by
    intro h
    have hlen := req.txnID_length
    rw [h] at hlen
    exact absurd hlen (by decide)
  obtain ⟨hvirtual, hstaging⟩ := hset.staged _ hr hst htxn
  have hthere := hspared p ino data hunreg hfile
  rcases hname with rfl | rfl
  · rw [hvirtual] at hthere
    cases hthere
  · rw [hstaging (stagingName_ne_empty _ _)] at hthere
    cases hthere

/-! ### A file at the destination, and one beside it -/

/-- The music section with an album directory that holds one file nobody registered. -/
def foreignWorld (leaf : String) : World where
  db := Registry.empty
  disk :=
    (((musicDisk.create ["music", "Artist"] (.dir 3)).bind
      (·.create ["music", "Artist", "Album"] (.dir 4))).bind
      (·.create ["music", "Artist", "Album", leaf] (.file 5 (.bytes "fLaC")))).getD musicDisk
  dirSyncFailed := false

lemma unregistered_foreignWorld (leaf : String) (p : Path) : Unregistered (foreignWorld leaf) p :=
  fun _ hr => absurd hr not_mem_nil

/-- The add of one track beside the file, cut off after its first `n` operations. -/
def addBeside (leaf : String) (n : ℕ) : Program Op Op.Res (Except AddError Unit) × World :=
  runAlone (machine gostormURL) (fun _ _ _ => True) (smooth n) (addAudio .insertion introRequest)
    (foreignWorld leaf)

/-- A file beside the staged track survives the recovery. -/
theorem booklet_survives_recovery :
    (recovered (addBeside "booklet.pdf" 6).2).1.result? = some true ∧
      (recovered (addBeside "booklet.pdf" 6).2).2.disk.node ["music", "Artist", "Album", "booklet.pdf"]
        = some (.file 5 (.bytes "fLaC")) := by
  have hret : (recovered (addBeside "booklet.pdf" 6).2).1 = .ret true :=
    eq_ret_of_result? (by decide)
  refine ⟨by decide, ?_⟩
  have hrec := steps_runAlone (machine gostormURL) (fun _ _ _ => True) (smooth 40)
    recoverAudio (addBeside "booklet.pdf" 6).2
  have hfree : StagedNamesFree (foreignWorld "booklet.pdf") (addBeside "booklet.pdf" 6).2 := by
    intro r hr _ _ p hname _ ino data
    have hrows : (addBeside "booklet.pdf" 6).2.db.rows = [introRequest.row introPlan 0] := by decide
    obtain rfl := mem_singleton.mp (hrows ▸ hr)
    have hnone : (foreignWorld "booklet.pdf").disk.node p = none := by
      rcases hname with rfl | rfl <;> decide
    simp [hnone]
  have hsteps := (recovery_spares_foreign_files_iff (steps_runAlone _ _ (smooth 6) _ _)).2 _
    (hret ▸ hrec)
  exact hsteps.mpr hfree _ _ _ (unregistered_foreignWorld _ _) (by decide)

/-- A file that stood at the destination before the add is unlinked. -/
theorem destination_file_unlinked_by_recovery :
    ∃ q w₁ w₂, Steps (machine gostormURL) (fun _ _ _ => True) (addAudio .insertion introRequest)
        (foreignWorld "01 - Intro_01234567.flac") q w₁ ∧
      Steps (machine gostormURL) (fun _ _ _ => True) recoverAudio w₁ (.ret true) w₂ ∧
      Unregistered (foreignWorld "01 - Intro_01234567.flac") (diskPath ⟨.music, introPath⟩) ∧
      (foreignWorld "01 - Intro_01234567.flac").disk.node (diskPath ⟨.music, introPath⟩)
        = some (.file 5 (.bytes "fLaC")) ∧
      w₂.disk.node (diskPath ⟨.music, introPath⟩) = none := by
  have hret : (recovered (addBeside "01 - Intro_01234567.flac" 2).2).1 = .ret true :=
    eq_ret_of_result? (by decide)
  have hrec := steps_runAlone (machine gostormURL) (fun _ _ _ => True) (smooth 40)
    recoverAudio (addBeside "01 - Intro_01234567.flac" 2).2
  exact ⟨_, _, _, steps_runAlone _ _ (smooth 2) _ _, hret ▸ hrec, unregistered_foreignWorld _ _,
    by decide, by decide⟩

end Tiramisu.Library
