import Tiramisu.Lib.Places
import Tiramisu.Library.Footprint

/-!
# What the writer's methods do when they run alone

`Overlay` describes the disk during an add: the disk it started from, plus the
directories the writer created and the files the request placed.  Each method
is given one specification that moves the overlay, and a method that only
undoes takes an entry of the overlay away.
-/

namespace Tiramisu.Library

open Posix Protocol List Option FsCall Disk
open Metadb (RelPath)

structure PlacedFile where
  rel : RelPath
  ino : ℕ
  data : Content

structure Overlay (root : Path) (base : Disk Content) (dirs : List RelPath)
    (files : List PlacedFile) (d : Disk Content) : Prop where
  dirs_ne : ∀ x ∈ dirs, x ≠ []
  dirs_nodup : dirs.Nodup
  dirs_new : ∀ x ∈ dirs, base.node (root ++ x) = none
  dirs_here : ∀ x ∈ dirs, ∃ ino, d.node (root ++ x) = some (.dir ino)
  files_nodup : (files.map (·.rel)).Nodup
  files_new : ∀ f ∈ files, base.node (root ++ f.rel) = none
  files_here : ∀ f ∈ files, d.node (root ++ f.rel) = some (.file f.ino f.data)
  rest : ∀ q, (∀ x ∈ dirs, q ≠ root ++ x) → (∀ f ∈ files, q ≠ root ++ f.rel) →
    d.node q = base.node q

namespace Overlay

variable {root : Path} {base d d' : Disk Content} {dirs : List RelPath} {files : List PlacedFile}
variable {x : RelPath}

lemma refl (root : Path) (d : Disk Content) : Overlay root d [] [] d where
  dirs_ne := by simp
  dirs_nodup := nodup_nil
  dirs_new := by simp
  dirs_here := by simp
  files_nodup := nodup_nil
  files_new := by simp
  files_here := by simp
  rest _ _ _ := rfl

section

variable (h : Overlay root base dirs files d)

include h

/-- A path with nothing on it is free in the base and of no entry. -/
lemma of_free (hx : d.node (root ++ x) = none) :
    base.node (root ++ x) = none ∧ x ∉ dirs ∧ x ∉ files.map (·.rel) := by
  have hdirs : x ∉ dirs := by
    intro hmem
    obtain ⟨ino, hino⟩ := h.dirs_here x hmem
    simp [hx] at hino
  have hfiles : x ∉ files.map (·.rel) := by
    intro hmem
    obtain ⟨f, hf, rfl⟩ := mem_map.mp hmem
    simp [h.files_here f hf] at hx
  refine ⟨?_, hdirs, hfiles⟩
  rw [← hx]
  refine (h.rest _ (fun y hy heq => ?_) fun f hf heq => ?_).symm
  · rw [append_cancel_left_eq] at heq
    exact hdirs (heq ▸ hy)
  · rw [append_cancel_left_eq] at heq
    exact hfiles (heq ▸ mem_map_of_mem hf)

lemma mkdir {ino : ℕ} (hx : x ≠ []) (hc : d.create (root ++ x) (.dir ino) = some d') :
    Overlay root base (dirs ++ [x]) files d' ∧ x ∉ dirs := by
  obtain ⟨-, hnone, -, -, hnode⟩ := create_eq_some hc
  obtain ⟨hbase, hdirs, hfiles⟩ := h.of_free hnone
  have hkeep : ∀ y, y ≠ x → d'.node (root ++ y) = d.node (root ++ y) := by
    intro y hy
    rw [hnode, if_neg (by simpa using hy)]
  refine ⟨?_, hdirs⟩
  constructor
  · exact Places.forall_join h.dirs_ne hx
  · exact nodup_append.mpr ⟨h.dirs_nodup, nodup_singleton x,
      fun y hy z hz => by rw [mem_singleton.mp hz]; rintro rfl; exact hdirs hy⟩
  · exact Places.forall_join h.dirs_new hbase
  · intro y hy
    by_cases hyx : y = x
    · exact ⟨ino, by rw [hyx, hnode, if_pos rfl]⟩
    · rw [hkeep y hyx]
      rcases mem_append.mp hy with hy | hy
      · exact h.dirs_here y hy
      · exact absurd (mem_singleton.mp hy) hyx
  · exact h.files_nodup
  · exact h.files_new
  · intro f hf
    rw [hkeep f.rel (fun heq => hfiles (heq ▸ mem_map_of_mem hf))]
    exact h.files_here f hf
  · intro q hq hf
    rw [hnode, if_neg (hq x (by simp))]
    exact h.rest q (fun y hy => hq y (by simp [hy])) hf

lemma place {ino : ℕ} {data : Content} (hnone : d.node (root ++ x) = none)
    (hnode : ∀ q, d'.node q = if q = root ++ x then some (.file ino data) else d.node q) :
    Overlay root base dirs (files ++ [⟨x, ino, data⟩]) d' := by
  obtain ⟨hbase, hdirs, hfiles⟩ := h.of_free hnone
  have hkeep : ∀ y, y ≠ x → d'.node (root ++ y) = d.node (root ++ y) := by
    intro y hy
    rw [hnode, if_neg (by simpa using hy)]
  constructor
  · exact h.dirs_ne
  · exact h.dirs_nodup
  · exact h.dirs_new
  · intro y hy
    rw [hkeep y (fun heq => hdirs (heq ▸ hy))]
    exact h.dirs_here y hy
  · rw [map_append, nodup_append]
    refine ⟨h.files_nodup, by simp, fun y hy z hz => ?_⟩
    simp only [map_cons, map_nil, mem_singleton] at hz
    rw [hz]
    rintro rfl
    exact hfiles hy
  · exact Places.forall_join h.files_new hbase
  · refine Places.forall_join (fun f hf => ?_) ((hnode _).trans (if_pos rfl))
    rw [hkeep f.rel (fun heq => hfiles (heq ▸ mem_map_of_mem hf))]
    exact h.files_here f hf
  · intro q hq hf
    have hqx : q ≠ root ++ x := by simpa using hf ⟨x, ino, data⟩ (by simp)
    rw [hnode, if_neg hqx]
    exact h.rest q hq fun f hf' => hf f (by simp [hf'])

end

variable {f : PlacedFile} {pre post : List PlacedFile}

/-- The other files of a list with distinct names. -/
lemma ne_of_split (h : Overlay root base dirs (pre ++ f :: post) d) {g : PlacedFile}
    (hg : g ∈ pre ++ post) : g.rel ≠ f.rel := by
  have hnodup := h.files_nodup
  rw [map_append, map_cons, nodup_middle, nodup_cons, ← map_append]
    at hnodup
  intro heq
  exact hnodup.1 (heq ▸ mem_map_of_mem hg)

lemma take (h : Overlay root base dirs (pre ++ f :: post) d)
    (hnode : ∀ q, d'.node q = if q = root ++ f.rel then none else d.node q) :
    Overlay root base dirs (pre ++ post) d' := by
  have hmem : ∀ g ∈ pre ++ post, g ∈ pre ++ f :: post := by
    intro g hg
    rcases mem_append.mp hg with hg | hg <;> simp [hg]
  have hf : f ∈ pre ++ f :: post := by simp
  constructor
  · exact h.dirs_ne
  · exact h.dirs_nodup
  · exact h.dirs_new
  · intro x hx
    obtain ⟨ino, hino⟩ := h.dirs_here x hx
    refine ⟨ino, ?_⟩
    rw [hnode, if_neg, hino]
    intro heq
    rw [heq, h.files_here f hf] at hino
    cases hino
  · have hnodup := h.files_nodup
    rw [map_append, map_cons, nodup_middle, nodup_cons, ← map_append]
      at hnodup
    exact hnodup.2
  · exact fun g hg => h.files_new g (hmem g hg)
  · intro g hg
    rw [hnode, if_neg (by simpa using h.ne_of_split hg)]
    exact h.files_here g (hmem g hg)
  · intro q hq hfiles
    rw [hnode]
    split_ifs with hqf
    · rw [hqf, h.files_new f hf]
    refine h.rest q hq fun g hg => ?_
    rcases mem_append.mp hg with hg | hg
    · exact hfiles g (by simp [hg])
    · rcases mem_cons.mp hg with rfl | hg
      · exact hqf
      · exact hfiles g (by simp [hg])

lemma perm (h : Overlay root base dirs files d) {dirs' : List RelPath} {files' : List PlacedFile}
    (hd : dirs'.Perm dirs) (hf : files'.Perm files) : Overlay root base dirs' files' d where
  dirs_ne x hx := h.dirs_ne x (hd.mem_iff.mp hx)
  dirs_nodup := hd.nodup_iff.mpr h.dirs_nodup
  dirs_new x hx := h.dirs_new x (hd.mem_iff.mp hx)
  dirs_here x hx := h.dirs_here x (hd.mem_iff.mp hx)
  files_nodup := (hf.map _).nodup_iff.mpr h.files_nodup
  files_new f hf' := h.files_new f (hf.mem_iff.mp hf')
  files_here f hf' := h.files_here f (hf.mem_iff.mp hf')
  rest q hq hfq := h.rest q (fun x hx => hq x (hd.mem_iff.mpr hx))
    fun f hf' => hfq f (hf.mem_iff.mpr hf')

/-- A rename onto a free name is a take followed by a place. -/
lemma move (h : Overlay root base dirs (pre ++ f :: post) d) (hnone : d.node (root ++ x) = none)
    (hnode : ∀ q, d'.node q = if q = root ++ x then some (.file f.ino f.data)
      else if q = root ++ f.rel then none else d.node q) :
    Overlay root base dirs (pre ++ ⟨x, f.ino, f.data⟩ :: post) d' := by
  have hhere : d.node (root ++ f.rel) = some (.file f.ino f.data) :=
    h.files_here f (by simp)
  obtain ⟨d1, hd1⟩ := erase_isSome (ne_nil_of_not_dir hhere rfl)
    (childless_of_not_dir hhere rfl)
  have hnode1 := (erase_eq_some hd1).2.2
  have hnone1 : d1.node (root ++ x) = none := by
    rw [hnode1]
    split_ifs
    · rfl
    · exact hnone
  have hplaced : Overlay root base dirs (pre ++ post ++ [⟨x, f.ino, f.data⟩]) d' :=
    (h.take hnode1).place hnone1 fun q => by rw [hnode, hnode1]
  refine hplaced.perm (List.Perm.refl _) ?_
  refine perm_middle.trans ?_
  exact (perm_append_singleton _ _).symm

/-- With no file of the request left, a created directory whose created
subdirectories are gone is empty. -/
lemma childless (h : Overlay root base dirs [] d) (hx : x ∈ dirs)
    (hsub : ∀ c, x ++ [c] ∉ dirs) : d.childless (root ++ x) = true := by
  rw [childless_iff]
  intro q n hq hne hlast
  obtain ⟨c, hc⟩ : ∃ c, q = root ++ x ++ [c] := by
    refine ⟨q.getLast hne, ?_⟩
    rw [← hlast, dropLast_append_getLast]
  subst hc
  have hbase : base.node (root ++ x ++ [c]) = some n := by
    rw [← h.rest (root ++ x ++ [c]) (fun y hy heq => ?_) (by simp)]
    · exact hq
    · rw [append_assoc, append_cancel_left_eq] at heq
      exact hsub c (heq ▸ hy)
  obtain ⟨ino, hino⟩ := base.parent hbase (by simp)
  rw [dropLast_concat] at hino
  cases hino.symm.trans (h.dirs_new x hx)

lemma rmdir (h : Overlay root base (x :: dirs) [] d)
    (hnode : ∀ q, d'.node q = if q = root ++ x then none else d.node q) :
    Overlay root base dirs [] d' := by
  have hnotin : x ∉ dirs := (nodup_cons.mp h.dirs_nodup).1
  constructor
  · exact fun y hy => h.dirs_ne y (by simp [hy])
  · exact (nodup_cons.mp h.dirs_nodup).2
  · exact fun y hy => h.dirs_new y (by simp [hy])
  · intro y hy
    have hyx : root ++ y ≠ root ++ x := by
      intro heq
      rw [append_cancel_left_eq] at heq
      exact hnotin (heq ▸ hy)
    rw [hnode, if_neg hyx]
    exact h.dirs_here y (by simp [hy])
  · exact h.files_nodup
  · exact h.files_new
  · simp
  · intro q hq _
    rw [hnode]
    split_ifs with hqx
    · rw [hqx, h.dirs_new x (by simp)]
    · refine h.rest q (fun y hy => ?_) (by simp)
      rcases mem_cons.mp hy with rfl | hy
      · exact hqx
      · exact hq y hy

end Overlay

/-! ### Specifications -/

variable {α β : Type} {streamURL : String → ℤ → String} {ok : Op → Choice → World → Prop}

/-- The program, alone, ends only in states that satisfy `Q`. -/
abbrev Spec (streamURL : String → ℤ → String) (ok : Op → Choice → World → Prop) (p : Prog α)
    (Q : α → World → Prop) (w : World) : Prop :=
  wp (machine streamURL) (.alone (fun _ => True) ok) Q p w

lemma spec_ret {Q : α → World → Prop} {a : α} {w : World} (h : Q a w) :
    Spec streamURL ok (.ret a) Q w :=
  wp_alone_ret h

lemma spec_fs {Q : α → World → Prop} {undo : Bool} {call : FsCall} {f : call.Res → Prog α}
    {w : World}
    (h : ∀ c, ok (.fs undo call) c w → ∀ r d', call.exec c w.disk = some (r, d') →
      Spec streamURL ok (f r) Q
        { w with disk := d', dirSyncFailed := w.dirSyncFailed || call.isSyncDir && c.fail }) :
    Spec streamURL ok (fs undo call >>= f) Q w := by
  refine wp_alone_perform fun c hc r u hex => ⟨trivial, ?_⟩
  obtain ⟨d', hcall, rfl⟩ := exec_fs hex
  exact h c hc r d' hcall

lemma spec_db {Q : α → World → Prop} {undo : Bool} {call : DbCall} {f : call.Res → Prog α}
    {w : World}
    (h : ∀ c, ok (.db undo call) c w →
      Spec streamURL ok (f (call.exec c w.db).1) Q { w with db := (call.exec c w.db).2 }) :
    Spec streamURL ok (db undo call >>= f) Q w := by
  refine wp_alone_perform fun c hc r u hex => ⟨trivial, ?_⟩
  cases hex
  exact h c hc

lemma spec_render {Q : α → World → Prop} {row : Metadb.AudioProjection}
    {f : Option Content → Prog α} {w : World} (hnone : Spec streamURL ok (f none) Q w)
    (hsome : Spec streamURL ok (f (some (audioStub streamURL row))) Q w) :
    Spec streamURL ok ((Program.op (Op.render row) : Prog (Option Content)) >>= f) Q w := by
  refine wp_alone_perform fun c hc r u hex => ⟨trivial, ?_⟩
  cases hex
  split_ifs
  · exact hnone
  · exact hsome

lemma spec_trivial (p : Prog α) (w : World) : Spec streamURL ok p (fun _ _ => True) w := by
  induction p generalizing w with
  | ret a => exact spec_ret trivial
  | perform o k ih => exact wp_alone_perform fun c hc r u hex => ⟨trivial, ih r u⟩

/-- What every operation within a footprint keeps, the program keeps. -/
lemma spec_of_uses {F : Footprint} {R : α → Prop} {I : World → Prop} {p : Prog α} {w : World}
    (hp : p.Uses (Op.In F) R)
    (hstep : ∀ (o : Op) c v r u, o.In F → I v → (machine streamURL).exec o c v = some (r, u) → I u)
    (hw : I w) : Spec streamURL ok p (fun a u => R a ∧ I u) w := by
  refine wp_of_uses hp (fun v v' hI hrely _ => hrely ▸ hI) (fun o c v r u hin _ _ hI hex => ?_) hw
  exact ⟨trivial, trivial, hstep o c v r u hin hI hex⟩

/-- The end of a run, by the specification of its program. -/
lemma steps_spec {Q : α → World → Prop} {p : Prog α} {a : α} {w w' : World}
    (h : Steps (machine streamURL) ok p w (.ret a) w') (hp : Spec streamURL ok p Q w) : Q a w' :=
  h.result hp trivial

/-- Undo calls do not fail on their own. -/
def UndoReliable (ok : Op → Choice → World → Prop) : Prop :=
  (∀ call c w, ok (.fs true call) c w → c.fail = false) ∧
    ∀ call c w, ok (.db true call) c w → c.fail = false

/-- Everything but the disk is as before. -/
def DiskOnly (v u : World) : Prop := u.db = v.db ∧ u.dirSyncFailed = v.dirSyncFailed

lemma DiskOnly.refl (v : World) : DiskOnly v v := ⟨rfl, rfl⟩

lemma DiskOnly.trans {v u t : World} (h : DiskOnly v u) (h' : DiskOnly u t) : DiskOnly v t :=
  ⟨h'.1.trans h.1, h'.2.trans h.2⟩

namespace SectionWriter

variable {undo : Bool} {w : SectionWriter} {rel : RelPath} {v : World}

lemma dropLast_append_rel (root : Path) (hrel : rel ≠ []) :
    (root ++ rel).dropLast = root ++ rel.dropLast :=
  dropLast_append_of_ne_nil hrel

/-- Opening a parent without creating it reads the disk. -/
lemma spec_findParent {Q : Except WriterError DirFd × SectionWriter → World → Prop}
    (hok : ∀ ino, v.disk.node (w.root ++ rel.dropLast) = some (.dir ino) →
      Q (.ok ⟨w.root ++ rel.dropLast, ino⟩, w) v)
    (herr : ∀ e, ((∀ call c u, ok (.fs undo call) c u → c.fail = false) →
        ∀ ino, v.disk.node (w.root ++ rel.dropLast) ≠ some (.dir ino)) →
      (e = .errno .enoent → ∀ l, v.disk.node (w.root ++ rel.dropLast ++ l) = none) →
      Q (.error e, w) v) :
    Spec streamURL ok (w.openParent undo rel false) Q v := by
  refine spec_fs fun c hc r d' hex => ?_
  obtain ⟨rfl, rfl⟩ := hex
  simp only [isSyncDir, Bool.false_and, Bool.or_false]
  by_cases hf : c.fail = true
  · simp only [hf, if_true]
    exact spec_ret (herr _ (fun hrel => by simp [hrel _ _ _ hc] at hf) (by simp [beneathErr]))
  simp only [hf, Bool.false_eq_true, if_false]
  cases hres : v.disk.resolve w.root rel.dropLast with
  | ok fd =>
    obtain ⟨hpath, hholds⟩ := resolve_eq_ok hres
    rw [holds_iff, hpath] at hholds
    exact spec_ret (hok fd.ino hholds)
  | error e =>
    refine spec_ret (herr _ (fun _ ino hino => ?_) fun he => ?_)
    · rw [resolve_of_dir hino] at hres
      cases hres
    have he' : e = .enoent := by
      unfold beneathErr at he
      split_ifs at he
      exact WriterError.errno.inj he
    exact fun l => node_of_resolve_enoent (he' ▸ hres)

/-- `RemoveStaged` without an error leaves nothing at the name. -/
lemma spec_removeStaged :
    Spec streamURL ok (w.removeStaged rel)
      (fun r u => r = .ok () → u.disk.node (w.root ++ rel) = none) v := by
  unfold removeStaged
  split_ifs with hc
  · exact spec_ret (by simp)
  have hrel : rel ≠ [] := checkRel_ne_nil (by simpa using hc)
  refine wp_bind (spec_findParent (fun ino hino => ?_) fun e _ henoent => ?_)
  · refine spec_fs fun c hc r d' hex => ?_
    simp only [exec, some.injEq] at hex
    split_ifs at hex
    · cases hex
      exact spec_ret (by simp)
    have hpath := path_append_leafOf w.root hrel
    rcases unlinkAt_cases v.disk ⟨w.root ++ rel.dropLast, ino⟩ (leafOf rel) with
      ⟨n, -, -, -, hr, hnode⟩ | ⟨e, he, hnone⟩
    · rw [hex] at hr hnode
      obtain rfl : r = .ok () := hr
      refine spec_ret fun _ => ?_
      exact (hnode _).trans (by rw [hpath, if_pos rfl])
    · rw [he] at hex
      cases hex
      refine spec_ret fun hr => ?_
      have he' : e = .enoent := by
        by_contra hne
        simp [hne] at hr
      rw [← hpath]
      exact hnone he' (holds_iff.mpr hino)
  · refine spec_ret fun hr => ?_
    have he' : e = .errno .enoent := by
      by_contra hne
      simp [hne] at hr
    rw [← path_append_leafOf w.root hrel]
    exact henoent he' _

section Undo

variable {base : Disk Content} {dirs : List RelPath}

/-- Unlinking one of the request's own files by its identity. -/
lemma spec_removeStagedIfIdentity_hit {f : PlacedFile} {pre post : List PlacedFile}
    (hU : UndoReliable ok) (hov : Overlay w.root base dirs (pre ++ f :: post) v.disk)
    (hrel : checkRel f.rel = true) :
    Spec streamURL ok (w.removeStagedIfIdentity true f.rel f.ino)
      (fun r u => r = .ok true ∧ DiskOnly v u ∧
        Overlay w.root base dirs (pre ++ post) u.disk) v := by
  have hne : f.rel ≠ [] := checkRel_ne_nil hrel
  have hpath := path_append_leafOf w.root hne
  have hhere : v.disk.node (w.root ++ f.rel) = some (.file f.ino f.data) :=
    hov.files_here f (by simp)
  obtain ⟨pino, hparent⟩ := v.disk.parent hhere (by simp [hne])
  rw [dropLast_append_rel _ hne] at hparent
  unfold removeStagedIfIdentity
  rw [hrel]
  refine wp_bind (spec_findParent (fun ino hino => ?_) fun e hrel _ => ?_)
  · have hholds : v.disk.holds ⟨w.root ++ f.rel.dropLast, ino⟩ = true := holds_iff.mpr hino
    refine spec_fs fun c hc r d' hex => ?_
    simp only [exec, hU.1 _ _ _ hc, Bool.false_eq_true, if_false, some.injEq,
      Prod.mk.injEq] at hex
    obtain ⟨rfl, rfl⟩ := hex
    have hstat : v.disk.statAt ⟨w.root ++ f.rel.dropLast, ino⟩ (leafOf f.rel) = .ok f.ino := by
      simp [Disk.statAt, hholds, hpath, hhere, Node.ino]
    rw [hstat]
    simp only [isSyncDir, Bool.false_and, Bool.or_false, ne_eq, not_true_eq_false, if_false]
    refine spec_fs fun c hc r d' hex => ?_
    simp only [exec, hU.1 _ _ _ hc, Bool.false_eq_true, if_false, some.injEq] at hex
    rcases unlinkAt_cases v.disk ⟨w.root ++ f.rel.dropLast, ino⟩ (leafOf f.rel) with
      ⟨n, -, -, -, hr, hnode⟩ | ⟨e, he, -⟩
    · rw [hex] at hr hnode
      obtain rfl : r = .ok () := hr
      refine spec_ret ⟨rfl, ⟨rfl, by simp [isSyncDir]⟩, hov.take fun q => ?_⟩
      exact (hnode q).trans (by rw [hpath])
    · exfalso
      simp [Disk.unlinkAt, hholds, hpath, hhere] at he
  · exact absurd hparent (hrel (fun call c u hc => hU.1 call c u hc) pino)

/-- A name that holds nothing is not unlinked, and says so. -/
lemma spec_removeStagedIfIdentity_miss {want : ℕ} (hU : UndoReliable ok)
    (hnone : v.disk.node (w.root ++ rel) = none) :
    Spec streamURL ok (w.removeStagedIfIdentity true rel want)
      (fun r u => r ≠ .ok true ∧ u = v) v := by
  unfold removeStagedIfIdentity
  split_ifs with hc
  · exact spec_ret ⟨by simp, rfl⟩
  have hne : rel ≠ [] := checkRel_ne_nil (by simpa using hc)
  have hpath := path_append_leafOf w.root hne
  refine wp_bind (spec_findParent (fun ino hino => ?_) fun e _ _ => ?_)
  · have hholds : v.disk.holds ⟨w.root ++ rel.dropLast, ino⟩ = true := holds_iff.mpr hino
    refine spec_fs fun c hc r d' hex => ?_
    simp only [exec, hU.1 _ _ _ hc, Bool.false_eq_true, if_false, some.injEq,
      Prod.mk.injEq] at hex
    obtain ⟨rfl, rfl⟩ := hex
    have hstat : v.disk.statAt ⟨w.root ++ rel.dropLast, ino⟩ (leafOf rel) = .error .enoent := by
      simp [Disk.statAt, hholds, hpath, hnone]
    rw [hstat]
    exact spec_ret ⟨by simp, by simp [isSyncDir]⟩
  · refine spec_ret ⟨?_, rfl⟩
    split_ifs <;> simp

lemma textLength_lt (hx : x ≠ []) (c : String) : textLength x < textLength (x ++ [c]) := by
  have hpos : 0 < x.length := length_pos_iff.mpr hx
  simp only [textLength, map_append, sum_append, length_append, map_cons,
    map_nil, sum_cons, sum_nil, length_cons, length_nil]
  omega

/-- The created directories go, longest first, until none is left. -/
lemma spec_removeDirsIfEmpty {rels : List RelPath} (hU : UndoReliable ok)
    (hsorted : rels.Pairwise fun a b => textLength b ≤ textLength a)
    (hov : Overlay w.root base rels [] v.disk) :
    Spec streamURL ok (w.removeDirsIfEmpty rels)
      (fun _ u => DiskOnly v u ∧ Overlay w.root base [] [] u.disk) v := by
  induction rels generalizing v with
  | nil => exact spec_ret ⟨⟨rfl, rfl⟩, hov⟩
  | cons x rels ih =>
    obtain ⟨hlonger, hrest⟩ := pairwise_cons.mp hsorted
    have hne : x ≠ [] := hov.dirs_ne x (by simp)
    have hpath := path_append_leafOf w.root hne
    obtain ⟨xino, hhere⟩ := hov.dirs_here x (by simp)
    obtain ⟨pino, hparent⟩ := v.disk.parent hhere (by simp [hne])
    rw [dropLast_append_rel _ hne] at hparent
    -- a created subdirectory has a longer text, so it is gone already
    have hchildless : v.disk.childless (w.root ++ x) = true := by
      refine hov.childless (by simp) fun c hmem => ?_
      have hlt := textLength_lt hne c
      rcases mem_cons.mp hmem with heq | hmem
      · rw [heq] at hlt
        omega
      · have := hlonger _ hmem
        omega
    refine wp_bind (wp_bind (spec_findParent (fun ino hino => ?_) fun e hrel _ => ?_))
    · have hholds : v.disk.holds ⟨w.root ++ x.dropLast, ino⟩ = true := holds_iff.mpr hino
      refine spec_fs fun c hc r d' hex => ?_
      simp only [exec, hU.1 _ _ _ hc, Bool.false_eq_true, if_false, some.injEq]
        at hex
      obtain ⟨d1, hd1⟩ := erase_isSome (p := w.root ++ x) (by simp [hne]) hchildless
      have hrm : v.disk.rmdirAt ⟨w.root ++ x.dropLast, ino⟩ (leafOf x) = (.ok (), d1) := by
        simp [Disk.rmdirAt, hholds, hpath, hhere, hd1]
      rw [hrm] at hex
      obtain ⟨rfl, rfl⟩ := Prod.mk.inj hex
      refine spec_ret ?_
      have hnext := ih (v := { v with disk := d1, dirSyncFailed := v.dirSyncFailed || false })
        hrest (hov.rmdir (erase_eq_some hd1).2.2)
      refine wp_mono (fun _ u hu => ?_) hnext
      exact ⟨⟨hu.1.1, hu.1.2.trans (by simp)⟩, hu.2⟩
    · exact absurd hparent (hrel (fun call c u hc => hU.1 call c u hc) pino)

end Undo

section Work

variable {root : Path} {base : Disk Content} {files : List PlacedFile}

/-- The writer knows every directory it added to the disk. -/
structure Anchored (root : Path) (base : Disk Content) (files : List PlacedFile)
    (w : SectionWriter) (v : World) : Prop where
  root_eq : w.root = root
  overlay : Overlay root base w.createdDirs files v.disk

lemma spec_openDir {α : Type} {Q : α → World → Prop} {f : Except Errno ℕ → Prog α}
    (h : ∀ r, (∀ ino, r = .ok ino → v.disk.holds ⟨root ++ rel, ino⟩ = true) →
      Spec streamURL ok (f r) Q v) :
    Spec streamURL ok (fs undo (.openDir root rel) >>= f) Q v := by
  refine spec_fs fun c hc r d' hex => ?_
  simp only [exec, some.injEq, Prod.mk.injEq] at hex
  obtain ⟨hr, rfl⟩ := hex
  simp only [isSyncDir, Bool.false_and, Bool.or_false]
  refine h r fun ino hino => ?_
  rw [hino] at hr
  split_ifs at hr
  cases hres : v.disk.resolve root rel with
  | error e =>
    rw [hres] at hr
    exact absurd hr (by simp [Except.map])
  | ok fd =>
    rw [hres] at hr
    obtain ⟨hpath, hholds⟩ := resolve_eq_ok hres
    obtain rfl : fd.ino = ino := Except.ok.inj hr
    rwa [← hpath]

section

variable (h : Anchored root base files w v)

include h

lemma spec_mkdirChain {acc : RelPath} {parts : List String} :
    Spec streamURL ok (w.mkdirChain undo acc parts)
      (fun a u => DiskOnly v u ∧ Anchored root base files a.2 u) v := by
  induction parts generalizing w acc v with
  | nil => exact spec_ret ⟨.refl v, h⟩
  | cons part parts ih =>
    refine spec_openDir fun r _ => ?_
    cases r with
    | ok ino => exact ih h
    | error e =>
      dsimp only
      split_ifs with he
      · exact spec_ret ⟨.refl v, h⟩
      refine spec_openDir fun r _ => ?_
      cases r with
      | error e => exact spec_ret ⟨.refl v, h⟩
      | ok parent =>
        refine spec_fs fun c hc r d' hex => ?_
        simp only [isSyncDir, Bool.false_and, Bool.or_false]
        have hcases : (r = .ok () ∧ v.disk.create (w.root ++ acc ++ [part]) (.dir c.ino)
            = some d') ∨ (∃ e, r = .error e ∧ d' = v.disk) := by
          simp only [exec] at hex
          split_ifs at hex
          · cases hex
            exact .inr ⟨_, rfl, rfl⟩
          · exact mkdirAt_eq_some hex
        rcases hcases with ⟨rfl, hcreate⟩ | ⟨e, rfl, rfl⟩
        · rw [append_assoc, h.root_eq] at hcreate
          obtain ⟨hov, hnew⟩ := h.overlay.mkdir (by simp) hcreate
          refine wp_mono (fun a u hu => ⟨.trans ⟨rfl, rfl⟩ hu.1, hu.2⟩)
            (ih (v := { v with disk := d' }) ⟨?_, ?_⟩)
          · rw [recordCreatedDir_root, h.root_eq]
          · rw [recordCreatedDir, if_neg hnew]
            exact hov
        · dsimp only
          split_ifs
          · exact spec_ret ⟨.refl v, h⟩
          · exact ih h

lemma spec_openDirAt {create : Bool} :
    Spec streamURL ok (w.openDirAt undo rel create)
      (fun a u => DiskOnly v u ∧ Anchored root base files a.2 u ∧
        ∀ fd, a.1 = .ok fd → fd.path = root ++ rel ∧ u.disk.holds fd = true) v := by
  refine spec_openDir fun r hr => ?_
  cases r with
  | ok ino =>
    refine spec_ret ⟨.refl v, h, fun fd hfd => ?_⟩
    rw [← Except.ok.inj hfd, ← h.root_eq]
    exact ⟨rfl, hr ino rfl⟩
  | error e =>
    dsimp only
    split_ifs
    · exact spec_ret ⟨.refl v, h, by simp⟩
    refine wp_then (spec_mkdirChain h) ?_
    rintro ⟨made, w'⟩ u ⟨honly, hu⟩
    cases made with
    | error e => exact spec_ret ⟨honly, hu, by simp⟩
    | ok _ =>
      refine spec_openDir fun r hr => ?_
      cases r with
      | error e => exact spec_ret ⟨honly, hu, by simp⟩
      | ok ino =>
        refine spec_ret ⟨honly, hu, fun fd hfd => ?_⟩
        rw [← Except.ok.inj hfd, ← hu.root_eq]
        exact ⟨rfl, hr ino rfl⟩

/-- A failed write of a staging file takes the name away again. -/
lemma spec_writeStagedIdentity {data : Content} :
    Spec streamURL ok (w.writeStagedIdentity rel data)
      (fun a u => DiskOnly v u ∧
        (∀ ino, a.1 = .ok ino →
          checkRel rel = true ∧ Anchored root base (files ++ [⟨rel, ino, data⟩]) a.2 u) ∧
        ∀ e, a.1 = .error e → UndoReliable ok → Anchored root base files a.2 u) v := by
  unfold writeStagedIdentity
  split_ifs with hc
  · exact spec_ret ⟨.refl v, by simp, fun _ _ _ => h⟩
  have hrelOk : checkRel rel = true := by simpa using hc
  have hrel : rel ≠ [] := checkRel_ne_nil hrelOk
  refine wp_then (spec_openDirAt h) ?_
  rintro ⟨parent, w'⟩ u ⟨honly, hu, hfd⟩
  cases parent with
  | error e => exact spec_ret ⟨honly, by simp, fun _ _ _ => hu⟩
  | ok dirfd =>
    obtain ⟨hpath, hholds⟩ := hfd dirfd rfl
    have hleaf : dirfd.path ++ [leafOf rel] = root ++ rel := by
      rw [hpath, path_append_leafOf root hrel]
    refine spec_fs fun c hc r d1 hex => ?_
    simp only [isSyncDir, Bool.false_and, Bool.or_false]
    rcases createExcl_cases hex with ⟨born, rfl, hcreate⟩ | ⟨e, rfl, rfl⟩
    · rw [hleaf] at hcreate
      obtain ⟨-, hnone, -, -, hnode⟩ := create_eq_some hcreate
      have hdirne : dirfd.path ≠ root ++ rel := by
        intro heq
        have := congrArg List.length (heq.trans hleaf.symm)
        simp at this
      -- from here on the disk is that of `u` with the new file in it
      let Placed (x : Content) (t : World) : Prop := DiskOnly v t ∧
        ∀ q, t.disk.node q = if q = root ++ rel then some (.file born x) else u.disk.node q
      have hunlinked : ∀ (e : WriterError) x t, Placed x t →
          Spec streamURL ok (fs true (.unlinkAt dirfd (leafOf rel)) >>= fun _ =>
            (pure (.error e, w') : Prog (Except WriterError ℕ × SectionWriter)))
            (fun a u => DiskOnly v u ∧
              (∀ ino, a.1 = .ok ino →
                checkRel rel = true ∧ Anchored root base (files ++ [⟨rel, ino, data⟩]) a.2 u) ∧
              ∀ e, a.1 = .error e → UndoReliable ok → Anchored root base files a.2 u) t := by
        rintro e x t ⟨htonly, ht⟩
        refine spec_fs fun c hc r d' hex => ?_
        refine spec_ret ⟨⟨htonly.1, by simpa [isSyncDir] using htonly.2⟩, by simp,
          fun _ _ hU => ⟨hu.root_eq, ?_⟩⟩
        simp only [exec, hU.1 _ _ _ hc, Bool.false_eq_true, if_false,
          some.injEq] at hex
        rw [← append_nil files]
        refine (hu.overlay.place hnone ht).take fun q => ?_
        have hth : t.disk.holds dirfd = true := by
          rw [holds_iff, ht, if_neg hdirne]
          exact holds_iff.mp hholds
        rcases unlinkAt_cases t.disk dirfd (leafOf rel) with
          ⟨n, -, -, -, -, hgone⟩ | ⟨e, he, -⟩
        · rw [hex, hleaf] at hgone
          exact hgone q
        · exfalso
          simp [Disk.unlinkAt, hth, hleaf, ht] at he
      have hblank : Placed (.bytes "") { u with disk := d1 } := ⟨honly, hnode⟩
      have hwrite : ∀ x, Placed x { u with disk := d1.write ⟨root ++ rel, born⟩ x } := by
        refine fun x => ⟨honly, fun q => ?_⟩
        refine (node_write_of_file (hblank.2 (root ++ rel) |>.trans (if_pos rfl)) q).trans ?_
        simp only [hnode]
        split_ifs <;> rfl
      refine spec_fs fun c hc r d2 hex => ?_
      simp only [exec, hleaf, some.injEq] at hex
      simp only [isSyncDir, Bool.false_and, Bool.or_false]
      split_ifs at hex
      · cases hex
        exact hunlinked _ _ _ (hwrite _)
      cases hex
      refine spec_fs fun c hc r d2 hex => ?_
      cases hex
      simp only [isSyncDir, Bool.false_and, Bool.or_false]
      split_ifs
      · exact hunlinked _ _ _ (hwrite _)
      refine spec_fs fun c hc r d2 hex => ?_
      cases hex
      simp only [isSyncDir, Bool.false_and, Bool.or_false]
      split_ifs
      · exact hunlinked _ _ _ (hwrite _)
      refine spec_ret ⟨honly, fun ino hino => ⟨hrelOk, hu.root_eq, ?_⟩, by simp⟩
      obtain rfl : born = ino := Except.ok.inj hino
      exact hu.overlay.place hnone (hwrite data).2
    · exact spec_ret ⟨honly, by simp, fun _ _ _ => hu⟩

end

/-- After a failed `Publish` the file is still at its staging name, unless it
was a directory sync that failed: then the file is already at its final name. -/
lemma spec_publish {f : PlacedFile} {pre post : List PlacedFile} {final : RelPath}
    (h : Anchored root base (pre ++ f :: post) w v) :
    Spec streamURL ok (w.publish f.rel final)
      (fun a u => u.db = v.db ∧
        (a.1 = .ok () → u.dirSyncFailed = v.dirSyncFailed ∧ checkRel final = true ∧
          Anchored root base (pre ++ { f with rel := final } :: post) a.2 u ∧
          u.disk.node (root ++ f.rel) = none) ∧
        ∀ e, a.1 = .error e →
          (u.dirSyncFailed = v.dirSyncFailed ∧ Anchored root base (pre ++ f :: post) a.2 u) ∨
          (u.dirSyncFailed = true ∧ a.2.root = root ∧ u.disk.node (root ++ f.rel) = none)) v := by
  unfold publish
  split_ifs with hc
  · exact spec_ret ⟨rfl, by simp, fun _ _ => .inl ⟨rfl, h⟩⟩
  simp only [Bool.or_eq_true, Bool.not_eq_true', not_or, Bool.not_eq_false] at hc
  have hrel : f.rel ≠ [] := checkRel_ne_nil hc.1
  have hfinal : final ≠ [] := checkRel_ne_nil hc.2
  refine wp_then (spec_openDirAt h) ?_
  rintro ⟨staged, w1⟩ u1 ⟨honly1, h1, -⟩
  cases staged with
  | error e => exact spec_ret ⟨honly1.1, by simp, fun _ _ => .inl ⟨honly1.2, h1⟩⟩
  | ok _ =>
  refine wp_then (spec_openDirAt h1) ?_
  rintro ⟨fin, w2⟩ u2 ⟨honly2, h2, hfinalDir⟩
  replace honly2 := honly1.trans honly2
  cases fin with
  | error e => exact spec_ret ⟨honly2.1, by simp, fun _ _ => .inl ⟨honly2.2, h2⟩⟩
  | ok finalDir =>
  have hdst : finalDir.path ++ [leafOf final] = root ++ final := by
    rw [(hfinalDir finalDir rfl).1, path_append_leafOf root hfinal]
  refine wp_then (spec_openDirAt h2) ?_
  rintro ⟨staged, w3⟩ u3 ⟨honly3, h3, hstagedDir⟩
  replace honly3 := honly2.trans honly3
  cases staged with
  | error e => exact spec_ret ⟨honly3.1, by simp, fun _ _ => .inl ⟨honly3.2, h3⟩⟩
  | ok stagedDir =>
  have hsrc : stagedDir.path ++ [leafOf f.rel] = root ++ f.rel := by
    rw [(hstagedDir stagedDir rfl).1, path_append_leafOf root hrel]
  have hhere : u3.disk.node (root ++ f.rel) = some (.file f.ino f.data) :=
    h3.overlay.files_here f (by simp)
  refine spec_fs fun c hc' r d' hex => ?_
  simp only [isSyncDir, Bool.false_and, Bool.or_false]
  have hcases : (r = .ok () ∧ d'.node (root ++ f.rel) = none ∧
      Overlay root base w3.createdDirs (pre ++ { f with rel := final } :: post) d') ∨
      (∃ e, r = .error e ∧ d' = u3.disk) := by
    simp only [exec, some.injEq] at hex
    split_ifs at hex
    · cases hex
      exact .inr ⟨_, rfl, rfl⟩
    rcases renameNoReplace_cases u3.disk stagedDir (leafOf f.rel) finalDir (leafOf final) with
      ⟨n, hn, -, hfree, hr, hnode⟩ | ⟨e, he⟩
    · rw [hsrc, hhere] at hn
      cases hn
      rw [hdst] at hfree
      rw [hex] at hr hnode
      simp only [hsrc, hdst] at hnode
      refine .inl ⟨hr, ?_, h3.overlay.move hfree hnode⟩
      rw [hnode, if_neg, if_pos rfl]
      intro heq
      rw [heq, hfree] at hhere
      cases hhere
    · rw [he] at hex
      cases hex
      exact .inr ⟨_, rfl, rfl⟩
  rcases hcases with ⟨rfl, hgone, hov⟩ | ⟨e, rfl, rfl⟩
  · have hmoved : ∀ b, Anchored root base (pre ++ { f with rel := final } :: post) w3
        { u3 with disk := d', dirSyncFailed := b } := fun b => ⟨h3.root_eq, hov⟩
    refine spec_fs fun c hc' r d2 hex => ?_
    cases hex
    by_cases hfail : c.fail = true
    · simp only [hfail, if_true]
      exact spec_ret ⟨honly3.1, by simp,
        fun _ _ => .inr ⟨by simp [isSyncDir], h3.root_eq, hgone⟩⟩
    simp only [hfail, Bool.false_eq_true, if_false]
    refine spec_fs fun c' hc'' r d2 hex => ?_
    cases hex
    by_cases hfail' : c'.fail = true
    · simp only [hfail', if_true]
      exact spec_ret ⟨honly3.1, by simp,
        fun _ _ => .inr ⟨by simp [isSyncDir], h3.root_eq, hgone⟩⟩
    simp only [hfail', Bool.false_eq_true, if_false]
    exact spec_ret ⟨honly3.1, fun _ => ⟨by simpa [isSyncDir] using honly3.2, hc.2, hmoved _, hgone⟩,
      by simp⟩
  · exact spec_ret ⟨honly3.1, by simp, fun _ _ => .inl ⟨honly3.2, h3⟩⟩

end Work

end SectionWriter

end Tiramisu.Library
