import Tiramisu.Library.Footprint

/-!
# Registry and disk agree

`Coherent` relates the state of a row to what its two names may hold: a
committed row has its stub at its virtual path, and a row past staging has
nothing at its staging name.  It is kept by every file call within the
footprint of a request and by every registry statement but the commit, whose
case needs the published files.
-/

namespace Tiramisu.Library

open Posix Protocol List Option
open Metadb (AudioPath AudioProjection AudioSection Registry)

def diskPath (k : AudioPath) : Path := k.sec.dirName :: k.virtualPath

def stagingFile (r : AudioProjection) : Path := r.sec.dirName :: stagingRelPath r

/-- The last component of a path is hidden. -/
def leafHidden (p : Path) : Bool := hidden (p.getLast?.getD "")

lemma dirName_injective : Function.Injective AudioSection.dirName := by
  intro a b h
  cases a <;> cases b <;> first | rfl | exact absurd h (by decide)

lemma diskPath_injective : Function.Injective diskPath := by
  rintro ⟨s, p⟩ ⟨t, q⟩ h
  obtain ⟨hs, hp⟩ := cons.inj h
  rw [AudioPath.mk.injEq]
  exact ⟨dirName_injective hs, hp⟩

lemma leafHidden_diskPath {k : AudioPath} (h : VisiblePath k.virtualPath) :
    leafHidden (diskPath k) = false := by
  obtain ⟨hne, hvis⟩ := h
  have hlast : (diskPath k).getLast? = some (k.virtualPath.getLast hne) := by
    rw [diskPath, getLast?_cons, getLast?_eq_some_getLast hne]
    rfl
  rw [leafHidden, hlast]
  exact (hvis _ (getLast_mem hne)).2

lemma hidden_stagingName (txnID : String) (i : ℕ) : hidden (stagingName txnID i) = true := by
  simp [hidden, stagingName, String.toList_append]

lemma leafHidden_append (p : Path) (leaf : String) : leafHidden (p ++ [leaf]) = hidden leaf := by
  simp [leafHidden]

lemma leafHidden_stagingFile {r : AudioProjection} {txnID : String} {i : ℕ}
    (h : r.stagingName = stagingName txnID i) : leafHidden (stagingFile r) = true := by
  have hfile : stagingFile r = (r.sec.dirName :: r.virtualPath.dropLast) ++ [r.stagingName] := by
    simp [stagingFile, stagingRelPath]
  rw [hfile, leafHidden_append, h, hidden_stagingName]

/-- Ids of one length: a staging name tells its transaction. -/
lemma txnID_of_stagingName {t u : String} {i j : ℕ} (ht : t.length = 24) (hu : u.length = 24)
    (h : stagingName t i = stagingName u j) : t = u := by
  have hlist := congrArg String.toList h
  simp only [stagingName, String.toList_append, append_assoc, append_cancel_left_eq]
    at hlist
  have hlen : t.toList.length = u.toList.length := by
    rw [String.length_toList, String.length_toList, ht, hu]
  exact String.toList_inj.mp (append_inj hlist hlen).1

/-! ### What one file call does to one path -/

/-- Within its footprint a call leaves a path alone, makes a directory or a
file where there was nothing, rewrites a file, unlinks, removes an empty
directory, or moves an object from or to the path. -/
lemma FsCall.node_cases {F : Footprint} {c : Choice} {d d' : Disk Content} {call : FsCall}
    {r : call.Res} (hin : call.In F) (hex : call.exec c d = some (r, d')) (q : Path) :
    d'.node q = d.node q ∨
    (F.mkdir q ∧ d.node q = none ∧ ∃ ino, d'.node q = some (.dir ino)) ∨
    (F.put q ∧ (d.node q = none ∨ ∃ ino old new, d.node q = some (.file ino old) ∧
      d'.node q = some (.file ino new))) ∨
    (F.unlink q ∧ d'.node q = none) ∨
    ((∃ ino, d.node q = some (.dir ino)) ∧ d'.node q = none) ∨
    (∃ p, F.move p q ∧ d.node q = none) ∨
    (∃ p, F.move q p ∧ d'.node q = none) := by
  cases call with
  | openDir root rel | syncFile fd | fstat fd | statAt fd leaf | syncDir fd =>
    simp only [exec, some.injEq, Prod.mk.injEq] at hex
    exact .inl (by rw [hex.2])
  | mkdirAt fd leaf =>
    simp only [exec] at hex
    split_ifs at hex
    · simp only [some.injEq, Prod.mk.injEq] at hex
      exact .inl (by rw [hex.2])
    rcases Disk.mkdirAt_eq_some hex with ⟨-, hcreate⟩ | ⟨e, -, rfl⟩
    · obtain ⟨-, hnone, -, -, hnode⟩ := Disk.create_eq_some hcreate
      by_cases hq : q = fd.path ++ [leaf]
      · subst hq
        exact .inr (.inl ⟨hin, hnone, _, by rw [hnode, if_pos rfl]⟩)
      · exact .inl (by rw [hnode, if_neg hq])
    · exact .inl rfl
  | createExcl fd leaf =>
    rcases createExcl_cases hex with ⟨born, -, hcreate⟩ | ⟨e, -, rfl⟩
    · obtain ⟨-, hnone, -, -, hnode⟩ := Disk.create_eq_some hcreate
      by_cases hq : q = fd.path ++ [leaf]
      · subst hq
        exact .inr (.inr (.inl ⟨hin, .inl hnone⟩))
      · exact .inl (by rw [hnode, if_neg hq])
    · exact .inl rfl
  | write fd data =>
    have hd : ∃ new, d' = d.write fd new := by
      simp only [exec, some.injEq] at hex
      split_ifs at hex
      · exact ⟨c.torn, (congrArg Prod.snd hex).symm⟩
      · exact ⟨data, (congrArg Prod.snd hex).symm⟩
    obtain ⟨new, rfl⟩ := hd
    rcases Disk.node_write d fd new q with h | ⟨rfl, ⟨old, ho⟩, hn⟩
    · exact .inl h
    · exact .inr (.inr (.inl ⟨hin, .inr ⟨_, _, _, ho, hn⟩⟩))
  | unlinkAt fd leaf =>
    simp only [exec, some.injEq] at hex
    split_ifs at hex
    · cases hex
      exact .inl rfl
    rcases Disk.unlinkAt_cases d fd leaf with
      ⟨n, -, -, -, -, hnode⟩ | ⟨e, he, -⟩
    · have hd : d' = (d.unlinkAt fd leaf).2 := (congrArg Prod.snd hex).symm
      by_cases hq : q = fd.path ++ [leaf]
      · subst hq
        exact .inr (.inr (.inr (.inl ⟨hin, by rw [hd, hnode, if_pos rfl]⟩)))
      · exact .inl (by rw [hd, hnode, if_neg hq])
    · rw [he] at hex
      cases hex
      exact .inl rfl
  | rmdirAt fd leaf =>
    simp only [exec, some.injEq] at hex
    split_ifs at hex
    · cases hex
      exact .inl rfl
    rcases Disk.rmdirAt_cases d fd leaf with
      ⟨ino, -, hdir, -, -, hnode⟩ | ⟨e, he⟩
    · have hd : d' = (d.rmdirAt fd leaf).2 := (congrArg Prod.snd hex).symm
      by_cases hq : q = fd.path ++ [leaf]
      · subst hq
        exact .inr (.inr (.inr (.inr (.inl
          ⟨⟨ino, hdir⟩, by rw [hd, hnode, if_pos rfl]⟩))))
      · exact .inl (by rw [hd, hnode, if_neg hq])
    · rw [he] at hex
      cases hex
      exact .inl rfl
  | renameNoReplace fd leaf fd' leaf' =>
    simp only [exec, some.injEq] at hex
    split_ifs at hex
    · cases hex
      exact .inl rfl
    rcases Disk.renameNoReplace_cases d fd leaf fd' leaf' with
      ⟨n, -, -, hfree, -, hnode⟩ | ⟨e, he⟩
    · have hd : d' = (d.renameNoReplace fd leaf fd' leaf').2 := (congrArg Prod.snd hex).symm
      by_cases hq : q = fd'.path ++ [leaf']
      · subst hq
        exact .inr (.inr (.inr (.inr (.inr (.inl ⟨_, hin, hfree⟩)))))
      by_cases hq' : q = fd.path ++ [leaf]
      · subst hq'
        exact .inr (.inr (.inr (.inr (.inr (.inr
          ⟨_, hin, by rw [hd, hnode, if_neg hq, if_pos rfl]⟩)))))
      · exact .inl (by rw [hd, hnode, if_neg hq, if_neg hq'])
    · rw [he] at hex
      cases hex
      exact .inl rfl

/-! ### The invariant -/

structure Coherent (streamURL : String → ℤ → String) (w : World) : Prop where
  visible : ∀ r ∈ w.db.rows, VisiblePath r.virtualPath
  named : ∀ r ∈ w.db.rows, r.txnID.length = 24 ∧ ∃ i, r.stagingName = stagingName r.txnID i
  stub : ∀ r ∈ w.db.rows, r.state = .committed →
    ∃ ino, w.disk.node (diskPath r.path) = some (.file ino (audioStub streamURL r))
  settled : ∀ r ∈ w.db.rows, r.state ≠ .staged → w.disk.node (stagingFile r) = none

/-- The statements that neither add a row nor commit one. -/
def DbCall.Shrinks : DbCall → Prop
  | .stage _ _ | .commit _ _ => False
  | _ => True

/-- The footprint of a request that holds the paths in `K` and stages files at
the names in `put`. -/
def requestFootprint (K : AudioPath → Prop) (put : Path → Prop) : Footprint where
  mkdir p := leafHidden p = false
  put := put
  unlink p := leafHidden p = true ∨ ∃ k, K k ∧ p = diskPath k
  move p q := leafHidden p = true ∧ ∃ k, K k ∧ q = diskPath k
  stmt := DbCall.Shrinks

/-- No committed row has a path in `K`, paths in `K` are visible, and a name in
`put` is hidden and of no row past staging. -/
structure Holds (K : AudioPath → Prop) (put : Path → Prop) (w : World) : Prop where
  uncommitted : ∀ s ∈ w.db.rows, K s.path → s.state ≠ .committed
  visible : ∀ k, K k → VisiblePath k.virtualPath
  hidden : ∀ p, put p → leafHidden p = true
  free : ∀ p, put p → ∀ s ∈ w.db.rows, s.state ≠ .staged → p ≠ stagingFile s

section Preservation

variable {streamURL : String → ℤ → String} {w : World} {K : AudioPath → Prop} {put : Path → Prop}

lemma Coherent.fs {c : Choice} {d' : Disk Content} {call : FsCall} {r : call.Res} {b : Bool}
    (h : Coherent streamURL w) (hK : Holds K put w) (hin : call.In (requestFootprint K put))
    (hex : call.exec c w.disk = some (r, d')) :
    Coherent streamURL { w with disk := d', dirSyncFailed := b } := by
  refine ⟨h.visible, h.named, fun r hr hcom => ?_, fun r hr hst => ?_⟩
  · obtain ⟨ino, hino⟩ := h.stub r hr hcom
    have hvis : leafHidden (diskPath r.path) = false := leafHidden_diskPath (h.visible r hr)
    refine ⟨ino, ?_⟩
    rcases call.node_cases hin hex (diskPath r.path) with
      hsame | ⟨-, hnone, -⟩ | ⟨hput, -⟩ | ⟨hunlink, -⟩ | ⟨⟨i, hdir⟩, -⟩ | ⟨p, -, hnone⟩ | ⟨p, hmove, -⟩
    · exact hsame.trans hino
    · simp [hino] at hnone
    · simp [hK.hidden _ hput] at hvis
    · rcases hunlink with hhid | ⟨k, hk, heq⟩
      · simp [hhid] at hvis
      · exact absurd hcom (hK.uncommitted r hr (diskPath_injective heq ▸ hk))
    · simp [hino] at hdir
    · simp [hino] at hnone
    · simp [hmove.1] at hvis
  · have hnone := h.settled r hr hst
    obtain ⟨-, i, hname⟩ := h.named r hr
    have hhid : leafHidden (stagingFile r) = true := leafHidden_stagingFile hname
    rcases call.node_cases hin hex (stagingFile r) with
      hsame | ⟨hmk, -⟩ | ⟨hput, -⟩ | ⟨-, hgone⟩ | ⟨-, hgone⟩ | ⟨p, hmove, -⟩ | ⟨p, -, hgone⟩
    · exact hsame.trans hnone
    · cases hmk.symm.trans hhid
    · exact absurd rfl (hK.free _ hput r hr hst)
    · exact hgone
    · exact hgone
    · obtain ⟨-, k, hk, heq⟩ := hmove
      rw [heq, leafHidden_diskPath (hK.visible k hk)] at hhid
      simp at hhid
    · exact hgone

/-- The rows after a statement that neither stages nor commits: rows of before,
some of them marked for removal. -/
lemma DbCall.mem_exec {c : Choice} {db : Registry} {call : DbCall} (hcall : call.Shrinks)
    {r : AudioProjection} (hr : r ∈ (call.exec c db).2.rows) :
    r ∈ db.rows ∨ ∃ s ∈ db.rows, s.state = .committed ∧ ∃ t, r = s.withState .removing t := by
  have hmark : ∀ sec paths t, r ∈ (db.updateState (Registry.committedAt sec paths) .removing t).rows →
      r ∈ db.rows ∨ ∃ s ∈ db.rows, s.state = .committed ∧ ∃ t, r = s.withState .removing t := by
    intro sec paths t hmem
    obtain ⟨s, hs, rfl⟩ := mem_map.mp hmem
    split_ifs with hp
    · refine .inr ⟨s, hs, ?_, t, rfl⟩
      simp only [Registry.committedAt, Bool.and_eq_true, decide_eq_true_eq] at hp
      exact hp.1.2
    · exact .inl hs
  cases call with
  | get | byPrefix | byState | byHash => exact .inl hr
  | stage | commit => exact hcall.elim
  | rollback | delete =>
    simp only [exec] at hr
    split_ifs at hr
    · exact .inl hr
    · exact .inl (mem_of_mem_filter hr)
  | mark | markPaths =>
    simp only [exec] at hr
    split_ifs at hr
    · exact .inl hr
    · exact hmark _ _ _ hr

lemma Coherent.db {c : Choice} {call : DbCall} (h : Coherent streamURL w) (hcall : call.Shrinks) :
    Coherent streamURL { w with db := (call.exec c w.db).2 } := by
  refine ⟨fun r hr => ?_, fun r hr => ?_, fun r hr hcom => ?_, fun r hr hst => ?_⟩
  · rcases DbCall.mem_exec hcall hr with hr | ⟨s, hs, -, t, rfl⟩
    · exact h.visible r hr
    · exact h.visible s hs
  · rcases DbCall.mem_exec hcall hr with hr | ⟨s, hs, -, t, rfl⟩
    · exact h.named r hr
    · exact h.named s hs
  · rcases DbCall.mem_exec hcall hr with hr | ⟨s, hs, -, t, rfl⟩
    · exact h.stub r hr hcom
    · exact absurd hcom (by simp [AudioProjection.withState])
  · rcases DbCall.mem_exec hcall hr with hr | ⟨s, hs, hcom, t, rfl⟩
    · exact h.settled r hr hst
    · exact h.settled s hs (by simp [hcom])

lemma Holds.db {c : Choice} {call : DbCall} (h : Holds K put w) (hcall : call.Shrinks) :
    Holds K put { w with db := (call.exec c w.db).2 } := by
  refine ⟨fun r hr hk => ?_, h.visible, h.hidden, fun p hp r hr hst => ?_⟩
  · rcases DbCall.mem_exec hcall hr with hr | ⟨s, hs, -, t, rfl⟩
    · exact h.uncommitted r hr hk
    · simp [AudioProjection.withState]
  · rcases DbCall.mem_exec hcall hr with hr | ⟨s, hs, hcom, t, rfl⟩
    · exact h.free p hp r hr hst
    · exact h.free p hp s hs (by simp [hcom])

/-- Every operation of a request that holds its paths keeps registry and disk coherent. -/
lemma Coherent.step {o : Op} {c : Choice} {r : o.Res} {u : World} (h : Coherent streamURL w)
    (hK : Holds K put w) (hin : o.In (requestFootprint K put))
    (hex : (machine streamURL).exec o c w = some (r, u)) :
    Coherent streamURL u ∧ Holds K put u := by
  cases o with
  | fs undo call =>
    obtain ⟨d', hcall, rfl⟩ := exec_fs hex
    exact ⟨h.fs hK hin hcall, ⟨hK.uncommitted, hK.visible, hK.hidden, hK.free⟩⟩
  | db undo call =>
    cases hex
    exact ⟨h.db hin, hK.db hin⟩
  | render row =>
    cases hex
    exact ⟨h, hK⟩

end Preservation

end Tiramisu.Library
