import Tiramisu.Library.Interleaving

/-!
# Removals among other requests

A removal keeps its side of `audioParties` from its first operation to its
last, because it deletes by name only where it holds a claim.
-/

namespace Tiramisu.Library

open Protocol Program SectionWriter List
open Metadb (AudioPath AudioProjection AudioSection Registry RelPath)

/-- Request `pid` among `reqs` keeps what the others count on, and ends in `Q`. -/
abbrev Runs {α : Type} (streamURL : String → ℤ → String) (reqs : List Transaction) (pid : ℕ)
    (p : Prog α) (Q : α → Shared → Prop) (W : Shared) : Prop :=
  wp ((audioSystem streamURL).machine pid) ((audioParties streamURL reqs).contract pid) Q p W

variable {streamURL : String → ℤ → String} {reqs : List Transaction} {pid : ℕ} {W : Shared}

section Rules

variable {α : Type} {Q : α → Shared → Prop}

lemma runs_fs {undo : Bool} {call : FsCall} {f : call.Res → Prog α}
    (h : ∀ V, Rely reqs pid W V → SharedInv streamURL V → ∀ c r d' b,
      call.exec c V.world.disk = some (r, d') →
      StepKeeps streamURL reqs pid V { V.world with disk := d', dirSyncFailed := b } ∧
      Runs streamURL reqs pid (f r) Q
        (V.after pid (.fs undo call) r { V.world with disk := d', dirSyncFailed := b })) :
    Runs streamURL reqs pid (fs undo call >>= f) Q W := by
  intro V hrely hinv c _ r u hex
  obtain ⟨⟨r1, w'⟩, hm, heq⟩ := Option.map_eq_some_iff.mp hex
  obtain ⟨d', hcall, rfl⟩ := exec_fs hm
  obtain ⟨rfl, rfl⟩ := Prod.mk.inj heq
  obtain ⟨hstep, hrest⟩ := h V hrely hinv c r1 d' _ hcall
  obtain ⟨hinv', hguar⟩ := hstep.after (o := .fs undo call) (r := r1) hinv (forall_mem_nil _)
  exact ⟨hinv', hguar, hrest⟩

lemma runs_db {undo : Bool} {call : DbCall} {f : call.Res → Prog α}
    (h : ∀ V, Rely reqs pid W V → SharedInv streamURL V → ∀ c,
      claimRespected (.db undo call) c V →
      StepKeeps streamURL reqs pid V { V.world with db := (call.exec c V.world.db).2 } ∧
      (∀ k ∈ claimed (.db undo call) (call.exec c V.world.db).1, VisiblePath k.virtualPath ∧
        ∀ s, (call.exec c V.world.db).2.row k = some s → s.state = .removing) ∧
      Runs streamURL reqs pid (f (call.exec c V.world.db).1) Q
        (V.after pid (.db undo call) (call.exec c V.world.db).1
          { V.world with db := (call.exec c V.world.db).2 })) :
    Runs streamURL reqs pid (db undo call >>= f) Q W := by
  intro V hrely hinv c hok r u hex
  cases hex
  obtain ⟨hstep, hnew, hrest⟩ := h V hrely hinv c hok
  obtain ⟨hinv', hguar⟩ := hstep.after (o := .db undo call) hinv hnew
  exact ⟨hinv', hguar, hrest⟩

/-- A step that neither takes nor gives up a claim. -/
lemma StepKeeps.after_eq {w' : World} (hw : StepKeeps streamURL reqs pid W w')
    (h : SharedInv streamURL W) {o : Op} {r : o.Res} (hclaimed : claimed o r = [])
    (hreleased : released o r = []) : W.after pid o r w' = { W with world := w' } := by
  have hstray := (hw.after (o := o) (r := r) h (by simp [hclaimed])).1.no_stray
  rw [← h.no_stray] at hstray
  have hclaims : (W.after pid o r w').claims = W.claims := by
    simp [Shared.after, hw.observe_eq h, hclaimed, hreleased]
  cases W
  exact congrArg₂ (Shared.mk w') hclaims hstray

/-- A program of file calls each of which keeps `I`. -/
lemma runs_of_uses {F : Footprint} {R : α → Prop} {I : Shared → Prop} {p : Prog α}
    (hp : p.Uses (Op.In F) R) (hstmt : ∀ call, ¬F.stmt call)
    (hrely : ∀ {V V'}, I V → Rely reqs pid V V' → I V')
    (hfs : ∀ V (call : FsCall) c r d' b, SharedInv streamURL V → I V → call.In F →
      call.exec c V.world.disk = some (r, d') →
      StepKeeps streamURL reqs pid V { V.world with disk := d', dirSyncFailed := b } ∧
        I { V with world := { V.world with disk := d', dirSyncFailed := b } }) (hW : I W) :
    Runs streamURL reqs pid p (fun a V => R a ∧ I V) W := by
  refine wp_of_uses hp (fun v v' hI hr _ => hrely hI hr) (fun o c v r u hin _ hinv hI hex => ?_) hW
  obtain ⟨⟨r1, w'⟩, hm, heq⟩ := Option.map_eq_some_iff.mp hex
  obtain ⟨rfl, rfl⟩ := Prod.mk.inj heq
  cases o with
  | fs undo call =>
    obtain ⟨d', hcall, rfl⟩ := exec_fs hm
    obtain ⟨hstep, hI'⟩ := hfs v call c r1 d'
      (v.world.dirSyncFailed || call.isSyncDir && c.fail) hinv hI hin hcall
    obtain ⟨hinv', hguar⟩ := hstep.after (o := .fs undo call) (r := r1) hinv (forall_mem_nil _)
    refine ⟨hinv', hguar, ?_⟩
    rw [hstep.after_eq hinv rfl rfl]
    exact hI'
  | db undo call => exact absurd hin (hstmt call)
  | render row =>
    obtain ⟨-, rfl⟩ := Prod.mk.inj (Option.some.inj hm)
    have hstep : StepKeeps streamURL reqs pid v v.world := .refl hinv
    obtain ⟨hinv', hguar⟩ := hstep.after (o := .render row) (r := r1) hinv (forall_mem_nil _)
    refine ⟨hinv', hguar, ?_⟩
    rw [hstep.after_eq hinv rfl rfl]
    exact hI

lemma runs_ret {a : α} : Runs streamURL reqs pid (.ret a) (fun _ _ => True) W :=
  fun _ _ _ => trivial

end Rules

/-! ### Removals -/

section Removal

variable {α : Type} {K : AudioPath → Prop} {sec : AudioSection} {virtualPath : RelPath}

lemma StepKeeps.claims_after {w' : World} (hw : StepKeeps streamURL reqs pid W w')
    (h : SharedInv streamURL W) (hK : Claims pid K W) {o : Op} {r : o.Res}
    (hkeep : ∀ k, K k → k ∉ released o r) : Claims pid K (W.after pid o r w') := by
  intro k hk
  obtain ⟨x, hx, hpid, rfl⟩ := hK k hk
  refine ⟨x, ?_, hpid, rfl⟩
  simp only [Shared.after, hw.observe_eq h]
  refine mem_append_left _ (mem_filter.mpr ⟨hx, ?_⟩)
  simp [hkeep _ hk]

lemma claims_of_claimed {w' : World} {o : Op} {r : o.Res} (h : ∀ k, K k → k ∈ claimed o r) :
    Claims pid K (W.after pid o r w') := by
  intro k hk
  exact ⟨⟨pid, k, false, false⟩, mem_append_right _ (mem_map_of_mem (h k hk)), rfl, rfl⟩

/-- File calls at claimed paths keep the claims. -/
lemma runs_of_claims {R : α → Prop} {p : Prog α} (hp : p.Uses (Op.In (claimFootprint K)) R)
    (hK : Claims pid K W) :
    Runs streamURL reqs pid p (fun a V => R a ∧ Claims pid K V) W :=
  runs_of_uses hp (fun _ => id) (fun hI hr => hI.rely hr)
    (fun _ _ _ _ _ b hinv hI hin hex => ⟨stepKeeps_claim_fs hinv hI hin hex b, hI⟩) hK

/-- A removal's count of what else refers to the torrent. -/
lemma runs_byHash {hash : String} {f : Except DbError (List AudioProjection) → Prog α}
    (h : ∀ r V, Runs streamURL reqs pid (f r) (fun _ _ => True) V) :
    Runs streamURL reqs pid (db false (.byHash hash) >>= f) (fun _ _ => True) W :=
  runs_db fun _ _ hinv _ _ => ⟨.refl hinv, forall_mem_nil _, h _ _⟩

/-- The delete gives up the claim on its path and keeps the others. -/
lemma runs_delete {f : Except DbError Unit → Prog α} (hK : Claims pid K W)
    (hk : K ⟨sec, virtualPath⟩)
    (h : ∀ r V, Claims pid (fun k => K k ∧ k ≠ ⟨sec, virtualPath⟩) V →
      Runs streamURL reqs pid (f r) (fun _ _ => True) V) :
    Runs streamURL reqs pid (db false (.delete sec virtualPath) >>= f) (fun _ _ => True) W := by
  refine runs_db fun V hrely hinv c _ => ?_
  have hK' : Claims pid K V := hK.rely hrely
  have hstep : StepKeeps streamURL reqs pid V
      { V.world with db := (DbCall.exec c V.world.db (.delete sec virtualPath)).2 } :=
    stepKeeps_delete hinv hK' hk c
  refine ⟨hstep, forall_mem_nil _, h _ _ (hstep.claims_after hinv (fun k hk => hK' k hk.1) ?_)⟩
  rintro k ⟨-, hne⟩ hmem
  simp only [released] at hmem
  split at hmem
  · exact hne (mem_singleton.mp hmem)
  · simp at hmem

lemma runs_forgetProjection {w : SectionWriter} {row : AudioProjection}
    (hK : Claims pid (fun k => k = ⟨sec, virtualPath⟩) W) :
    Runs streamURL reqs pid (forgetProjection w sec virtualPath row) (fun _ _ => True) W := by
  refine wp_then (runs_of_claims uses_pruneEmptyDirs hK) fun r V hV => ?_
  cases r with
  | error e => exact runs_ret
  | ok _ =>
    refine runs_delete hV.2 rfl fun r V _ => ?_
    cases r with
    | error e => exact runs_ret
    | ok _ =>
      refine runs_byHash fun r V => ?_
      cases r <;> exact runs_ret

lemma runs_finishRemoval {row : AudioProjection} (hrow : row.virtualPath = virtualPath)
    (hK : Claims pid (fun k => k = ⟨sec, virtualPath⟩) W) :
    Runs streamURL reqs pid (finishRemoval sec virtualPath row) (fun _ _ => True) W := by
  refine wp_then (runs_of_claims uses_openSectionWriter hK) fun r V hV => ?_
  cases r with
  | error e => exact runs_ret
  | ok w =>
  obtain rfl := hV.1 w rfl
  refine wp_then (runs_of_claims uses_identity hV.2) fun r V hV => ?_
  cases r with
  | error e =>
    dsimp only
    split_ifs
    · exact runs_forgetProjection hV.2
    · exact runs_ret
  | ok id =>
  have hunlink : (claimFootprint fun k => k = ⟨sec, virtualPath⟩).unlink
      ([sec.dirName] ++ row.virtualPath) := ⟨⟨sec, virtualPath⟩, rfl, by rw [hrow]; rfl⟩
  refine wp_then (runs_of_claims (uses_removeStagedIfIdentity hunlink) hV.2) fun r V hV => ?_
  rcases r with e | _ | _
  · exact runs_ret
  · refine wp_then (runs_of_claims uses_identity hV.2) fun r V hV => ?_
    cases r with
    | error e => exact runs_forgetProjection hV.2
    | ok _ =>
      refine runs_delete hV.2 rfl fun r V _ => ?_
      cases r <;> exact runs_ret
  · exact runs_forgetProjection hV.2

/-- A row that was not staged is in `removing` after a mark of its path. -/
lemma removing_of_marked {db : Registry} {paths : List RelPath} {t : ℤ}
    {s : AudioProjection} (hmem : virtualPath ∈ paths)
    (hstaged : ∀ r ∈ db.rows, r.path = ⟨sec, virtualPath⟩ → r.state ≠ .staged)
    (hs : (db.updateState (Registry.committedAt sec paths) .removing t).row ⟨sec, virtualPath⟩
      = some s) : s.state = .removing := by
  rw [Registry.row_updateState] at hs
  obtain ⟨r, hr, rfl⟩ := Option.map_eq_some_iff.mp hs
  obtain ⟨hrows, hpath⟩ := Registry.row_eq_some_iff.mp hr
  obtain ⟨rfl, rfl⟩ := AudioPath.mk.inj hpath
  split_ifs with hp
  · rfl
  cases hstate : r.state with
  | removing => rfl
  | staged => exact absurd hstate (hstaged r hrows rfl)
  | committed =>
    refine absurd ?_ hp
    simpa [Registry.committedAt, hstate] using hmem

lemma runs_removeAudio {now : ℤ} :
    Runs streamURL reqs pid (removeAudio sec virtualPath now) (fun _ _ => True) W := by
  refine runs_db fun V _ hinv c _ => ⟨.refl hinv, ?_, ?_⟩
  · -- the row the request finds in `removing` is claimed
    intro k hk
    simp only [DbCall.exec, claimed] at hk
    split_ifs at hk
    · simp at hk
    cases hget : V.world.db.getAudioProjection sec virtualPath with
    | none => simp [hget] at hk
    | some row =>
      simp only [hget] at hk
      split_ifs at hk with hst
      · obtain rfl := mem_singleton.mp hk
        obtain ⟨hmem, hkey⟩ := Registry.row_eq_some_iff.mp hget
        refine ⟨?_, fun s hs => ?_⟩
        · have := hinv.coherent.visible row hmem
          rwa [(AudioPath.mk.inj hkey).2] at this
        · cases hget.symm.trans hs
          exact hst
      · simp at hk
  simp only [DbCall.exec]
  split_ifs
  · exact runs_ret
  cases hget : V.world.db.getAudioProjection sec virtualPath with
  | none => exact runs_ret
  | some row =>
  obtain ⟨hmem, hkey⟩ := Registry.row_eq_some_iff.mp hget
  have hrow : row.virtualPath = virtualPath := (AudioPath.mk.inj hkey).2
  cases hst : row.state with
  | staged =>
    simp only [hst]
    exact runs_ret
  | removing =>
    simp only [hst]
    refine runs_finishRemoval hrow (claims_of_claimed ?_)
    rintro k rfl
    simp [claimed, hst]
  | committed =>
    simp only [hst]
    refine runs_db fun U _ hinv c _ => ?_
    simp only [DbCall.exec]
    split_ifs
    · exact ⟨.refl hinv, forall_mem_nil _, runs_ret⟩
    refine ⟨stepKeeps_mark hinv _ _ _, ?_, ?_⟩
    · intro k hk
      simp only [claimed] at hk
      split at hk
      · rename_i hmarked
        obtain rfl := mem_singleton.mp hk
        obtain ⟨r, hr, hcom⟩ := countP_pos_iff.mp
          (of_decide_eq_true (Except.ok.inj hmarked))
        simp only [Registry.committedAt, Bool.and_eq_true, decide_eq_true_eq,
          contains_cons, contains_nil, Bool.or_false, beq_iff_eq] at hcom
        obtain ⟨⟨rfl, hcom⟩, rfl⟩ := hcom
        refine ⟨hinv.coherent.visible r hr, fun s hs => removing_of_marked (by simp) ?_ hs⟩
        intro q hq hpath
        rw [Registry.eq_of_path_eq hq hr hpath, hcom]
        simp
      · simp at hk
    · cases hmarked : (U.world.db.markAudioProjectionRemoving sec virtualPath now).2 with
      | false => exact runs_ret
      | true =>
        refine runs_finishRemoval hrow (claims_of_claimed ?_)
        rintro k rfl
        simp [claimed]

/-- The loop of a prefix removal holds a claim on every row it has not come to. -/
lemma runs_removeRows {w : SectionWriter} {rows : List AudioProjection}
    (hroot : w.root = [sec.dirName]) (hsec : ∀ r ∈ rows, r.sec = sec)
    (hdistinct : rows.Pairwise fun r s => r.path ≠ s.path)
    (hK : Claims pid (fun k => ∃ r ∈ rows, r.path = k) W) :
    Runs streamURL reqs pid (removeRows w rows) (fun _ _ => True) W := by
  induction rows generalizing W with
  | nil => exact runs_ret
  | cons row rows ih =>
    have hunlink : (claimFootprint fun k => ∃ r ∈ row :: rows, r.path = k).unlink
        (w.root ++ row.virtualPath) := by
      refine ⟨row.path, ⟨row, by simp, rfl⟩, ?_⟩
      rw [hroot, ← hsec row (by simp)]
      rfl
    have hrow : (unlinkRow w row).Only
        (Op.In (claimFootprint fun k => ∃ r ∈ row :: rows, r.path = k)) := by
      refine uses_identity.bind fun r _ => ?_
      cases r with
      | error e => exact uses_done
      | ok id =>
        refine (uses_removeStagedIfIdentity hunlink).bind fun r _ => ?_
        cases r <;> exact uses_done
    refine wp_then (runs_of_claims hrow hK) fun unlinked V hV => ?_
    cases unlinked with
    | false => exact runs_ret
    | true =>
    refine wp_then (runs_of_claims uses_pruneEmptyDirs hV.2) fun r V hV => ?_
    cases r with
    | error e => exact runs_ret
    | ok _ =>
    refine runs_delete hV.2 ⟨row, by simp, rfl⟩ fun r V hV => ?_
    cases r with
    | error e => exact runs_ret
    | ok _ =>
      obtain ⟨hhead, htail⟩ := pairwise_cons.mp hdistinct
      refine ih (fun r hr => hsec r (by simp [hr])) htail ?_
      rintro k ⟨r, hr, rfl⟩
      exact hV r.path ⟨⟨r, by simp [hr], rfl⟩, Ne.symm (hhead r hr)⟩

lemma runs_removeAudioPrefix {pre : RelPath} {now : ℤ} :
    Runs streamURL reqs pid (removeAudioPrefix sec pre now) (fun _ _ => True) W := by
  refine runs_db fun V _ hinv c _ => ⟨.refl hinv, forall_mem_nil _, ?_⟩
  simp only [DbCall.exec]
  split_ifs
  · exact runs_ret
  cases hlist : V.world.db.audioProjectionsByPrefix sec pre with
  | nil => exact runs_ret
  | cons row rows =>
  dsimp only
  split_ifs
  · exact runs_ret
  have hlisted : ∀ r ∈ row :: rows, VisiblePath r.virtualPath ∧ r.sec = sec := by
    intro r hr
    rw [← hlist] at hr
    have := mem_filter.mp hr
    simp only [Bool.and_eq_true, Bool.or_eq_true, decide_eq_true_eq] at this
    exact ⟨hinv.coherent.visible r this.1, this.2.1.1⟩
  have hdistinct : (row :: rows).Pairwise fun r s => r.path ≠ s.path := by
    rw [← hlist]
    exact (V.world.db.unique.filter _).imp fun h => h.path_ne
  refine runs_db fun U _ hinv c hok => ?_
  simp only [DbCall.exec]
  split_ifs
  · exact ⟨.refl hinv, forall_mem_nil _, runs_ret⟩
  refine ⟨stepKeeps_mark hinv _ _ _, ?_, ?_⟩
  · intro k hk
    obtain ⟨p, hp, rfl⟩ := mem_map.mp hk
    obtain ⟨r, hr, rfl⟩ := mem_map.mp hp
    refine ⟨(hlisted r hr).1, fun s hs => removing_of_marked hp (fun q hq hpath hst => ?_) hs⟩
    obtain ⟨hsec, hvirtual⟩ := AudioPath.mk.inj hpath
    exact hok q hq hst hsec (hvirtual ▸ hp)
  · have hK : Claims pid (fun k => ∃ r ∈ row :: rows, r.path = k) (U.after pid
        (.db false (.markPaths sec ((row :: rows).map (·.virtualPath)) now))
        (.ok (U.world.db.markAudioProjectionsRemovingPaths sec
          ((row :: rows).map (·.virtualPath)) now).2)
        { U.world with db := (U.world.db.markAudioProjectionsRemovingPaths sec
          ((row :: rows).map (·.virtualPath)) now).1 }) := by
      refine claims_of_claimed ?_
      rintro k ⟨r, hr, rfl⟩
      refine mem_map.mpr ⟨r.virtualPath, mem_map_of_mem hr, ?_⟩
      rw [← (hlisted r hr).2]
      rfl
    refine wp_then (runs_of_claims uses_openSectionWriter hK) fun r V hV => ?_
    cases r with
    | error e => exact runs_ret
    | ok w =>
    obtain rfl := hV.1 w rfl
    refine wp_then (runs_removeRows rfl (fun r hr => (hlisted r hr).2) hdistinct hV.2)
      fun finished V _ => ?_
    cases finished with
    | false => exact runs_ret
    | true =>
      refine runs_byHash fun r V => ?_
      cases r <;> exact runs_ret

end Removal

end Tiramisu.Library
