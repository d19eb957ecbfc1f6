import Tiramisu.Library.ConcurrentAdd

/-!
# Every interleaving of adds and removals

Each request keeps its side of `audioParties`, so what they promise each other
holds in every state of every run whose moves respect the claims.  A request
that runs alone meets no claim but its own.
-/

namespace Tiramisu.Library

open Posix Protocol Program SectionWriter Transition
open Metadb (AudioSection Registry RelPath)

variable {streamURL : String → ℤ → String} {reqs : List Transaction} {pid : ℕ} {W : Shared}
  {w w' : World}

lemma sharedInv_unclaimed (hw : Coherent streamURL w) : SharedInv streamURL ⟨w, [], false⟩ :=
  ⟨hw, by simp, by simp, by simp, rfl⟩

/-! ### One request at a time -/

section Alone

variable {ok : Op → Choice → World → Prop}

/-- A request that keeps its side among others keeps registry and disk coherent when it runs
alone, if its operations respect the claims there. -/
lemma keeps_of_runs {α : Type} {Q : α → Shared → Prop} {A : Op → Prop} {R : α → Prop}
    {J : Shared → Prop} {p : Prog α} (hp : p.Uses A R)
    (hok : ∀ o c V, A o → J V → claimRespected o c V)
    (hstep : ∀ o V r w, A o → J V → J (V.after pid o r w)) (hJ : J W)
    (hinv : SharedInv streamURL W) (h : Runs streamURL reqs pid p Q W) :
    Keeps streamURL ok p (fun _ _ => True) W.world := by
  induction p generalizing W with
  | ret a => exact wp_alone_done
  | perform o k ih =>
    refine wp_alone_perform fun c _ r u hex => ?_
    have hmove : ((audioSystem streamURL).machine pid).exec o c W
        = some (r, W.after pid o r u) := by simp [audioSystem, hex]
    obtain ⟨hinv', -, hrest⟩ := h W (.refl reqs pid W) hinv c (hok o c W hp.1 hJ) r _ hmove
    exact ⟨hinv'.coherent, ih r (hp.2 r) (hstep o W r u hp.1 hJ) hinv' hrest⟩

lemma keeps_removeAudio {sec : AudioSection} {virtualPath : RelPath} {now : ℤ}
    (hw : Coherent streamURL w) :
    Keeps streamURL ok (removeAudio sec virtualPath now) (fun _ _ => True) w := by
  have hruns : Runs streamURL [] 0 (removeAudio sec virtualPath now) (fun _ _ => True)
      ⟨w, [], false⟩ := runs_removeAudio
  refine keeps_of_runs (J := fun _ => True) uses_removeAudio (fun o c V ho _ => ?_)
    (fun _ _ _ _ _ _ => trivial) trivial (sharedInv_unclaimed hw) hruns
  rcases o with ⟨undo, call⟩ | ⟨undo, call⟩ | row
  · trivial
  · cases call with
    | stage | markPaths => exact ho.elim
    | get | commit | rollback | mark | byPrefix | byState | byHash | delete => trivial
  · trivial

/-- An add claims no path. -/
lemma keeps_addAudio {S : LongestFirst} {req : AddRequest} (hw : Coherent streamURL w)
    (hfresh : ∀ r ∈ w.db.rows, r.txnID ≠ req.txnID) :
    Keeps streamURL ok (addAudio S req) (fun _ _ => True) w := by
  have hdis : DistinctTxns [.add S req] := by
    intro i j _ _ _ _ hij hi hj
    have hi := (List.getElem?_eq_some_iff.mp hi).1
    have hj := (List.getElem?_eq_some_iff.mp hj).1
    simp only [List.length_singleton] at hi hj
    omega
  have hruns : Runs streamURL [.add S req] 0 (addAudio S req) (fun _ _ => True)
      ⟨w, [], false⟩ := runs_addAudio hdis rfl hfresh
  refine keeps_of_runs (J := fun V => V.claims = []) uses_addAudio (fun o c V ho hV => ?_)
    (fun o V r u ho hV => ?_) rfl (sharedInv_unclaimed hw) hruns
  · rcases o with ⟨undo, call⟩ | ⟨undo, call⟩ | row
    · trivial
    · cases call with
      | stage => exact fun x hx => by simp [hV] at hx
      | commit | rollback => trivial
      | get | mark | markPaths | byPrefix | byState | byHash | delete => exact ho.elim
    · trivial
  · have hclaims : (V.after 0 o r u).claims
        = (claimed o r).map fun k => ⟨0, k, false, false⟩ := by simp [Shared.after, hV]
    rw [hclaims]
    rcases o with ⟨undo, call⟩ | ⟨undo, call⟩ | row
    · rfl
    · cases call with
      | stage | commit | rollback => rfl
      | get | mark | markPaths | byPrefix | byState | byHash | delete => exact ho.elim
    · rfl

lemma keeps_transaction {t : Transaction} (hw : Coherent streamURL w)
    (hfresh : t.Fresh w) : Keeps streamURL ok t.prog (fun _ _ => True) w := by
  cases t with
  | add S req =>
    exact wp_then (keeps_addAudio hw hfresh) fun _ _ _ => wp_alone_done
  | remove sec virtualPath now =>
    exact wp_then (keeps_removeAudio hw) fun _ _ _ => wp_alone_done
  | removePrefix sec pre now =>
    exact wp_then (keeps_removeAudioPrefix hw) fun _ _ _ => wp_alone_done
  | recover =>
    exact wp_then (keeps_recoverAudio hw) fun _ _ _ => wp_alone_done

lemma coherent_of_interrupted {t : Transaction} (hw : Coherent streamURL w)
    (h : interrupted streamURL w t w') : Coherent streamURL w' := by
  obtain ⟨hfresh, q, hsteps⟩ := h
  exact (hsteps.sound (keeps_transaction hw hfresh) hw).1

end Alone

/-- After any history of adds, removals and recoveries cut off anywhere, a
recovery that reports no error leaves the committed rows, each with its stub,
and nothing at either name of any other row. -/
theorem recovery_settles_interrupted_history {d : Disk Content} {ts : List Transaction}
    {w w' : World} (hist : Run (interrupted streamURL) ⟨Registry.empty, d, false⟩ ts w)
    (hrec : Steps (machine streamURL) (fun _ _ _ => True) recoverAudio w (.ret true) w') :
    (∀ r ∈ w'.db.rows, r.state = .committed ∧
      ∃ ino, w'.disk.node (diskPath r.path) = some (.file ino (audioStub streamURL r))) ∧
    (∀ r ∈ w.db.rows, r.state = .committed → r ∈ w'.db.rows) ∧
    ∀ r ∈ w.db.rows, r.state ≠ .committed →
      w'.disk.node (diskPath r.path) = none ∧ w'.disk.node (stagingFile r) = none := by
  have hw : Coherent streamURL w :=
    hist.invariant (fun s t s' hs hstep => coherent_of_interrupted hs hstep) (coherent_empty d)
  have hset : Settled w w' := steps_spec hrec spec_recoverAudio rfl
  exact hset.rows_and_names hw (hrec.sound (keeps_recoverAudio hw) hw).1

/-- The add of one track, cut off after its first `n` operations. -/
def cutAdd (n : ℕ) : World :=
  (runAlone (machine gostormURL) (fun _ _ _ => True) (smooth n)
    (Transaction.add .insertion introRequest).prog ⟨Registry.empty, musicDisk, false⟩).2

/-- An add cut off after writing its staging file, then a recovery. -/
theorem recovery_settles_cut_add :
    (cutAdd 13).db.rows = introRequest.rows ∧
    (∃ ino, (cutAdd 13).disk.node (stagingFile (introRequest.row introPlan 0))
      = some (.file ino (audioStub gostormURL (introRequest.row introPlan 0)))) ∧
    (recovered (cutAdd 13)).1.result? = some true ∧
    (recovered (cutAdd 13)).2.disk.node (stagingFile (introRequest.row introPlan 0)) = none := by
  refine ⟨by decide, ⟨111, by decide⟩, by decide, ?_⟩
  have hist : Run (interrupted gostormURL) ⟨Registry.empty, musicDisk, false⟩
      [.add .insertion introRequest] (cutAdd 13) :=
    .cons ⟨by simp [Transaction.Fresh, Registry.empty], _, steps_runAlone _ _ _ _ _⟩ (.nil _)
  have hsteps := steps_runAlone (machine gostormURL) (fun _ _ _ => True) (smooth 40)
    recoverAudio (cutAdd 13)
  have hret : (runAlone (machine gostormURL) (fun _ _ _ => True) (smooth 40) recoverAudio
      (cutAdd 13)).1 = .ret true := eq_ret_of_result? (by decide)
  rw [hret] at hsteps
  exact ((recovery_settles_interrupted_history hist hsteps).2.2 _ (by decide) (by decide)).2

/-! ### Requests side by side -/

/-- The requests side by side, before their first operation. -/
def together (reqs : List Transaction) (w : World) : Config Op Op.Res Unit Shared :=
  ⟨reqs.map Transaction.prog, ⟨w, [], false⟩⟩

lemma runs_transaction {t : Transaction} (hdis : DistinctTxns reqs) (ht : reqs[pid]? = some t)
    (hrec : t ≠ .recover) (hfresh : t.Fresh W.world) :
    Runs streamURL reqs pid t.prog (fun _ _ => True) W := by
  cases t with
  | add S req =>
    exact wp_then (runs_addAudio hdis ht hfresh) fun _ _ _ => runs_ret
  | remove sec virtualPath now =>
    exact wp_then runs_removeAudio fun _ _ _ => runs_ret
  | removePrefix sec pre now =>
    exact wp_then runs_removeAudioPrefix fun _ _ _ => runs_ret
  | recover => exact absurd rfl hrec

lemma shared_of_run {w : World} {ls : List (ℕ × Move Choice)}
    {cfg : Config Op Op.Res Unit Shared} (hrec : ∀ t ∈ reqs, t ≠ .recover)
    (hdis : DistinctTxns reqs) (hfresh : ∀ t ∈ reqs, t.Fresh w) (hw : Coherent streamURL w)
    (hrun : Run (Guarded (Allowed claimRespected) (audioSystem streamURL).Step)
      (together reqs w) ls cfg) : SharedInv streamURL cfg.state := by
  have hinv : SharedInv streamURL ⟨w, [], false⟩ := sharedInv_unclaimed hw
  have hvalid : (audioParties streamURL reqs).Valid (together reqs w) := by
    refine ⟨hinv, fun i p hp => ?_⟩
    rw [together, List.getElem?_map] at hp
    obtain ⟨t, ht, rfl⟩ := Option.map_eq_some_iff.mp hp
    have hmem : t ∈ reqs := List.mem_of_getElem? ht
    exact runs_transaction hdis ht (hrec t hmem) (hfresh t hmem)
  exact (hvalid.run hrun).inv

/-- In every interleaving in which no add stages a path that a removal in
flight has claimed, and no prefix removal marks a staged path, every committed
row has its stub, and no removal deletes a row or a stub that came after its
claim. -/
theorem removals_spare_what_came_later {w : World} {ls : List (ℕ × Move Choice)}
    {cfg : Config Op Op.Res Unit Shared} (hrec : ∀ t ∈ reqs, t ≠ .recover)
    (hdis : DistinctTxns reqs) (hfresh : ∀ t ∈ reqs, t.Fresh w) (hw : Coherent streamURL w)
    (hrun : Run (Guarded (Allowed claimRespected) (audioSystem streamURL).Step)
      (together reqs w) ls cfg) :
    (∀ r ∈ cfg.state.world.db.rows, r.state = .committed → ∃ ino,
      cfg.state.world.disk.node (diskPath r.path) = some (.file ino (audioStub streamURL r))) ∧
    cfg.state.stray = false := by
  have hend := shared_of_run hrec hdis hfresh hw hrun
  exact ⟨hend.coherent.stub, hend.no_stray⟩

/-- The server up to a crash: requests side by side, or a recovery. -/
inductive Epoch (streamURL : String → ℤ → String) (w : World) : List Transaction → World → Prop
  | requests {reqs ls} {cfg : Config Op Op.Res Unit Shared} (hrec : ∀ t ∈ reqs, t ≠ .recover)
      (hdis : DistinctTxns reqs) (hfresh : ∀ t ∈ reqs, t.Fresh w)
      (hrun : Run (Guarded (Allowed claimRespected) (audioSystem streamURL).Step)
        (together reqs w) ls cfg) : Epoch streamURL w reqs cfg.state.world
  | recovery {w' : World} (h : interrupted streamURL w .recover w') : Epoch streamURL w [.recover] w'

lemma Epoch.coherent (w : World) (reqs : List Transaction) (w' : World)
    (hw : Coherent streamURL w) (h : Epoch streamURL w reqs w') : Coherent streamURL w' := by
  cases h with
  | recovery h => exact coherent_of_interrupted hw h
  | requests hrec hdis hfresh hrun => exact (shared_of_run hrec hdis hfresh hw hrun).coherent

/-- Wherever a crash finds the requests, every committed row has its stub. A
recovery that reports no error then leaves the committed rows, each with its
stub, frees both names of every other row and touches nothing else. -/
theorem recovery_settles_concurrent_requests {d es} {w w' : World}
    (hist : Run (Epoch streamURL) ⟨Registry.empty, d, false⟩ es w)
    (hrec : Steps (machine streamURL) (fun _ _ _ => True) recoverAudio w (.ret true) w') :
    Coherent streamURL w ∧ Coherent streamURL w' ∧
    (∀ r ∈ w'.db.rows, r ∈ w.db.rows ∧ r.state = .committed ∧
      ∃ ino, w'.disk.node (diskPath r.path) = some (.file ino (audioStub streamURL r))) ∧
    (∀ r ∈ w.db.rows, r.state = .committed → r ∈ w'.db.rows) ∧
    (∀ r ∈ w.db.rows, r.state ≠ .committed →
      w'.disk.node (diskPath r.path) = none ∧ w'.disk.node (stagingFile r) = none) ∧
    ∀ q, w'.disk.node q = none ∨ w'.disk.node q = w.disk.node q := by
  have hw := hist.invariant Epoch.coherent (coherent_empty d)
  have hw' := (hrec.sound (keeps_recoverAudio hw) hw).1
  have hset : Settled w w' := steps_spec hrec spec_recoverAudio rfl
  obtain ⟨hstay, hcommitted, hgone⟩ := hset.rows_and_names hw hw'
  exact ⟨hw, hw', fun r hr => ⟨hset.swept.rows r hr, hstay r hr⟩, hcommitted, hgone,
    hset.swept.node⟩

/-! ### Two removals and an add of one track -/

def againRequest : AddRequest where
  sec := .music
  txnID := "bbaa99887766554433221100"
  now := 7
  hash := introRequest.hash
  title := introRequest.title
  magnet := introRequest.magnet
  plans := [introPlan]
  visible := introPlan_visible
  txnID_length := by decide

/-- The track is added, removed twice and added again. -/
def trackRequests : List Transaction :=
  [.add .insertion introRequest, .remove .music introPath 5, .remove .music introPath 6,
    .add .insertion againRequest]

/-- The next `n` operations of one request, without a fault. -/
def burst (pid n ino : ℕ) : List (ℕ × Move Choice) :=
  (List.range n).map fun i => (pid, .act ⟨false, ino + i, .bytes ""⟩)

def emptyMusic : World := ⟨Registry.empty, musicDisk, false⟩

lemma distinctTxns_trackRequests : DistinctTxns trackRequests := by
  have hid : introRequest.txnID ≠ againRequest.txnID := by decide
  rintro i j S S' req req' hij hi hj
  rcases i with _ | _ | _ | _ | i <;> rcases j with _ | _ | _ | _ | j <;>
    simp only [trackRequests, List.getElem?_cons_zero, List.getElem?_cons_succ, List.getElem?_nil,
      Option.some.injEq, Transaction.add.injEq, reduceCtorEq] at hi hj
  · exact absurd rfl hij
  · obtain ⟨⟨-, rfl⟩, ⟨-, rfl⟩⟩ := And.intro hi hj
    exact hid
  · obtain ⟨⟨-, rfl⟩, ⟨-, rfl⟩⟩ := And.intro hi hj
    exact hid.symm
  · exact absurd rfl hij

lemma coherent_emptyMusic : Coherent gostormURL emptyMusic := coherent_empty musicDisk

/-- The second removal resumes what the first has marked; both are through
before the track comes back. -/
def patientSchedule : List (ℕ × Move Choice) :=
  burst 0 22 100 ++ burst 1 2 200 ++ burst 2 3 300 ++ burst 1 12 400 ++ burst 2 6 500 ++
    burst 3 22 600

def patientEnd : Option (Config Op Op.Res Unit Shared) :=
  runSchedule (audioSystem gostormURL) claimRespected (together trackRequests emptyMusic)
    patientSchedule

theorem track_comes_back_with_its_stub :
    ∃ cfg, patientEnd = some cfg ∧ cfg.state.world.db.rows.map (·.state) = [.committed] ∧
      ∀ r ∈ cfg.state.world.db.rows, r.state = .committed → ∃ ino,
        cfg.state.world.disk.node (diskPath r.path) = some (.file ino (audioStub gostormURL r)) := by
  obtain ⟨cfg, hcfg, hstates⟩ : ∃ cfg ∈ patientEnd,
      cfg.state.world.db.rows.map (·.state) = [.committed] := by decide +kernel
  refine ⟨cfg, hcfg, hstates, ?_⟩
  exact (removals_spare_what_came_later (by simp [trackRequests]) distinctTxns_trackRequests
    (by simp [trackRequests, Transaction.Fresh, emptyMusic, Registry.empty]) coherent_emptyMusic
    (run_of_runSchedule hcfg)).1

def bothClaimed : Option (Config Op Op.Res Unit Shared) :=
  runSchedule (audioSystem gostormURL) claimRespected (together trackRequests emptyMusic)
    (burst 0 22 100 ++ burst 1 2 200 ++ burst 2 3 300)

theorem recovery_ends_cut_removals :
    ∃ cfg ∈ bothClaimed, cfg.state.world.db.rows.map (·.state) = [.removing] ∧
      ∀ r ∈ cfg.state.world.db.rows, r.state ≠ .committed →
        (recovered cfg.state.world).2.disk.node (diskPath r.path) = none ∧
          (recovered cfg.state.world).2.disk.node (stagingFile r) = none := by
  obtain ⟨cfg, hcfg, hstates, hret⟩ : ∃ cfg ∈ bothClaimed,
      cfg.state.world.db.rows.map (·.state) = [.removing] ∧
      (recovered cfg.state.world).1.result? = some true := by decide +kernel
  have hsteps := steps_runAlone (machine gostormURL) (fun _ _ _ => True) (smooth 40) recoverAudio
    cfg.state.world
  rw [show (runAlone _ _ _ _ _).1 = .ret true from eq_ret_of_result? hret] at hsteps
  have hcut := Epoch.requests (by simp [trackRequests]) distinctTxns_trackRequests
    (by simp [trackRequests, Transaction.Fresh, emptyMusic, Registry.empty]) (run_of_runSchedule hcfg)
  obtain ⟨-, -, -, -, hgone, -⟩ :=
    recovery_settles_concurrent_requests (.cons hcut (.nil _)) hsteps
  exact ⟨cfg, hcfg, hstates, hgone⟩

/-- The second removal overtakes the first, the track comes back, and the
first removal goes on by name. -/
def raceSchedule : List (ℕ × Move Choice) :=
  burst 0 22 100 ++ burst 1 2 200 ++ burst 2 13 300 ++ burst 3 22 400 ++ burst 1 12 500

def raceEnd : Option (Config Op Op.Res Unit Shared) :=
  runSchedule (audioSystem gostormURL) (fun _ _ _ => True) (together trackRequests emptyMusic)
    raceSchedule

theorem overtaken_removal_deletes_later_add :
    ∃ cfg, Run (audioSystem gostormURL).Step (together trackRequests emptyMusic) raceSchedule cfg ∧
      (cfg.procs.all fun p => p.result?.isSome) = true ∧ cfg.state.stray = true ∧
      cfg.state.world.db.rows = [] ∧
      cfg.state.world.disk.node (diskPath ⟨.music, introPath⟩) = none := by
  refine exists_run_of_runSchedule (?_ : ∃ cfg ∈ raceEnd, _)
  decide +kernel

end Tiramisu.Library
