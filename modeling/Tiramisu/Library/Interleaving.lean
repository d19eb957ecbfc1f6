import Tiramisu.Lib.Parallel
import Tiramisu.Library.Recovery

/-!
# Adds and removals side by side

The requests of `AudioRequests` interleaved operation by operation.  A removal
takes no lock: it claims a path by marking its row, or by finding the row
marked or listed, and goes by the path from then on.  `Shared` records who
claims which path, and whether a row or a file has come to a claimed path since.
-/

namespace Tiramisu.Library

open Posix Protocol SectionWriter List AddRequest
open Metadb (AudioSection AudioPath Registry RelPath)

/-- A removal's hold on a path. -/
structure Claim where
  pid : ℕ
  path : AudioPath
  newRow : Bool
  newFile : Bool
  deriving DecidableEq, Repr

/-- The two stores with the claims on them; `stray` is set once a removal has
deleted a row or a file that came to the path after its claim. -/
structure Shared where
  world : World
  claims : List Claim
  stray : Bool

def fileAt (w : World) (k : AudioPath) : Bool :=
  match w.disk.node (diskPath k) with
  | some (.file _ _) => true
  | _ => false

lemma fileAt_iff {w : World} {k : AudioPath} :
    fileAt w k = true ↔ ∃ ino data, w.disk.node (diskPath k) = some (.file ino data) := by
  unfold fileAt
  split
  · rename_i ino data h
    simp [h]
  · rename_i h
    simpa using h

namespace Claim

/-- What a step from `w` to `w'` brought to the claimed path. -/
def observe (w w' : World) (x : Claim) : Claim :=
  { x with
    newRow := x.newRow || ((w.db.row x.path).isNone && (w'.db.row x.path).isSome)
    newFile := x.newFile || (!fileAt w x.path && fileAt w' x.path) }

/-- The step took away what came after the claim. -/
def strays (w w' : World) (x : Claim) : Bool :=
  (x.newRow && (w.db.row x.path).isSome && (w'.db.row x.path).isNone) ||
    (x.newFile && fileAt w x.path && !fileAt w' x.path)

end Claim

/-- The paths an operation claims: a row found in `removing`, a row marked, and
every path a prefix removal marks. -/
def claimed : (o : Op) → o.Res → List AudioPath
  | .db _ (.get sec virtualPath), r =>
    match (r : Except DbError (Option Metadb.AudioProjection)) with
    | .ok (some row) => if row.state = .removing then [⟨sec, virtualPath⟩] else []
    | _ => []
  | .db _ (.mark sec virtualPath _), r =>
    match (r : Except DbError Bool) with
    | .ok true => [⟨sec, virtualPath⟩]
    | _ => []
  | .db _ (.markPaths sec virtualPaths _), r =>
    match (r : Except DbError ℕ) with
    | .ok _ => virtualPaths.map fun p => ⟨sec, p⟩
    | _ => []
  | _, _ => []

/-- A removal is done with a path once it has deleted the row. -/
def released : (o : Op) → o.Res → List AudioPath
  | .db _ (.delete sec virtualPath), r =>
    match (r : Except DbError Unit) with
    | .ok () => [⟨sec, virtualPath⟩]
    | _ => []
  | _, _ => []

def Shared.after (W : Shared) (pid : ℕ) (o : Op) (r : o.Res) (w' : World) : Shared where
  world := w'
  claims :=
    ((W.claims.map (Claim.observe W.world w')).filter fun x =>
      !(decide (x.pid = pid) && decide (x.path ∈ released o r))) ++
      (claimed o r).map fun k => ⟨pid, k, false, false⟩
  stray := W.stray || W.claims.any fun x => decide (x.pid = pid) && x.strays W.world w'

/-- The requests on the shared stores; one that has returned gives up its claims. -/
def audioSystem (streamURL : String → ℤ → String) : System Op Op.Res Choice Shared where
  machine pid :=
    { exec := fun o c W =>
        ((machine streamURL).exec o c W.world).map fun (r, w') => (r, W.after pid o r w') }
  leave pid W := { W with claims := W.claims.filter fun x => x.pid ≠ pid }

/-! ### What the requests promise each other -/

section Promises

variable {streamURL : String → ℤ → String}
variable {r : Metadb.AudioProjection} {call : FsCall} {w : World}

structure SharedInv (streamURL : String → ℤ → String) (W : Shared) : Prop where
  coherent : Coherent streamURL W.world
  visible : ∀ x ∈ W.claims, VisiblePath x.path.virtualPath
  removing : ∀ x ∈ W.claims, ∀ r, W.world.db.row x.path = some r → r.state = .removing
  clean : ∀ x ∈ W.claims, x.newRow = false ∧ x.newFile = false
  no_stray : W.stray = false

/-- Nothing of the transaction is committed yet. -/
def Pending (req : AddRequest) (w : World) : Prop :=
  ∀ r ∈ w.db.rows, r.txnID = req.txnID → r.state = .staged

/-- A file at a name, and at a staging name also its absence, lasts. -/
structure KeptAt (r : Metadb.AudioProjection) (w w' : World) : Prop where
  final : ∀ ino data, w.disk.node (diskPath r.path) = some (.file ino data) →
    w'.disk.node (diskPath r.path) = some (.file ino data)
  staged : ∀ ino data, w.disk.node (stagingFile r) = some (.file ino data) →
    w'.disk.node (stagingFile r) = some (.file ino data)
  free : w.disk.node (stagingFile r) = none → w'.disk.node (stagingFile r) = none

structure OwnKept (req : AddRequest) (w w' : World) : Prop where
  rows : ∀ r, r.txnID = req.txnID → (r ∈ w'.db.rows ↔ r ∈ w.db.rows)
  files : ∀ r ∈ req.rows, r ∈ w.db.rows → KeptAt r w w'

lemma OwnKept.pending {req : AddRequest} {w' : World} (h : OwnKept req w w')
    (hp : Pending req w) : Pending req w' :=
  fun r hr htxn => hp r ((h.rows r htxn).mp hr) htxn

lemma AddRequest.txnID_of_mem {req : AddRequest} (h : r ∈ req.rows) : r.txnID = req.txnID := by
  obtain ⟨plan, -, i, rfl⟩ := mem_rows h
  rfl

lemma OwnKept.refl (req : AddRequest) (w : World) : OwnKept req w w :=
  ⟨fun _ _ => Iff.rfl, fun _ _ _ => ⟨fun _ _ h => h, fun _ _ h => h, id⟩⟩

lemma OwnKept.trans {req : AddRequest} {w' w'' : World} (h : OwnKept req w w')
    (h' : OwnKept req w' w'') : OwnKept req w w'' where
  rows r htxn := (h'.rows r htxn).trans (h.rows r htxn)
  files r hr hmem := by
    have hk := h.files r hr hmem
    have hk' := h'.files r hr ((h.rows r (txnID_of_mem hr)).mpr hmem)
    exact ⟨fun _ _ hf => hk'.final _ _ (hk.final _ _ hf), fun _ _ hf => hk'.staged _ _ (hk.staged _ _ hf),
      fun hn => hk'.free (hk.free hn)⟩

/-- What request `j` counts on: its claims stay, and while it is an add that has
not committed, so do its rows and files. -/
structure Rely (reqs : List Transaction) (j : ℕ) (W W' : Shared) : Prop where
  claims : (W'.claims.filter fun x => x.pid = j) = W.claims.filter fun x => x.pid = j
  own : ∀ S req, reqs[j]? = some (.add S req) → Pending req W.world → OwnKept req W.world W'.world

lemma Rely.refl (reqs : List Transaction) (j : ℕ) (W : Shared) : Rely reqs j W W :=
  ⟨rfl, fun _ req _ _ => .refl req W.world⟩

lemma Rely.trans {reqs : List Transaction} {j : ℕ} {W W' W'' : Shared} (h : Rely reqs j W W')
    (h' : Rely reqs j W' W'') : Rely reqs j W W'' :=
  ⟨h'.claims.trans h.claims, fun S req hreq hp =>
    (h.own S req hreq hp).trans (h'.own S req hreq ((h.own S req hreq hp).pending hp))⟩

/-- The condition on the moves: an add stages no path a removal in flight has
claimed, and a prefix removal marks no path that is staged. -/
def claimRespected : Op → Choice → Shared → Prop
  | .db _ (.stage _ rows), _, W => ∀ x ∈ W.claims, ∀ r ∈ rows, r.path ≠ x.path
  | .db _ (.markPaths sec virtualPaths _), _, W =>
    ∀ r ∈ W.world.db.rows, r.state = .staged → r.sec = sec → r.virtualPath ∉ virtualPaths
  | _, _, _ => True

local instance lawfulRelPath : LawfulBEq RelPath := inferInstanceAs (LawfulBEq (List String))

instance (o : Op) (c : Choice) (W : Shared) : Decidable (claimRespected o c W) := by
  apply Op.casesOn (motive := fun o => Decidable (claimRespected o c W)) o
  case db =>
    intro undo call
    apply DbCall.casesOn (motive := fun d => Decidable (claimRespected (.db undo d) c W)) call <;>
      intros <;> dsimp only [claimRespected] <;> infer_instance
  all_goals
    intros
    exact instDecidableTrue

lemma SharedInv.leave {W : Shared} (h : SharedInv streamURL W) (pid : ℕ) :
    SharedInv streamURL ((audioSystem streamURL).leave pid W) where
  coherent := h.coherent
  visible x hx := h.visible x (mem_of_mem_filter hx)
  removing x hx := h.removing x (mem_of_mem_filter hx)
  clean x hx := h.clean x (mem_of_mem_filter hx)
  no_stray := h.no_stray

lemma filter_filter_pid (claims : List Claim) {i j : ℕ} (hij : i ≠ j) (p : Claim → Bool) :
    ((claims.filter fun x => !(decide (x.pid = i) && p x)).filter fun x => decide (x.pid = j))
      = claims.filter fun x => decide (x.pid = j) := by
  rw [filter_filter]
  refine filter_congr fun x _ => ?_
  by_cases hx : x.pid = j
  · simp [hx, Ne.symm hij]
  · simp [hx]

def audioParties (streamURL : String → ℤ → String) (reqs : List Transaction) :
    Parties (audioSystem streamURL) Unit where
  inv := SharedInv streamURL
  ok := claimRespected
  rely := Rely reqs
  post _ _ _ := True
  rely_refl := Rely.refl reqs
  rely_trans _ := Rely.trans
  leave_inv i _ h := h.leave i
  leave_rely i j W hij _ := by
    refine ⟨?_, fun _ req _ _ => .refl req W.world⟩
    have := filter_filter_pid W.claims hij fun _ => true
    simpa [audioSystem] using this
  leave_post _ _ _ _ _ _ _ := trivial

/-! ### One step -/

/-- What a step does to the stores, as far as the others are concerned. -/
structure StepKeeps (streamURL : String → ℤ → String) (reqs : List Transaction) (pid : ℕ)
    (W : Shared) (w' : World) : Prop where
  coherent : Coherent streamURL w'
  removing : ∀ x ∈ W.claims, ∀ r, w'.db.row x.path = some r → r.state = .removing
  no_row : ∀ x ∈ W.claims, W.world.db.row x.path = none → w'.db.row x.path = none
  no_file : ∀ x ∈ W.claims, fileAt w' x.path = true → fileAt W.world x.path = true
  own : ∀ j, j ≠ pid → ∀ S req, reqs[j]? = some (.add S req) → Pending req W.world →
    OwnKept req W.world w'

variable {reqs : List Transaction} {pid : ℕ} {W : Shared}

lemma StepKeeps.refl (h : SharedInv streamURL W) : StepKeeps streamURL reqs pid W W.world where
  coherent := h.coherent
  removing := h.removing
  no_row _ _ hx := hx
  no_file _ _ hx := hx
  own _ _ _ req _ _ := .refl req W.world

lemma StepKeeps.observe_eq {w' : World} (hw : StepKeeps streamURL reqs pid W w')
    (h : SharedInv streamURL W) : W.claims.map (Claim.observe W.world w') = W.claims := by
  refine (map_congr_left fun x hx => ?_).trans (map_id _)
  obtain ⟨hrow, hfile⟩ := h.clean x hx
  have h1 : ((W.world.db.row x.path).isNone && (w'.db.row x.path).isSome) = false := by
    cases hr : W.world.db.row x.path with
    | none => simp [hw.no_row x hx hr]
    | some r => simp
  have h2 : (!fileAt W.world x.path && fileAt w' x.path) = false := by
    cases hf : fileAt w' x.path with
    | false => simp
    | true => simp [hw.no_file x hx hf]
  obtain ⟨p, k, a, b⟩ := x
  simp only [Claim.observe, h1, h2, Bool.or_false, id]

/-- Such a step keeps the invariant and what the others count on. -/
lemma StepKeeps.after {w' : World} (hw : StepKeeps streamURL reqs pid W w')
    (h : SharedInv streamURL W) {o : Op} {r : o.Res}
    (hnew : ∀ k ∈ claimed o r, VisiblePath k.virtualPath ∧
      ∀ s, w'.db.row k = some s → s.state = .removing) :
    SharedInv streamURL (W.after pid o r w') ∧
      ∀ j, j ≠ pid → Rely reqs j W (W.after pid o r w') := by
  have hclaims : ∀ x ∈ (W.after pid o r w').claims, x ∈ W.claims ∨
      ∃ k ∈ claimed o r, x = ⟨pid, k, false, false⟩ := by
    intro x hx
    simp only [Shared.after, hw.observe_eq h, mem_append, mem_map] at hx
    rcases hx with hx | ⟨k, hk, rfl⟩
    · exact Or.inl (mem_of_mem_filter hx)
    · exact Or.inr ⟨k, hk, rfl⟩
  refine ⟨⟨hw.coherent, fun x hx => ?_, fun x hx => ?_, fun x hx => ?_, ?_⟩, fun j hj => ⟨?_, ?_⟩⟩
  · rcases hclaims x hx with hx | ⟨k, hk, rfl⟩
    · exact h.visible x hx
    · exact (hnew k hk).1
  · rcases hclaims x hx with hx | ⟨k, hk, rfl⟩
    · exact hw.removing x hx
    · exact (hnew k hk).2
  · rcases hclaims x hx with hx | ⟨k, hk, rfl⟩
    · exact h.clean x hx
    · exact ⟨rfl, rfl⟩
  · simp only [Shared.after, h.no_stray, Bool.false_or, any_eq_false, Bool.and_eq_true,
      decide_eq_true_eq, not_and]
    intro x hx _
    simp [Claim.strays, h.clean x hx]
  · have hold := filter_filter_pid W.claims (Ne.symm hj) fun x => decide (x.path ∈ released o r)
    have hnone : ((claimed o r).map fun k => (⟨pid, k, false, false⟩ : Claim)).filter
        (fun x => decide (x.pid = j)) = [] := by
      refine filter_eq_nil_iff.mpr fun x hx => ?_
      obtain ⟨k, -, rfl⟩ := mem_map.mp hx
      simpa using Ne.symm hj
    simp only [Shared.after, hw.observe_eq h, filter_append, hnone, append_nil]
    exact hold
  · exact hw.own j hj

/-! ### The steps of an add -/

/-- Adds have transaction ids of their own. -/
def DistinctTxns (reqs : List Transaction) : Prop :=
  ∀ (i j : ℕ) (S S' : LongestFirst) (req req' : AddRequest), i ≠ j →
    reqs[i]? = some (.add S req) → reqs[j]? = some (.add S' req') → req.txnID ≠ req'.txnID

/-- What an add may do once its rows are staged. -/
def ownFootprint (req : AddRequest) : Footprint where
  mkdir p := leafHidden p = false
  put := req.stagingFiles
  unlink p := req.stagingFiles p ∨ ∃ k, req.paths k ∧ p = diskPath k
  move p q := req.stagingFiles p ∧ ∃ k, req.paths k ∧ q = diskPath k
  stmt _ := False

lemma hidden_of_stagingFiles {req : AddRequest} {p : Path} (h : req.stagingFiles p) :
    leafHidden p = true := by
  obtain ⟨r, hr, rfl⟩ := h
  rw [(diskPath_of_mem hr).2]
  exact leafHidden_of_mem_rows hr

lemma FsCall.In.request {req : AddRequest} (h : call.In (ownFootprint req)) :
    call.In (requestFootprint req.paths req.stagingFiles) :=
  h.mono (fun _ h => h) (fun _ h => h) (fun _ h => h.imp hidden_of_stagingFiles id)
    fun _ _ h => ⟨hidden_of_stagingFiles h.1, h.2⟩

/-- The names of a staged row of another add are not among the request's own. -/
lemma not_own_name {req : AddRequest}
    (hw : Coherent streamURL w) (hst : Staged req w) (hr : r ∈ w.db.rows)
    (htxn : r.txnID ≠ req.txnID) :
    ¬req.stagingFiles (stagingFile r) ∧ ¬∃ k, req.paths k ∧ diskPath r.path = diskPath k := by
  constructor
  · rintro ⟨s, hs, heq⟩
    exact htxn (txnID_of_stagingFile hw hr hs heq)
  · rintro ⟨k, ⟨s, hs, rfl⟩, heq⟩
    have := Registry.eq_of_path_eq hr (hst.here s hs) (diskPath_injective heq)
    exact htxn (this ▸ txnID_of_mem hs)

section Add

variable {S : LongestFirst} {req : AddRequest}

lemma row_of_staged (hst : Staged req w) {k : AudioPath} (hk : req.paths k) :
    ∃ r, w.db.row k = some r ∧ r.state = .staged := by
  obtain ⟨r, hr, rfl⟩ := hk
  refine ⟨r, Registry.mem_rows_iff.mp (hst.here r hr), ?_⟩
  obtain ⟨plan, -, i, rfl⟩ := mem_rows hr
  rfl

section

variable (hdis : DistinctTxns reqs)

include hdis

section

variable (hreq : reqs[pid]? = some (.add S req))

include hreq

section

variable (h : SharedInv streamURL W)

include h

lemma stepKeeps_own_fs (hst : Staged req W.world) {c : Choice} {r : call.Res} {d' : Disk Content}
    (hin : call.In (ownFootprint req)) (hex : call.exec c W.world.disk = some (r, d')) (b : Bool) :
    StepKeeps streamURL reqs pid W { W.world with disk := d', dirSyncFailed := b } where
  coherent := h.coherent.fs (holds_of_staged h.coherent hst) hin.request hex
  removing := h.removing
  no_row _ _ hx := hx
  no_file x hx hfile := by
    obtain ⟨ino, data, hnode⟩ := fileAt_iff.mp hfile
    have hvis := leafHidden_diskPath (h.visible x hx)
    rcases call.node_cases hin hex (diskPath x.path) with hsame | ⟨-, -, i, hdir⟩ | ⟨hput, -⟩ |
      ⟨-, hgone⟩ | ⟨-, hgone⟩ | ⟨q, ⟨-, k, hk, heq⟩, -⟩ | ⟨q, -, hgone⟩
    · exact fileAt_iff.mpr ⟨ino, data, hsame ▸ hnode⟩
    · cases hdir.symm.trans hnode
    · cases hvis.symm.trans (hidden_of_stagingFiles hput)
    · cases hgone.symm.trans hnode
    · cases hgone.symm.trans hnode
    · -- a claimed path has no staged row
      obtain ⟨s, hs, hstaged⟩ := row_of_staged hst hk
      rw [← diskPath_injective heq] at hs
      cases hstaged.symm.trans (h.removing x hx s hs)
    · cases hgone.symm.trans hnode
  own j hj S' req' hreq' hp := by
    refine ⟨fun _ _ => Iff.rfl, fun s hs hmem => ?_⟩
    have htxn : s.txnID ≠ req.txnID := by
      rw [txnID_of_mem hs]
      exact hdis j pid S' S req' req hj hreq' hreq
    obtain ⟨hnotstaging, hnotfinal⟩ := not_own_name h.coherent hst hmem htxn
    have hvis : leafHidden (diskPath s.path) = false :=
      leafHidden_diskPath (visible_of_mem_rows hs)
    have hhid : leafHidden (stagingFile s) = true := hidden_of_stagingFiles ⟨s, hs, rfl⟩
    have hstagingCases := call.node_cases hin hex (stagingFile s)
    refine ⟨fun ino data hnode => ?_, fun ino data hnode => ?_, fun hnone => ?_⟩
    · rcases call.node_cases hin hex (diskPath s.path) with hsame | ⟨-, hnone, -⟩ | ⟨hput, -⟩ |
        ⟨hunlink, -⟩ | ⟨⟨i, hdir⟩, -⟩ | ⟨q, -, hnone⟩ | ⟨q, ⟨hmove, -⟩, -⟩
      · exact hsame.trans hnode
      · simp [hnode] at hnone
      · cases hvis.symm.trans (hidden_of_stagingFiles hput)
      · rcases hunlink with hsf | hk
        · cases hvis.symm.trans (hidden_of_stagingFiles hsf)
        · exact absurd hk hnotfinal
      · simp [hnode] at hdir
      · simp [hnode] at hnone
      · cases hvis.symm.trans (hidden_of_stagingFiles hmove)
    · rcases hstagingCases with hsame | ⟨hmk, -⟩ | ⟨hput, -⟩ | ⟨hunlink, -⟩ | ⟨⟨i, hdir⟩, -⟩ |
        ⟨q, -, hnone⟩ | ⟨q, ⟨hmove, -⟩, -⟩
      · exact hsame.trans hnode
      · cases hhid.symm.trans hmk
      · exact absurd hput hnotstaging
      · rcases hunlink with hsf | ⟨k, ⟨t, ht, rfl⟩, heq⟩
        · exact absurd hsf hnotstaging
        · rw [heq, leafHidden_diskPath (visible_of_mem_rows ht)] at hhid
          cases hhid
      · simp [hnode] at hdir
      · simp [hnode] at hnone
      · exact absurd hmove hnotstaging
    · rcases hstagingCases with hsame | ⟨hmk, -⟩ | ⟨hput, -⟩ | ⟨-, hgone⟩ | ⟨-, hgone⟩ |
        ⟨q, ⟨-, k, ⟨t, ht, rfl⟩, heq⟩, -⟩ | ⟨q, -, hgone⟩
      · exact hsame.trans hnone
      · cases hhid.symm.trans hmk
      · exact absurd hput hnotstaging
      · exact hgone
      · exact hgone
      · rw [heq, leafHidden_diskPath (visible_of_mem_rows ht)] at hhid
        cases hhid
      · exact hgone

lemma stepKeeps_stage (hclaims : ∀ x ∈ W.claims, ∀ r ∈ req.rows, r.path ≠ x.path) {db' : Registry}
    (hstage : W.world.db.stageAudioProjections req.txnID req.rows = .ok db') :
    StepKeeps streamURL reqs pid W { W.world with db := db' } where
  coherent := h.coherent.stage hstage
  removing x hx r hr := by
    obtain ⟨hmem, hpath⟩ := Registry.row_eq_some_iff.mp hr
    rw [rows_of_stage hstage, mem_append] at hmem
    refine h.removing x hx r (Registry.row_eq_some_iff.mpr ⟨?_, hpath⟩)
    exact hmem.resolve_right fun hnew => hclaims x hx r hnew hpath
  no_row x hx hnone := by
    rw [Registry.row_eq_none_iff] at hnone ⊢
    intro r hr
    rw [rows_of_stage hstage, mem_append] at hr
    exact hr.elim (hnone r) (hclaims x hx r)
  no_file _ _ hx := hx
  own j hj S' req' hreq' _ := by
    refine ⟨fun r htxn => ?_, fun r _ _ => ⟨fun _ _ hf => hf, fun _ _ hf => hf, id⟩⟩
    rw [rows_of_stage hstage, mem_append, or_iff_left]
    intro hnew
    exact hdis j pid S' S req' req hj hreq' hreq (htxn.symm.trans (txnID_of_mem hnew))

lemma stepKeeps_rollback (c : Choice) :
    StepKeeps streamURL reqs pid W
      { W.world with db := (DbCall.exec c W.world.db (.rollback req.txnID)).2 } := by
  simp only [DbCall.exec]
  split_ifs
  · exact .refl h
  refine ⟨h.coherent.db (c := ⟨false, 0, .bytes ""⟩) 
      (show DbCall.Shrinks (.rollback req.txnID) from trivial),
    fun x hx r hr => ?_, fun x hx hnone => ?_, fun _ _ hx => hx, ?_⟩
  · rw [Registry.rollbackAudioProjections, Registry.row_deleteWhere, Option.filter_eq_some_iff] at hr
    exact h.removing x hx r hr.1
  · rw [Registry.rollbackAudioProjections, Registry.row_deleteWhere, hnone, Option.filter_none]
  · intro j hj S' req' hreq' _
    refine ⟨fun r htxn => ?_, fun r _ _ => ⟨fun _ _ hf => hf, fun _ _ hf => hf, id⟩⟩
    have hne : r.txnID ≠ req.txnID := htxn ▸ hdis j pid S' S req' req hj hreq' hreq
    simp [Registry.rollbackAudioProjections, Registry.deleteWhere, Registry.stagedBy, hne]

lemma stepKeeps_commit {t : ℤ}
    (hfiles : ∀ r ∈ W.world.db.rows, Registry.stagedBy req.txnID r = true →
      (∃ ino, W.world.disk.node (diskPath r.path) = some (.file ino (audioStub streamURL r))) ∧
        W.world.disk.node (stagingFile r) = none) :
    StepKeeps streamURL reqs pid W
      { W.world with db := (W.world.db.commitAudioProjections req.txnID t).1 } where
  coherent := h.coherent.commit hfiles
  removing x hx r hr := by
    rw [Registry.commitAudioProjections, Registry.row_updateState] at hr
    obtain ⟨s, hs, rfl⟩ := Option.map_eq_some_iff.mp hr
    have hst := h.removing x hx s hs
    simp [Registry.stagedBy, hst]
  no_row x _ hnone := by
    rw [Registry.commitAudioProjections, Registry.row_updateState, hnone, Option.map_none]
  no_file _ _ hx := hx
  own j hj S' req' hreq' _ := by
    refine ⟨fun r htxn => ?_, fun r _ _ => ⟨fun _ _ hf => hf, fun _ _ hf => hf, id⟩⟩
    have hne : r.txnID ≠ req.txnID := htxn ▸ hdis j pid S' S req' req hj hreq' hreq
    refine Registry.mem_updateState_iff fun s _ hs heq => hne ?_
    simp only [Registry.stagedBy, Bool.and_eq_true, decide_eq_true_eq] at hs
    exact heq ▸ hs.1

end

end

end

end Add

/-! ### The steps of a removal -/

section Remove

/-- What a removal may do on disk with the paths it has claimed. -/
def claimFootprint (K : AudioPath → Prop) : Footprint where
  mkdir _ := False
  put _ := False
  unlink p := ∃ k, K k ∧ p = diskPath k
  move _ _ := False
  stmt _ := False

/-- Request `pid` has claimed the paths in `K`. -/
def Claims (pid : ℕ) (K : AudioPath → Prop) (W : Shared) : Prop :=
  ∀ k, K k → ∃ x ∈ W.claims, x.pid = pid ∧ x.path = k

variable {K : AudioPath → Prop}

lemma Claims.rely {W' : Shared} (h : Claims pid K W) (hr : Rely reqs pid W W') :
    Claims pid K W' := by
  intro k hk
  obtain ⟨x, hx, hpid, hpath⟩ := h k hk
  have hmem : x ∈ W'.claims.filter fun x => x.pid = pid := by
    rw [hr.claims]
    exact mem_filter.mpr ⟨hx, by simpa using hpid⟩
  exact ⟨x, mem_of_mem_filter hmem, hpid, hpath⟩

lemma Claims.removing (h : Claims pid K W) (hinv : SharedInv streamURL W) (hr : r ∈ W.world.db.rows)
    (hk : K r.path) : r.state = .removing := by
  obtain ⟨x, hx, -, hpath⟩ := h _ hk
  exact hinv.removing x hx r (hpath ▸ Registry.mem_rows_iff.mp hr)

lemma Claims.visible (h : Claims pid K W) (hinv : SharedInv streamURL W) {k : AudioPath}
    (hk : K k) : VisiblePath k.virtualPath := by
  obtain ⟨x, hx, -, rfl⟩ := h k hk
  exact hinv.visible x hx

lemma FsCall.In.claim (h : call.In (claimFootprint K)) :
    call.In (requestFootprint K fun _ => False) :=
  h.mono (fun _ h => h.elim) (fun _ h => h) (fun _ h => Or.inr h) fun _ _ h => h.elim

lemma stepKeeps_claim_fs (h : SharedInv streamURL W) (hK : Claims pid K W)
    {c : Choice} {r : call.Res} {d' : Disk Content} (hin : call.In (claimFootprint K))
    (hex : call.exec c W.world.disk = some (r, d')) (b : Bool) :
    StepKeeps streamURL reqs pid W { W.world with disk := d', dirSyncFailed := b } where
  coherent := by
    refine h.coherent.fs ⟨fun s hs hk => ?_, fun k hk => hK.visible h hk, fun p hp => hp.elim,
      fun p hp => hp.elim⟩ hin.claim hex
    simp [hK.removing h hs hk]
  removing := h.removing
  no_row _ _ hx := hx
  no_file x hx hfile := by
    obtain ⟨ino, data, hnode⟩ := fileAt_iff.mp hfile
    rcases call.node_cases hin hex (diskPath x.path) with hsame | ⟨hmk, -⟩ | ⟨hput, -⟩ |
      ⟨-, hgone⟩ | ⟨-, hgone⟩ | ⟨q, hmove, -⟩ | ⟨q, hmove, -⟩
    · exact fileAt_iff.mpr ⟨ino, data, hsame ▸ hnode⟩
    · exact hmk.elim
    · exact hput.elim
    · cases hgone.symm.trans hnode
    · cases hgone.symm.trans hnode
    · exact hmove.elim
    · exact hmove.elim
  own j hj S' req' hreq' hp := by
    refine ⟨fun _ _ => Iff.rfl, fun s hs hmem => ?_⟩
    have hhid : leafHidden (stagingFile s) = true := hidden_of_stagingFiles ⟨s, hs, rfl⟩
    have hstaged := hp s hmem (txnID_of_mem hs)
    have hkeep : ∀ q, (∀ k, K k → q ≠ diskPath k) → d'.node q = W.world.disk.node q ∨
        (∃ i, W.world.disk.node q = some (.dir i)) ∧ d'.node q = none := by
      intro q hq
      rcases call.node_cases hin hex q with hsame | ⟨hmk, -⟩ | ⟨hput, -⟩ |
        ⟨⟨k, hk, rfl⟩, -⟩ | hdir | ⟨p, hmove, -⟩ | ⟨p, hmove, -⟩
      · exact Or.inl hsame
      · exact hmk.elim
      · exact hput.elim
      · exact absurd rfl (hq k hk)
      · exact Or.inr hdir
      · exact hmove.elim
      · exact hmove.elim
    have hfinal := hkeep (diskPath s.path) fun k hk heq => by
      rw [← diskPath_injective heq] at hk
      cases hstaged.symm.trans (hK.removing h hmem hk)
    have hstaging := hkeep (stagingFile s) fun k hk heq => by
      rw [heq, leafHidden_diskPath (hK.visible h hk)] at hhid
      cases hhid
    refine ⟨fun ino data hnode => ?_, fun ino data hnode => ?_, fun hnone => ?_⟩
    · rcases hfinal with hsame | ⟨⟨i, hdir⟩, -⟩
      · exact hsame.trans hnode
      · simp [hnode] at hdir
    · rcases hstaging with hsame | ⟨⟨i, hdir⟩, -⟩
      · exact hsame.trans hnode
      · simp [hnode] at hdir
    · exact hstaging.elim (fun hsame => hsame.trans hnone) And.right

lemma stepKeeps_delete (h : SharedInv streamURL W) (hK : Claims pid K W) {sec : AudioSection}
    {virtualPath : RelPath} (hk : K ⟨sec, virtualPath⟩) (c : Choice) :
    StepKeeps streamURL reqs pid W
      { W.world with db := (DbCall.exec c W.world.db (.delete sec virtualPath)).2 } := by
  simp only [DbCall.exec]
  split_ifs
  · exact .refl h
  refine ⟨h.coherent.db (c := ⟨false, 0, .bytes ""⟩) 
      (show DbCall.Shrinks (.delete sec virtualPath) from trivial),
    fun x hx r hr => ?_, fun x hx hnone => ?_, fun _ _ hx => hx, ?_⟩
  · rw [Registry.deleteAudioProjection, Registry.row_deleteWhere, Option.filter_eq_some_iff] at hr
    exact h.removing x hx r hr.1
  · rw [Registry.deleteAudioProjection, Registry.row_deleteWhere, hnone, Option.filter_none]
  intro j hj S' req' hreq' hp
  refine ⟨fun r htxn => ?_, fun r _ _ => ⟨fun _ _ hf => hf, fun _ _ hf => hf, id⟩⟩
  simp only [Registry.deleteAudioProjection, Registry.deleteWhere, mem_filter,
    and_iff_left_iff_imp, Bool.not_eq_true', decide_eq_false_iff_not]
  rintro hr hpath
  cases (hp r hr htxn).symm.trans (hK.removing h hr (hpath ▸ hk))

/-- The marks of a removal change committed rows only. -/
lemma stepKeeps_mark (h : SharedInv streamURL W) (sec : AudioSection) (paths : List RelPath)
    (t : ℤ) :
    StepKeeps streamURL reqs pid W { W.world with
      db := W.world.db.updateState (Registry.committedAt sec paths) .removing t } where
  coherent := h.coherent.db (c := ⟨false, 0, .bytes ""⟩)
    (show DbCall.Shrinks (.markPaths sec paths t) from trivial)
  removing x hx r hr := by
    rw [Registry.row_updateState] at hr
    obtain ⟨s, hs, rfl⟩ := Option.map_eq_some_iff.mp hr
    split_ifs
    · rfl
    · exact h.removing x hx s hs
  no_row x _ hnone := by rw [Registry.row_updateState, hnone, Option.map_none]
  no_file _ _ hx := hx
  own j hj S' req' hreq' hp := by
    refine ⟨fun r htxn => ?_, fun r _ _ => ⟨fun _ _ hf => hf, fun _ _ hf => hf, id⟩⟩
    refine Registry.mem_updateState_iff fun s hmem hs heq => ?_
    simp only [Registry.committedAt, Bool.and_eq_true, decide_eq_true_eq] at hs
    cases hs.1.2.symm.trans (hp s hmem (heq.trans htxn))

end Remove

end Promises

end Tiramisu.Library
