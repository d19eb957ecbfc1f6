import Tiramisu.Go.Maps
import Tiramisu.Library.AudioRequests

/-!
# Planning an audio add

`PlanAudioProjections` decides for every requested file whether its projection
is present, would be created, or conflicts.  The plan is checked against the
three UNIQUE constraints of the registry: what it marks as created can be
staged, and once that is committed the same request plans to nothing.
-/

namespace Tiramisu.Library

open Go List Metadb.Registry
open Metadb (AudioPath AudioSection Registry RelPath)
open Metadb.AudioProjection (Distinct)

/-- `PortablePathKey`: every component normalised and case-folded by `fold`. -/
def portablePathKey (fold : String → String) (virtualPath : RelPath) : String :=
  String.intercalate "/" (virtualPath.map fold)

structure ResolvedSource where
  sourcePath : String
  fileIndex : ℤ
  size : ℤ
  deriving DecidableEq, Repr

structure AudioFileRequest where
  sourcePath : String
  path : RelPath
  externalID : String
  externalIDNamespace : String
  cueTrack : ℤ
  deriving DecidableEq, Repr

structure AudioAddRequest where
  sec : AudioSection
  title : String
  files : List AudioFileRequest

structure CueSegment where
  offset : ℤ
  length : ℤ
  header : List UInt8

inductive AudioProjectionStatus
  | present
  | created
  deriving DecidableEq, Repr

structure AudioProjectionPlan where
  virtualPath : RelPath
  source : ResolvedSource
  status : AudioProjectionStatus
  existing : Option Metadb.AudioProjection
  deriving DecidableEq, Repr

/-- The read side of the registry; every read may fail. -/
structure AudioProjectionLookup where
  getAudioProjection : AudioSection → RelPath → Except String (Option Metadb.AudioProjection)
  audioProjectionBySource : String → ℤ → ℤ → Except String (Option Metadb.AudioProjection)
  audioProjectionByPortableKey : AudioSection → String → Except String (Option Metadb.AudioProjection)

inductive PlanError
  | readingProjection (sec : AudioSection) (path : RelPath) (cause : String)
  | differentContent (sec : AudioSection) (path : RelPath)
  | readingPortableKey (sec : AudioSection) (key : String) (cause : String)
  | portableCollision (sec : AudioSection) (path owner : RelPath)
  | readingSource (hash : String) (fileIndex : ℤ) (cause : String)
  | alreadyProjected (hash : String) (fileIndex : ℤ) (owner : AudioPath)
  | countMismatch (requests sources : ℕ)
  | sharedKey (previous path : RelPath)
  | requestedTwice (hash : String) (fileIndex : ℤ) (previous path : RelPath)
  deriving DecidableEq, Repr

/-- The row holds what the request asks for, committed. -/
def HoldsContent (row : Metadb.AudioProjection) (hash : String) (source : ResolvedSource) (cueTrack : ℤ) :
    Prop :=
  row.state = .committed ∧ row.hash = hash ∧ row.fileIndex = source.fileIndex ∧
    row.cueTrack = cueTrack ∧ row.sourcePath = source.sourcePath ∧ row.size = source.size

instance (row : Metadb.AudioProjection) (hash : String) (source : ResolvedSource) (cueTrack : ℤ) :
    Decidable (HoldsContent row hash source cueTrack) := inferInstanceAs (Decidable (_ ∧ _))

section Planner

variable (fold : String → String) (lookup : AudioProjectionLookup) (sec : AudioSection)
  (hash : String)

/-- The destination is checked before the release. -/
def classifyAudioProjection (virtualPath : RelPath) (source : ResolvedSource) (cueTrack : ℤ) :
    Except PlanError AudioProjectionPlan :=
  match lookup.getAudioProjection sec virtualPath with
  | .error cause => .error (.readingProjection sec virtualPath cause)
  | .ok (some existing) =>
    if HoldsContent existing hash source cueTrack then
      .ok ⟨virtualPath, source, .present, some existing⟩
    else .error (.differentContent sec virtualPath)
  | .ok none =>
    let portableKey := portablePathKey fold virtualPath
    match lookup.audioProjectionByPortableKey sec portableKey with
    | .error cause => .error (.readingPortableKey sec portableKey cause)
    | .ok (some keyOwner) => .error (.portableCollision sec virtualPath keyOwner.virtualPath)
    | .ok none =>
      match lookup.audioProjectionBySource hash source.fileIndex cueTrack with
      | .error cause => .error (.readingSource hash source.fileIndex cause)
      | .ok (some owner) => .error (.alreadyProjected hash source.fileIndex owner.path)
      | .ok none => .ok ⟨virtualPath, source, .created, none⟩

/-- The loop over the request, with the keys and sources claimed so far. -/
def planFrom (claimedBy : GoMap (ℤ × ℤ) RelPath) (keyClaimedBy : GoMap String RelPath) :
    List (AudioFileRequest × ResolvedSource) → Except PlanError (List AudioProjectionPlan)
  | [] => .ok []
  | (request, source) :: rest =>
    match classifyAudioProjection fold lookup sec hash request.path source request.cueTrack with
    | .error e => .error e
    | .ok plan =>
      let portableKey := portablePathKey fold request.path
      match keyClaimedBy.lookup portableKey with
      | some previous => .error (.sharedKey previous request.path)
      | none =>
        let key := (source.fileIndex, request.cueTrack)
        match claimedBy.lookup key with
        | some previous => .error (.requestedTwice hash source.fileIndex previous request.path)
        | none =>
          (planFrom (claimedBy.insert key request.path)
            (keyClaimedBy.insert portableKey request.path) rest).map (plan :: ·)

def planAudioProjections (requests : List AudioFileRequest) (sources : List ResolvedSource) :
    Except PlanError (List AudioProjectionPlan) :=
  if requests.length ≠ sources.length then
    .error (.countMismatch requests.length sources.length)
  else planFrom fold lookup sec hash ∅ ∅ (requests.zip sources)

end Planner

/-- The row of one plan; a file that is not cut has no segment. -/
def projectionRow (fold : String → String) (intent : AudioAddRequest)
    (engineHash magnet txnID : String) (now : ℤ) (segments : GoMap ℕ CueSegment)
    (plan : AudioProjectionPlan) (file : AudioFileRequest) (i : ℕ) : Metadb.AudioProjection where
  sec := intent.sec
  virtualPath := plan.virtualPath
  portablePathKey := portablePathKey fold plan.virtualPath
  hash := engineHash
  fileIndex := plan.source.fileIndex
  sourcePath := plan.source.sourcePath
  size := plan.source.size
  mtimeNS := now
  title := intent.title
  magnet := magnet
  externalID := file.externalID
  externalIDNamespace := file.externalIDNamespace
  cueTrack := file.cueTrack
  byteOffset := ((segments.lookup i).map CueSegment.offset).getD 0
  header := ((segments.lookup i).map CueSegment.header).getD []
  state := .staged
  txnID := txnID
  stagingName := stagingName txnID i
  createdAtNS := now
  updatedAtNS := now

/-- The rows `AddAudio` stages: one for each plan that is to be created. -/
def projectionRows (fold : String → String) (intent : AudioAddRequest)
    (engineHash magnet txnID : String) (now : ℤ) (segments : GoMap ℕ CueSegment)
    (plans : List AudioProjectionPlan) : List Metadb.AudioProjection :=
  ((plans.zip intent.files).zipIdx.filter fun x => x.1.1.status = .created).map fun x =>
    projectionRow fold intent engineHash magnet txnID now segments x.1.1 x.1.2 x.2

/-! ### Answers of the registry -/

def registryLookup (db : Registry) : AudioProjectionLookup where
  getAudioProjection sec virtualPath := .ok (db.getAudioProjection sec virtualPath)
  audioProjectionBySource hash fileIndex cueTrack :=
    .ok (db.audioProjectionBySource hash fileIndex cueTrack)
  audioProjectionByPortableKey sec portableKey :=
    .ok (db.audioProjectionByPortableKey sec portableKey)

/-- A read that does not fail reads the registry. -/
structure AudioProjectionLookup.Answers (lookup : AudioProjectionLookup) (db : Registry) :
    Prop where
  path : ∀ {sec path r}, lookup.getAudioProjection sec path = .ok r →
    r = db.getAudioProjection sec path
  source : ∀ {hash i track r}, lookup.audioProjectionBySource hash i track = .ok r →
    r = db.audioProjectionBySource hash i track
  portableKey : ∀ {sec key r}, lookup.audioProjectionByPortableKey sec key = .ok r →
    r = db.audioProjectionByPortableKey sec key

lemma answers_registryLookup (db : Registry) : (registryLookup db).Answers db :=
  ⟨fun h => (Except.ok.inj h).symm, fun h => (Except.ok.inj h).symm, fun h => (Except.ok.inj h).symm⟩

section Classify

variable {fold : String → String} {lookup : AudioProjectionLookup} {db : Registry}
  {sec : AudioSection} {hash : String} {virtualPath : RelPath} {source : ResolvedSource}
  {cueTrack : ℤ} {plan : AudioProjectionPlan}

/-- No row of the registry is in the way of a new projection. -/
structure Vacant (fold : String → String) (db : Registry) (sec : AudioSection) (hash : String)
    (virtualPath : RelPath) (source : ResolvedSource) (cueTrack : ℤ) : Prop where
  path : ∀ r ∈ db.rows, r.sec = sec → r.virtualPath ≠ virtualPath
  portableKey : ∀ r ∈ db.rows, r.sec = sec → r.portablePathKey ≠ portablePathKey fold virtualPath
  source : ∀ r ∈ db.rows, r.hash = hash → r.fileIndex = source.fileIndex → r.cueTrack ≠ cueTrack

lemma classify_cases (hans : lookup.Answers db)
    (h : classifyAudioProjection fold lookup sec hash virtualPath source cueTrack = .ok plan) :
    (∃ r, db.row ⟨sec, virtualPath⟩ = some r ∧ HoldsContent r hash source cueTrack ∧
      plan = ⟨virtualPath, source, .present, some r⟩) ∨
    (Vacant fold db sec hash virtualPath source cueTrack ∧
      plan = ⟨virtualPath, source, .created, none⟩) := by
  unfold classifyAudioProjection at h
  cases hpath : lookup.getAudioProjection sec virtualPath with
  | error e => simp [hpath] at h
  | ok found =>
    have hrow := hans.path hpath
    rw [hpath] at h
    cases found with
    | some r =>
      dsimp only at h
      split_ifs at h with hholds
      exact Or.inl ⟨r, hrow.symm, hholds, (Except.ok.inj h).symm⟩
    | none =>
      dsimp only at h
      cases hkey : lookup.audioProjectionByPortableKey sec (portablePathKey fold virtualPath) with
      | error e => simp [hkey] at h
      | ok owner =>
        have howner := hans.portableKey hkey
        rw [hkey] at h
        cases owner with
        | some r => simp at h
        | none =>
          cases hsource : lookup.audioProjectionBySource hash source.fileIndex cueTrack with
          | error e => simp [hsource] at h
          | ok taker =>
            have htaker := hans.source hsource
            rw [hsource] at h
            cases taker with
            | some r => simp at h
            | none =>
              refine Or.inr ⟨⟨fun r hr hs hp => ?_, fun r hr hs hp => ?_,
                fun r hr hh hi hc => ?_⟩, (Except.ok.inj h).symm⟩
              · exact row_eq_none_iff.mp hrow.symm r hr
                  (by rw [Metadb.AudioProjection.path, hs, hp])
              · have := find?_eq_none.mp howner.symm r hr
                simp [hs, hp] at this
              · have := find?_eq_none.mp htaker.symm r hr
                simp [hh, hi, hc] at this

lemma classify_present {r : Metadb.AudioProjection} (hrow : db.row ⟨sec, virtualPath⟩ = some r)
    (hholds : HoldsContent r hash source cueTrack) :
    classifyAudioProjection fold (registryLookup db) sec hash virtualPath source cueTrack
      = .ok ⟨virtualPath, source, .present, some r⟩ := by
  have hget : (registryLookup db).getAudioProjection sec virtualPath = .ok (some r) :=
    congrArg Except.ok hrow
  simp only [classifyAudioProjection, hget, if_pos hholds]

end Classify

/-! ### The loop over the request -/

section Loop

variable {fold : String → String} {lookup : AudioProjectionLookup} {sec : AudioSection}
  {hash : String} {jobs : List (AudioFileRequest × ResolvedSource)}
  {plans : List AudioProjectionPlan}

/-- Two files of one request that share neither portable key nor source. -/
def Apart (fold : String → String) (a b : AudioFileRequest × ResolvedSource) : Prop :=
  portablePathKey fold a.1.path ≠ portablePathKey fold b.1.path ∧
    (a.2.fileIndex, a.1.cueTrack) ≠ (b.2.fileIndex, b.1.cueTrack)

/-- The file's key and source are still free. -/
def Unclaimed (fold : String → String) (claimedBy : GoMap (ℤ × ℤ) RelPath)
    (keyClaimedBy : GoMap String RelPath) (job : AudioFileRequest × ResolvedSource) : Prop :=
  keyClaimedBy.lookup (portablePathKey fold job.1.path) = none ∧
    claimedBy.lookup (job.2.fileIndex, job.1.cueTrack) = none

lemma unclaimed_insert_iff {claimedBy : GoMap (ℤ × ℤ) RelPath} {keyClaimedBy : GoMap String RelPath}
    {a b : AudioFileRequest × ResolvedSource} {p q : RelPath} :
    Unclaimed fold (claimedBy.insert (a.2.fileIndex, a.1.cueTrack) p)
        (keyClaimedBy.insert (portablePathKey fold a.1.path) q) b ↔
      Apart fold a b ∧ Unclaimed fold claimedBy keyClaimedBy b := by
  unfold Unclaimed Apart
  rw [AList.lookup_eq_none, AList.lookup_eq_none, AList.lookup_eq_none, AList.lookup_eq_none,
    AList.mem_insert, AList.mem_insert, not_or, not_or]
  constructor
  · rintro ⟨⟨hk, hk'⟩, hs, hs'⟩
    exact ⟨⟨Ne.symm hk, Ne.symm hs⟩, hk', hs'⟩
  · rintro ⟨⟨hk, hs⟩, hk', hs'⟩
    exact ⟨⟨Ne.symm hk, hk'⟩, Ne.symm hs, hs'⟩

/-- The plan of one file. -/
def Plans (fold : String → String) (lookup : AudioProjectionLookup) (sec : AudioSection)
    (hash : String) (job : AudioFileRequest × ResolvedSource) (plan : AudioProjectionPlan) : Prop :=
  classifyAudioProjection fold lookup sec hash job.1.path job.2 job.1.cueTrack = .ok plan

lemma planFrom_eq_ok_iff {claimedBy : GoMap (ℤ × ℤ) RelPath} {keyClaimedBy : GoMap String RelPath} :
    planFrom fold lookup sec hash claimedBy keyClaimedBy jobs = .ok plans ↔
      List.Forall₂ (Plans fold lookup sec hash) jobs plans ∧ jobs.Pairwise (Apart fold) ∧
        ∀ job ∈ jobs, Unclaimed fold claimedBy keyClaimedBy job := by
  induction jobs generalizing claimedBy keyClaimedBy plans with
  | nil => simp [planFrom, eq_comm]
  | cons job jobs ih =>
    obtain ⟨request, source⟩ := job
    rw [forall₂_cons_left_iff, pairwise_cons, forall_mem_cons, planFrom]
    cases hplan : classifyAudioProjection fold lookup sec hash request.path source
        request.cueTrack with
    | error e => simp [Plans, hplan]
    | ok plan =>
      cases hkey : keyClaimedBy.lookup (portablePathKey fold request.path) with
      | some previous => simp [Unclaimed, hkey]
      | none =>
        cases hsource : claimedBy.lookup (source.fileIndex, request.cueTrack) with
        | some previous => simp [Unclaimed, hkey, hsource]
        | none =>
          dsimp only
          rw [hkey, hsource]
          constructor
          · intro h
            cases hrest : planFrom fold lookup sec hash
                (claimedBy.insert (source.fileIndex, request.cueTrack) request.path)
                (keyClaimedBy.insert (portablePathKey fold request.path) request.path)
                jobs with
            | error e => simp [hrest, Except.map] at h
            | ok rest =>
              rw [hrest] at h
              obtain ⟨hall, happart, hfree⟩ := ih.mp hrest
              have hboth := fun b hb =>
                (unclaimed_insert_iff (a := (request, source))).mp (hfree b hb)
              exact ⟨⟨plan, rest, hplan, hall, (Except.ok.inj h).symm⟩,
                ⟨fun b hb => (hboth b hb).1, happart⟩, ⟨hkey, hsource⟩,
                fun b hb => (hboth b hb).2⟩
          · rintro ⟨⟨plan', rest, hplan', hall, rfl⟩, ⟨hhead, happart⟩, -, hfree⟩
            obtain rfl : plan = plan' := Except.ok.inj (hplan.symm.trans hplan')
            have hrest := ih.mpr ⟨hall, happart, fun b hb =>
              (unclaimed_insert_iff (a := (request, source)) (p := request.path)
                (q := request.path)).mpr ⟨hhead b hb, hfree b hb⟩⟩
            rw [hrest]
            rfl

lemma planAudioProjections_eq_ok_iff {requests : List AudioFileRequest}
    {sources : List ResolvedSource} :
    planAudioProjections fold lookup sec hash requests sources = .ok plans ↔
      requests.length = sources.length ∧
        List.Forall₂ (Plans fold lookup sec hash) (requests.zip sources) plans ∧
        (requests.zip sources).Pairwise (Apart fold) := by
  unfold planAudioProjections
  split_ifs with hlen
  · simp [hlen]
  · rw [planFrom_eq_ok_iff]
    simp [not_not.mp hlen, Unclaimed]

end Loop

/-! ### Staging a plan and planning it again -/

section Replay

variable {fold : String → String} {lookup : AudioProjectionLookup} {db : Registry}
  {sec : AudioSection} {hash : String} {files : List AudioFileRequest}
  {sources : List ResolvedSource} {plans : List AudioProjectionPlan}

lemma mem_of_mem_zipIdx {α : Type} {l : List α} {x : α × ℕ} (h : x ∈ l.zipIdx) : x.1 ∈ l := by
  rw [← zipIdx_map_fst 0 l]
  exact mem_map_of_mem h

lemma exists_mem_zipIdx {α : Type} {l : List α} {a : α} (h : a ∈ l) : ∃ i, (a, i) ∈ l.zipIdx := by
  rw [← zipIdx_map_fst 0 l] at h
  obtain ⟨⟨_, i⟩, hi, rfl⟩ := mem_map.mp h
  exact ⟨i, hi⟩

/-- The plans stand in request order, each with the source it was made for. -/
lemma zip_plans (hans : lookup.Answers db) (hlen : files.length = sources.length)
    (hall : List.Forall₂ (Plans fold lookup sec hash) (files.zip sources) plans) :
    (plans.zip files).map (fun x => (x.2, x.1.source)) = files.zip sources ∧
      ∀ x ∈ plans.zip files, x.1.virtualPath = x.2.path ∧
        Plans fold lookup sec hash (x.2, x.1.source) x.1 := by
  induction files generalizing sources plans with
  | nil => simp
  | cons file files ih =>
    cases sources with
    | nil => simp at hlen
    | cons source sources =>
      rw [zip_cons_cons] at hall
      obtain ⟨plan, rest, hplan, hrest, rfl⟩ := forall₂_cons_left_iff.mp hall
      obtain ⟨hmap, hmem⟩ := ih (by simpa using hlen) hrest
      have hfields : plan.virtualPath = file.path ∧ plan.source = source := by
        rcases classify_cases hans hplan with ⟨_, -, -, rfl⟩ | ⟨-, rfl⟩ <;> exact ⟨rfl, rfl⟩
      obtain ⟨hpath, rfl⟩ := hfields
      refine ⟨by simp [hmap], fun x hx => ?_⟩
      rw [zip_cons_cons] at hx
      rcases mem_cons.mp hx with rfl | hx
      · exact ⟨hpath, hplan⟩
      · exact hmem x hx

variable {intent : AudioAddRequest} {magnet txnID : String} {now : ℤ}
  {segments : GoMap ℕ CueSegment}

/-- What is to be created clashes with nothing in the registry and not with
itself. -/
lemma distinct_projectionRows (hans : lookup.Answers db)
    (hplan : planAudioProjections fold lookup intent.sec hash intent.files sources = .ok plans) :
    (db.rows ++ projectionRows fold intent hash magnet txnID now segments plans).Pairwise
      Distinct := by
  obtain ⟨hlen, hall, hapart⟩ := planAudioProjections_eq_ok_iff.mp hplan
  obtain ⟨hmap, hmem⟩ := zip_plans hans hlen hall
  rw [← hmap, pairwise_map] at hapart
  refine pairwise_append.mpr ⟨db.unique, ?_, fun r hr p hp => ?_⟩
  · refine pairwise_map.mpr (List.Pairwise.filter _ ?_)
    have hzip : (plans.zip intent.files).zipIdx.Pairwise fun x y =>
        Apart fold (x.1.2, x.1.1.source) (y.1.2, y.1.1.source) := by
      rwa [← zipIdx_map_fst 0 (plans.zip intent.files), pairwise_map] at hapart
    refine hzip.imp_of_mem fun {x y} hx hy hxy => ?_
    have hxp := (hmem x.1 (mem_of_mem_zipIdx hx)).1
    have hyp := (hmem y.1 (mem_of_mem_zipIdx hy)).1
    refine ⟨fun hclash => ?_, fun hclash => hxy.2 (Prod.ext hclash.2.1 hclash.2.2)⟩
    have hkey : portablePathKey fold x.1.1.virtualPath = portablePathKey fold y.1.1.virtualPath :=
      hclash.2.elim (congrArg (portablePathKey fold)) id
    rw [hxp, hyp] at hkey
    exact hxy.1 hkey
  · obtain ⟨x, hx, rfl⟩ := mem_map.mp hp
    obtain ⟨hxmem, hcreated⟩ := mem_filter.mp hx
    obtain ⟨hpath, hx'⟩ := hmem x.1 (mem_of_mem_zipIdx hxmem)
    rcases classify_cases hans hx' with ⟨_, -, -, hpres⟩ | ⟨hvacant, -⟩
    · rw [hpres] at hcreated
      cases hcreated
    · refine ⟨fun hclash => ?_, fun hclash => hvacant.source r hr hclash.1 hclash.2.1 hclash.2.2⟩
      rcases hclash.2 with hsame | hsame
      · exact hvacant.path r hr hclash.1 (hsame.trans hpath)
      · exact hvacant.portableKey r hr hclash.1 (hsame.trans (by rw [← hpath]; rfl))

/-- The row of every file, present or created, once the batch is committed. -/
lemma holds_after_commit (hans : lookup.Answers db) {later : ℤ} {db' : Registry}
    (hstage : db.stageAudioProjections txnID
      (projectionRows fold intent hash magnet txnID now segments plans) = .ok db')
    {x : AudioProjectionPlan × AudioFileRequest} (hx : x ∈ plans.zip intent.files)
    (hpath : x.1.virtualPath = x.2.path)
    (hplan : Plans fold lookup intent.sec hash (x.2, x.1.source) x.1) :
    ∃ r, (db'.commitAudioProjections txnID later).1.row ⟨intent.sec, x.2.path⟩ = some r ∧
      HoldsContent r hash x.1.source x.2.cueTrack := by
  have hrows := rows_stageAudioProjections hstage
  have hcommit : ∀ r ∈ db'.rows, (if stagedBy txnID r then
      r.withState .committed later else r) ∈ (db'.commitAudioProjections txnID later).1.rows :=
    fun r hr => mem_map_of_mem hr
  rcases classify_cases hans hplan with ⟨r, hrow, hholds, -⟩ | ⟨-, hcreated⟩
  · obtain ⟨hr, hrpath⟩ := row_eq_some_iff.mp hrow
    have hkept := hcommit r (by rw [hrows]; exact mem_append_left _ hr)
    have hnot : stagedBy txnID r = false := by simp [stagedBy, hholds.1]
    rw [hnot] at hkept
    exact ⟨r, row_eq_some_iff.mpr ⟨hkept, hrpath⟩, hholds⟩
  · obtain ⟨i, hi⟩ := exists_mem_zipIdx hx
    have hstatus : x.1.status = .created := congrArg AudioProjectionPlan.status hcreated
    set p := projectionRow fold intent hash magnet txnID now segments x.1 x.2 i
    have hp : p ∈ projectionRows fold intent hash magnet txnID now segments plans :=
      mem_map.mpr ⟨(x, i), mem_filter.mpr ⟨hi, by simp [hstatus]⟩, rfl⟩
    have hin : p ∈ db'.rows := by
      rw [hrows]
      exact mem_append_right _ (mem_map.mpr ⟨p, hp, rfl⟩)
    have hdone := hcommit p hin
    have hstaged : stagedBy txnID p = true := by simp [stagedBy, p, projectionRow]
    rw [if_pos hstaged] at hdone
    refine ⟨_, row_eq_some_iff.mpr ⟨hdone, ?_⟩, rfl, rfl, rfl, rfl, rfl, rfl⟩
    show AudioPath.mk intent.sec x.1.virtualPath = _
    rw [hpath]

/-- A plan that succeeds can be staged without tripping a UNIQUE constraint,
and after the commit the same request plans to nothing but present files. -/
theorem replanning_after_commit_is_noop (later : ℤ) (hans : lookup.Answers db)
    (hplan : planAudioProjections fold lookup intent.sec hash intent.files sources = .ok plans) :
    let rows := projectionRows fold intent hash magnet txnID now segments plans
    (db.rows ++ rows).Pairwise Distinct ∧
    (∀ e, db.stageAudioProjections txnID rows = .error e →
      e = .identityIncomplete ∨ e = .constraint) ∧
    ∀ db', db.stageAudioProjections txnID rows = .ok db' →
      ∃ again, planAudioProjections fold
          (registryLookup (db'.commitAudioProjections txnID later).1) intent.sec hash intent.files
          sources = .ok again ∧
        again.length = intent.files.length ∧ (∀ plan ∈ again, plan.status = .present) ∧
        projectionRows fold intent hash magnet txnID now segments again = [] := by
  intro rows
  have hdis : (db.rows ++ rows).Pairwise Distinct := distinct_projectionRows hans hplan
  refine ⟨hdis, fun e he => stage_error_of_distinct hdis he, fun db' hstage => ?_⟩
  obtain ⟨hlen, hall, hapart⟩ := planAudioProjections_eq_ok_iff.mp hplan
  obtain ⟨hmap, hmem⟩ := zip_plans hans hlen hall
  set done := (db'.commitAudioProjections txnID later).1
  have hpresent : ∀ job : AudioFileRequest × ResolvedSource, ∃ plan : AudioProjectionPlan,
      job ∈ intent.files.zip sources →
        Plans fold (registryLookup done) intent.sec hash job plan ∧ plan.status = .present := by
    intro job
    by_cases hjob : job ∈ intent.files.zip sources
    · rw [← hmap] at hjob
      obtain ⟨x, hx, rfl⟩ := mem_map.mp hjob
      obtain ⟨r, hrow, hholds⟩ := holds_after_commit hans hstage hx (hmem x hx).1 (hmem x hx).2
      exact ⟨_, fun _ => ⟨classify_present hrow hholds, rfl⟩⟩
    · exact ⟨⟨[], job.2, .present, none⟩, fun h => absurd h hjob⟩
  choose again hagain using hpresent
  have hstatus : ∀ plan ∈ (intent.files.zip sources).map again, plan.status = .present := by
    intro plan hp
    obtain ⟨job, hjob, rfl⟩ := mem_map.mp hp
    exact (hagain job hjob).2
  refine ⟨(intent.files.zip sources).map again, planAudioProjections_eq_ok_iff.mpr
    ⟨hlen, forall₂_map_right_iff.mpr (forall₂_same.mpr fun job hjob =>
      (hagain job hjob).1), hapart⟩, by simp [hlen], hstatus, ?_⟩
  · rw [projectionRows, filter_eq_nil_iff.mpr, map_nil]
    intro x hx
    have hmem := (of_mem_zip (mem_of_mem_zipIdx hx)).1
    simp [hstatus x.1.1 hmem]

end Replay

/-- Two tracks of one torrent, the second of them cut from an image. -/
def twoTracks : AudioAddRequest where
  sec := .music
  title := "Artist - Album"
  files := [⟨"01 - Intro.flac", ["Artist", "Album", "01 - Intro_01234567.flac"], "", "", 0⟩,
    ⟨"CD2/image.flac", ["Artist", "Album", "02 - Outro_01234567.flac"], "", "", 2⟩]

def twoSources : List ResolvedSource := [⟨"01 - Intro.flac", 1, 100⟩, ⟨"CD2/image.flac", 2, 40⟩]

def albumHash : String := "0123456789abcdef0123456789abcdef01234567"

def twoPlans : List AudioProjectionPlan :=
  [⟨["Artist", "Album", "01 - Intro_01234567.flac"], ⟨"01 - Intro.flac", 1, 100⟩, .created, none⟩,
    ⟨["Artist", "Album", "02 - Outro_01234567.flac"], ⟨"CD2/image.flac", 2, 40⟩, .created, none⟩]

def twoRows : List Metadb.AudioProjection :=
  projectionRows toLowerASCII twoTracks albumHash "" "00112233445566778899aabb" 7 ∅ twoPlans

theorem replanning_two_tracks_is_noop :
    planAudioProjections toLowerASCII (registryLookup .empty) twoTracks.sec albumHash
      twoTracks.files twoSources = .ok twoPlans ∧
    ∃ db' again, empty.stageAudioProjections "00112233445566778899aabb" twoRows = .ok db' ∧
      planAudioProjections toLowerASCII
        (registryLookup (db'.commitAudioProjections "00112233445566778899aabb" 8).1) twoTracks.sec
        albumHash twoTracks.files twoSources = .ok again ∧
      again.length = 2 ∧ ∀ plan ∈ again, plan.status = .present := by
  have hplan : planAudioProjections toLowerASCII (registryLookup .empty) twoTracks.sec albumHash
      twoTracks.files twoSources = .ok twoPlans := rfl
  have hstaged : (empty.stageAudioProjections "00112233445566778899aabb"
      twoRows).toOption.isSome = true := by decide +kernel
  refine ⟨hplan, ?_⟩
  cases hstage : empty.stageAudioProjections "00112233445566778899aabb" twoRows with
  | error e => exact absurd hstaged (by simp [hstage, Except.toOption])
  | ok db' =>
    obtain ⟨again, hagain, hlen, hpresent, -⟩ :=
      (replanning_after_commit_is_noop 8 (answers_registryLookup .empty) hplan).2.2 db' hstage
    exact ⟨db', again, rfl, hagain, hlen, hpresent⟩

end Tiramisu.Library
