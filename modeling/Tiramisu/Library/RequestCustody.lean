import Tiramisu.Library.DropGuard

/-!
# Requests keep custody

Every request keeps its side of `libraryParties`: a stub is written and a row
is staged only under the lock of a torrent the engine has just answered for, a
failed audio add takes back only a torrent that nobody referred to before it,
and every other drop is checked.
-/

namespace Tiramisu.Library

open Posix Protocol Program
open Go
open Metadb (AudioSection RelPath)

variable {cfg : LibraryConfig} {pid : ℕ} {s s' : LibraryState} {α : Type} {hash : String}
variable {R : α → Prop} {req : VideoRequest} {lockKey : String} {preexisting : Bool}
  {sec : AudioSection} {path : Path} {prior : List Previous} {now : ℤ}

/-! ### What the store programs call -/

lemma uses_call_bind {P : StoreCall → Prop} {o : StoreCall}
    {f : o.Res → StoreProg α} (h : P o) (hf : ∀ r, (f r).Uses P R) : (call o >>= f).Uses P R :=
  ⟨h, hf⟩

lemma uses_mkdirAllRev {names : List String} :
    (mkdirAllRev names).Only StoreCall.Mild := by
  induction names with
  | nil => exact uses_done
  | cons name above ih =>
    refine uses_call_bind trivial fun r => ?_
    rcases r with e | _ | _
    · refine ih.bind fun r _ => ?_
      rcases r with e | _
      · exact uses_done
      refine uses_call_bind trivial fun r => ?_
      rcases r with e | _
      · refine uses_call_bind trivial fun r => ?_
        rcases r with e | _ | _ <;> exact uses_done
      · exact uses_done
    · exact uses_done
    · exact uses_done

lemma uses_deleteStub : (deleteStub path).Only StoreCall.Mild := by
  refine uses_call_bind trivial fun r => ?_
  cases r <;> exact uses_done

lemma uses_walkNames {visit : Path → StoreProg (List Path × Option Errno)} {dir : Path}
    {names : List String} (h : ∀ path, (visit path).Only StoreCall.Mild) :
    (walkNames visit dir names).Only StoreCall.Mild := by
  induction names with
  | nil => exact uses_done
  | cons name names ih =>
    refine (h _).bind fun a _ => ?_
    obtain ⟨found, err⟩ := a
    cases err with
    | some e => exact uses_done
    | none => exact ih.bind fun b _ => uses_done

lemma uses_walkBelow {depth : ℕ} {listed : Bool} :
    (walkBelow depth listed path).Only StoreCall.Mild := by
  induction depth generalizing listed path with
  | zero => exact uses_done
  | succ depth ih =>
    refine uses_call_bind trivial fun r => ?_
    rcases r with e | _ | _
    · exact uses_done
    · exact uses_done
    · refine uses_call_bind trivial fun r => ?_
      cases r with
      | error e => exact uses_done
      | ok names => exact uses_walkNames fun _ => ih

lemma uses_findByHash {kind : Kind} :
    (findByHash cfg kind hash).Only StoreCall.Mild := by
  refine Uses.bind uses_walkBelow fun a _ => ?_
  dsimp only
  split_ifs <;> exact uses_done

lemma uses_alreadyPresent : (alreadyPresent cfg req).Only StoreCall.Mild := by
  unfold alreadyPresent
  cases req.kind with
  | movie => exact uses_findByHash
  | tv =>
    split_ifs
    · exact uses_done
    · refine uses_call_bind trivial fun r => ?_
      cases r <;> exact uses_done

lemma uses_firstStub {paths : List Path} :
    (firstStub cfg paths).Only StoreCall.Mild := by
  induction paths with
  | nil => exact uses_done
  | cons path paths ih =>
    unfold firstStub
    split_ifs
    · refine uses_call_bind trivial fun r => ?_
      cases r with
      | error e => exact ih
      | ok isDir =>
        dsimp only
        split_ifs <;> exact uses_done
    · exact ih

lemma uses_findEverywhere : (findEverywhere cfg hash).Only StoreCall.Mild := by
  refine uses_findByHash.bind fun r _ => ?_
  cases r with
  | none => exact uses_done
  | some movies =>
    refine uses_findByHash.bind fun r _ => ?_
    cases r <;> exact uses_done

lemma uses_removeTargets {target : RemoveTarget} :
    (removeTargets cfg target).Only StoreCall.Mild := by
  cases target with
  | path absolute path =>
    have hpath : (resolveInsideMediaDirs cfg absolute path).Only StoreCall.Mild := by
      unfold resolveInsideMediaDirs
      split_ifs <;> exact uses_firstStub
    exact hpath.bind fun _ _ => uses_done
  | hash hash =>
    cases Classical.em (InfoHash (normalized hash)) with
    | inl h =>
      rw [removeTargets, if_pos h]
      exact uses_findEverywhere
    | inr h =>
      rw [removeTargets, if_neg h]
      exact uses_done

lemma uses_forgetEpisode : (forgetEpisode path).Only StoreCall.Mild := by
  have hdelete : ∀ keys : List String, (deleteEpisodes keys).Only StoreCall.Mild := by
    intro keys
    induction keys with
    | nil => exact uses_done
    | cons key keys ih => exact uses_call_bind trivial fun _ => ih
  refine uses_call_bind trivial fun r => ?_
  cases r with
  | none => exact uses_done
  | some keys => exact hdelete keys

lemma uses_removeStubs {blacklist : Bool} {paths : List Path} :
    (removeStubs blacklist paths).Only StoreCall.Mild := by
  induction paths with
  | nil => exact uses_done
  | cons path paths ih =>
    have hhash : (stubHash path).Only StoreCall.Mild := by
      refine uses_call_bind trivial fun r => ?_
      cases r <;> exact uses_done
    have hblack : ∀ hash, (blacklistStub blacklist path hash).Only StoreCall.Mild := by
      intro hash
      cases hash with
      | none => exact uses_done
      | some hash =>
        rw [blacklistStub]
        split_ifs
        · exact uses_op trivial
        · exact uses_done
    refine hhash.bind fun hash _ => uses_deleteStub.bind fun gone _ => ?_
    cases gone with
    | false => exact ih
    | true =>
      refine (hblack hash).bind fun _ _ => uses_forgetEpisode.bind fun _ _ => ?_
      exact ih.bind fun _ _ => uses_done

lemma uses_rollbackEpisodes : (rollbackEpisodes req prior).Only StoreCall.Mild := by
  induction prior with
  | nil => exact uses_done
  | cons p prior ih =>
    have hstub : (undoStub p).Only StoreCall.Mild := by
      unfold undoStub
      split_ifs
      · exact uses_done
      · exact uses_deleteStub
    have hentry : (restoreEntry req p).Only StoreCall.Mild := by
      unfold restoreEntry
      cases p.entry <;> exact uses_op trivial
    exact hstub.bind fun _ _ => hentry.bind fun _ _ => ih

lemma uses_retireReplaced : (retireReplaced hash prior).Only StoreCall.Mild := by
  induction prior with
  | nil => exact uses_done
  | cons p prior ih =>
    have hone : (retireEpisode hash p).Only StoreCall.Mild := by
      unfold retireEpisode
      cases p.entry with
      | none => exact uses_done
      | some entry =>
        dsimp only
        split_ifs
        · exact uses_done
        · exact uses_deleteStub.bind fun _ _ => uses_done
    exact hone.bind fun _ _ => ih.bind fun _ _ => uses_done

/-! ### Filing -/

/-- The calls of an add that files the stubs of one torrent. -/
def StoreCall.Files (cfg : LibraryConfig) (hash : String) : StoreCall → Prop
  | .writeFile p data => Placed cfg p hash ∧ readStubHash data = some hash
  | o => o.Mild

lemma StoreCall.Mild.files_for {o : StoreCall} (h : o.Mild) : o.Files cfg hash := by
  cases o with
  | writeFile | removeTorrent => exact h.elim
  | _ => exact h

lemma Uses.files {p : StoreProg α} (h : p.Uses StoreCall.Mild R) :
    p.Uses (StoreCall.Files cfg hash) R :=
  h.mono (fun _ ho => ho.files_for) fun _ ha => ha

lemma readStubHash_videoStub (hhex : HexHash hash) (id size : ℤ) (magnet imdb : String) :
    readStubHash (videoStub (cfg.streamURL hash id) size magnet imdb) = some hash :=
  linkHash_streamURL cfg.linkless hhex id

lemma pathText_concat (dir : Path) (name : String) :
    pathText (dir ++ [name]) = pathText dir ++ "/" ++ name := by
  simp [pathText]

/-- A name that ends in the hash's eight characters is found by them. -/
lemma namedFor_of_suffix {kind : Kind} {dir : Path} {base : String} :
    namedFor kind hash (dir ++ [base ++ "_" ++ hash8 kind hash ++ ".mkv"]) = true := by
  have hlower : ∀ t : String, toLowerASCII ("_" ++ t ++ ".mkv") = "_" ++ toLowerASCII t ++ ".mkv" := by
    intro t
    rw [toLowerASCII_append, toLowerASCII_append]
    rfl
  have htext : pathText (dir ++ [base ++ "_" ++ hash8 kind hash ++ ".mkv"])
      = (pathText dir ++ "/" ++ base) ++ ("_" ++ hash8 kind hash ++ ".mkv") := by
    simp [pathText_concat, String.append_assoc]
  rw [namedFor, htext, toLowerASCII_append, hlower]
  exact hasSuffix_append _ _

lemma placed_moviePath (req : VideoRequest) : Placed cfg (moviePath cfg req hash) hash :=
  ⟨.movie, List.prefix_append _ _, namedFor_of_suffix⟩

lemma placed_episodePath (req : VideoRequest) (season episode : ℕ) :
    Placed cfg (episodePath cfg req season episode hash) hash := by
  refine ⟨.tv, (List.prefix_append _ _).trans (List.prefix_append _ _), ?_⟩
  have hpath : episodePath cfg req season episode hash
      = cfg.tvDir ++ req.showFolder ++ [seasonDirName season] ++
        [req.cleanShow ++ "_S" ++ pad2 season ++ "E" ++ pad2 episode ++ "_" ++ hash8 .tv hash ++
          ".mkv"] := by
    simp [episodePath, episodeFilename, hash8]
  rw [hpath]
  exact namedFor_of_suffix

lemma uses_writeStub {id size : ℤ} {magnet imdb : String} (hhex : HexHash hash)
    (hplaced : Placed cfg path hash) :
    (writeStub path (cfg.streamURL hash id) size magnet imdb).Only (StoreCall.Files cfg hash) := by
  refine Uses.bind (Uses.files uses_mkdirAllRev) fun r _ => ?_
  cases r with
  | error e => exact uses_done
  | ok _ => exact uses_op ⟨hplaced, readStubHash_videoStub hhex id size magnet imdb⟩

lemma uses_addMovie {files : List FileStat} (hhex : HexHash hash) :
    (addMovie cfg req hash files).Only (StoreCall.Files cfg hash) := by
  unfold addMovie
  cases pickFile req.fileIndex files with
  | none => exact uses_done
  | some file =>
    refine (uses_writeStub hhex (placed_moviePath req)).bind fun r _ => ?_
    cases r <;> exact uses_done

lemma uses_fileEpisodes {wanted : List EpisodeFile} (hhex : HexHash hash) :
    (fileEpisodes cfg req hash prior wanted).Only (StoreCall.Files cfg hash) := by
  induction wanted generalizing prior with
  | nil => exact uses_done
  | cons w wanted ih =>
    have hback : ∀ prior : List Previous, (rollbackEpisodes req prior >>= fun _ =>
        (pure none : StoreProg (Option (List Previous)))).Only (StoreCall.Files cfg hash) :=
      fun prior => Uses.bind (Uses.files uses_rollbackEpisodes) fun _ _ => uses_done
    refine uses_call_bind trivial fun prev => ?_
    cases prev with
    | none => exact hback prior
    | some prev =>
      refine uses_call_bind trivial fun st => ?_
      refine (uses_writeStub hhex (placed_episodePath req _ _)).bind fun r _ => ?_
      cases r with
      | error e => exact hback prior
      | ok _ =>
        refine uses_call_bind trivial fun stored => ?_
        cases stored with
        | true => exact ih
        | false => exact hback _

lemma uses_fileKind {files : List FileStat} (hhex : HexHash hash) :
    (fileKind cfg req hash files).Only (StoreCall.Files cfg hash) := by
  unfold fileKind
  cases req.kind with
  | movie => exact (uses_addMovie hhex).bind fun _ _ => uses_done
  | tv =>
    dsimp only [addEpisodes]
    cases wantedFiles req files with
    | none => exact uses_done
    | some wanted =>
      refine (uses_fileEpisodes hhex).bind fun r _ => ?_
      cases r with
      | none => exact uses_done
      | some prior => exact Uses.bind (Uses.files uses_retireReplaced) fun _ _ => uses_done

/-- Every lock of the request stays with it. -/
def KeepsLocks (pid : ℕ) (s s' : LibraryState) : Prop :=
  ∀ key, HoldsLock pid key s → HoldsLock pid key s'

lemma LibRely.keepsLocks (h : LibRely pid s s') : KeepsLocks pid s s' := fun _ hk => hk.rely h

lemma storeRuns_files {p : StoreProg α} (hp : p.Uses (StoreCall.Files cfg hash) R)
    (hold : HoldsLock pid hash s) (hin : hash ∈ s.store.engine) :
    StoreRuns cfg pid p (fun _ v => KeepsLocks pid s v) s := by
  have hruns : StoreRuns cfg pid p
      (fun a v => R a ∧ (KeepsLocks pid s v ∧ hash ∈ v.store.engine)) s := by
    refine wp_of_uses hp (fun v v' h hr _ => ?_) (fun o c v r u ho _ hi h hex => ?_)
      ⟨fun _ hk => hk, hin⟩
    · have hheld : HoldsLock pid hash v := h.1 hash hold
      exact ⟨fun key hk => (h.1 key hk).rely hr, (hr.respects hash hheld).present h.2⟩
    obtain ⟨⟨r1, u1⟩, hlib, heq⟩ := Option.map_eq_some_iff.mp hex
    obtain ⟨rfl, rfl⟩ := Prod.mk.inj heq
    have hlib' : LibOp.exec cfg pid (.store o) c v = some (r1, u1) := hlib
    have hheld : HoldsLock pid hash v := h.1 hash hold
    have hquiet : o.Mild → LibraryInv cfg u1 ∧ (∀ j, j ≠ pid → LibRely j v u1) ∧
        (KeepsLocks pid s u1 ∧ hash ∈ u1.store.engine) := by
      intro hmild
      have hq : Quiet cfg v u1 := quiet_op (o := .store o) hi hmild hlib'
      exact ⟨hq.inv, hq.effect.guar, fun key hk => (h.1 key hk).rely hq.rely,
        (hq.steady hash).present h.2⟩
    cases o with
    | writeFile path data =>
      obtain ⟨st, hcall, rfl⟩ := exec_store hlib'
      have heff := effect_writeFile hi hheld h.2 ho.1 ho.2 hcall
      refine ⟨heff.inv, heff.guar, h.1, ?_⟩
      show hash ∈ st.engine
      rw [(writeFile_cases v.written hcall).1]
      exact h.2
    | _ => exact hquiet ho
  exact wp_mono (fun _ _ h => h.2.1) hruns

/-- An engine that knows the torrent has it under its hexadecimal hash. -/
lemma exec_getTorrentInfo {c : StoreChoice} {st st' : Store} {files : List FileStat}
    (hex : (StoreCall.getTorrentInfo hash).exec c st = some (some files, st')) :
    hash ∈ st.engine := by
  have hr := (Prod.mk.inj (Option.some.inj hex)).1
  by_contra hnot
  rw [if_neg fun h => hnot h.2] at hr
  cases hr

lemma storeRuns_fileTorrent (hold : HoldsLock pid hash s) :
    StoreRuns cfg pid (fileTorrent cfg req hash) (fun _ v => KeepsLocks pid s v) s := by
  refine storeRuns_read (by trivial) fun v hsv hi c r _ hex => ?_
  have hkeep : ∀ a, StoreRuns cfg pid (pure a) (fun (_ : Option (List Path) × List String) v =>
      KeepsLocks pid s v) v := fun a u hr _ => (hsv.trans hr).keepsLocks
  cases r with
  | none => exact hkeep _
  | some files =>
    have hin : hash ∈ v.store.engine := exec_getTorrentInfo hex
    dsimp only
    split_ifs
    · refine wp_then (storeRuns_files (uses_fileKind (hi.hex hash hin)) (hold.rely hsv) hin)
        fun a u hu => ?_
      exact fun t hr _ key hk => (hu key (hk.rely hsv)).rely hr
    · exact hkeep _

/-! ### Add -/

lemma libRuns_lock {key : String} :
    LibRuns cfg pid (perform (.lock key)) (fun _ v => LibRely pid s v ∧ HoldsLock pid key v) s := by
  refine libRuns_perform fun v hv hi c _ r u hex => ?_
  have hq : Quiet cfg v u := quiet_op (o := .lock key) hi trivial hex
  simp only [LibOp.exec] at hex
  split at hex
  · cases hex
  · cases hex
    have hkey : HoldsLock pid key { v with hashLocks := v.hashLocks.insert key pid } :=
      AList.lookup_insert _
    exact ⟨hq.effect, fun t ht => ⟨hv.trans (hq.rely.trans ht), hkey.rely ht⟩⟩

/-- The answer to an add leads to the torrent that was asked for. -/
lemma libRuns_addTorrent (hvalid : InfoHash hash) :
    LibRuns cfg pid (perform (.store (.addTorrent hash))) (fun r v => LibRely pid s v ∧
      ∀ text, r = some text → InfoHash (normalized text) →
        canonicalHashKey (normalized text) = canonicalHashKey hash) s := by
  refine libRuns_perform fun v hv hi c _ r u hex => ?_
  have hq : Quiet cfg v u := quiet_op (o := .store (.addTorrent hash)) hi hvalid hex
  obtain ⟨st, hcall, rfl⟩ := exec_store hex
  refine ⟨hq.effect, fun t ht => ⟨hv.trans (hq.rely.trans ht), fun text htext hinfo => ?_⟩⟩
  have hnorm : ∀ h : String, InfoHash h → normalized h = h := by
    intro h hh
    refine hex_lower_trim fun c hc => ?_
    cases hh with
    | inl hh => exact .inl (hh.2 c hc)
    | inr hh => exact .inr (hh.2 c hc)
  have hans : c.store.answer.text hash = some text :=
    (Prod.mk.inj (Option.some.inj hcall)).1.trans htext
  cases hanswer : c.store.answer with
  | rejected =>
    rw [hanswer] at hans
    exact absurd hans (by simp [AddAnswer.text])
  | echoed =>
    rw [hanswer] at hans
    rw [← Option.some.inj hans, hnorm hash hvalid]
  | keyed =>
    rw [hanswer] at hans
    have hhex := hexHash_canonicalHashKey hvalid
    rw [← Option.some.inj hans, hnorm _ (.inl hhex), canonicalHashKey_of_hex hhex]
  | malformed bad hbad =>
    rw [hanswer] at hans
    cases hans
    exact absurd hinfo hbad

lemma uses_uploadReleaseFile {file : ReleaseFile} (hvalid : InfoHash hash) :
    (onStore (uploadReleaseFile cfg file hash)).Only LibOp.Mild := by
  have hupload : (uploadReleaseFile cfg file hash).Only StoreCall.Mild := by
    unfold uploadReleaseFile
    split_ifs
    · exact uses_op hvalid
    · exact uses_done
  exact hupload.lift

/-- What `addLocked` leaves to the unlocks: the locks of before, and the second
one if it took it. -/
structure AddedUnder (pid : ℕ) (req : VideoRequest) (s : LibraryState)
    (a : Outcome × List String × Option String) (v : LibraryState) : Prop where
  locks : KeepsLocks pid s v
  second : ∀ key, a.2.2 = some key → HoldsLock pid key v ∧ key ≠ req.hash ∧ InfoHash key
  outcome : a.1 ≠ .projected

/-- The outcome once the lock of the engine's spelling is held too. -/
lemma libRuns_fileTorrent {u : LibraryState} {second : Option String}
    (hlocks : KeepsLocks pid s u) (hheld : HoldsLock pid hash u)
    (hsecond : ∀ key, second = some key → HoldsLock pid key u ∧ key ≠ req.hash ∧ InfoHash key) :
    LibRuns cfg pid (onStore (fileTorrent cfg req hash) >>= fun a =>
      (pure (match a.1 with
        | none => .failed
        | some paths => .filed paths, a.2, second) :
        LibProg (Outcome × List String × Option String))) (AddedUnder pid req s) u := by
  refine wp_then (wp_lift (storeRuns_fileTorrent hheld)) fun a w hw => ?_
  intro t hr _
  refine ⟨fun key hk => (hw key (hlocks key hk)).rely hr, fun key hkey => ?_, ?_⟩
  · obtain ⟨hk, hne, hinfo⟩ := hsecond key hkey
    exact ⟨(hw key hk).rely hr, hne, hinfo⟩
  · cases a.1 <;> simp

lemma libRuns_addLocked (hold : HoldsLock pid req.hash s) :
    LibRuns cfg pid (addLocked cfg req) (AddedUnder pid req s) s := by
  have hreturn : ∀ (v : LibraryState) (outcome : Outcome) (dropped : List String),
      LibRely pid s v → outcome ≠ .projected →
      LibRuns cfg pid (pure (outcome, dropped, none)) (AddedUnder pid req s) v :=
    fun v outcome dropped hv hout u hr _ => ⟨(hv.trans hr).keepsLocks, by simp, hout⟩
  refine libRuns_bind_mild uses_alreadyPresent.lift fun present v _ hv => ?_
  rcases present with _ | _ | ⟨path, paths⟩
  · exact hreturn v _ _ hv (by simp)
  · dsimp only
    split_ifs
    · exact hreturn v _ _ hv (by simp)
    refine libRuns_bind_mild (uses_uploadReleaseFile req.valid) fun _ v1 _ hv1 => ?_
    refine wp_then (libRuns_addTorrent req.valid) fun answer v2 ha => ?_
    obtain ⟨hv2, -⟩ := ha
    have hsv : LibRely pid s v2 := hv.trans (hv1.trans hv2)
    cases Classical.em (answer.isSome ∧ InfoHash (normalized (answer.getD ""))) with
    | inr hno =>
      rw [if_neg hno]
      exact hreturn v2 _ _ hsv (by simp)
    | inl hyes =>
      rw [if_pos hyes]
      generalize normalized (answer.getD "") = hash at hyes ⊢
      unfold lockSecond
      by_cases hsame : hash = req.hash
      · rw [if_pos hsame]
        exact libRuns_fileTorrent hsv.keepsLocks (hsame ▸ hold.rely hsv) (by simp)
      rw [if_neg hsame]
      refine wp_bind (wp_then libRuns_lock fun _ u hu => ?_)
      intro t hr _
      have ht : LibRely pid v2 t := hu.1.trans hr
      refine libRuns_fileTorrent (hsv.trans ht).keepsLocks (hu.2.rely hr) fun key hkey => ?_
      cases hkey
      exact ⟨hu.2.rely hr, hsame, hyes.2⟩
  · exact hreturn v _ _ hv (by simp)

lemma not_infoHash_episodeLock (key : String) : ¬ InfoHash (episodeLock key) := by
  intro h
  have hmem : ':' ∈ (episodeLock key).toList := by simp [episodeLock, String.toList_append]
  cases h with
  | inl h => exact absurd (h.2 ':' hmem) (by decide)
  | inr h => exact absurd (h.2 ':' hmem) (by decide)

/-- The lock of a single episode, where the request takes one. -/
def HoldsEpisode (pid : ℕ) (req : VideoRequest) (s : LibraryState) : Prop :=
  req.kind = .tv → req.episode ≠ 0 →
    HoldsLock pid (episodeLock (episodeKey req.showKey req.season req.episode)) s

lemma libRuns_lockEpisodes :
    LibRuns cfg pid (lockEpisodes req) (fun _ v => LibRely pid s v ∧ HoldsEpisode pid req v) s := by
  unfold lockEpisodes HoldsEpisode
  cases req.kind with
  | movie => exact fun v hr _ => ⟨hr, by simp⟩
  | tv =>
    split_ifs with hpack
    · refine wp_mono (fun _ v hv => ?_) (libRuns_mild (R := fun _ => True) (uses_op (by trivial)))
      exact ⟨hv.2, fun _ h => absurd hpack h⟩
    · refine libRuns_bind_mild (R := fun _ => True) (uses_op (by trivial)) fun _ v _ hv => ?_
      exact wp_mono (fun _ u hu => ⟨hv.trans hu.1, fun _ _ => hu.2⟩) libRuns_lock

lemma libRuns_unlockEpisodes (hep : HoldsEpisode pid req s) (hold : HoldsLock pid req.hash s) :
    LibRuns cfg pid (unlockEpisodes req) (fun _ v => HoldsLock pid req.hash v) s := by
  unfold unlockEpisodes
  cases hkind : req.kind with
  | movie => exact fun v hr _ => hold.rely hr
  | tv =>
    split_ifs with hpack
    · exact wp_mono (fun _ v hv => hold.rely hv.2)
        (libRuns_mild (R := fun _ => True) (uses_op (by trivial)))
    refine wp_then (libRuns_unlock (hep hkind hpack)) fun _ v hv => ?_
    have hne : req.hash ≠ episodeLock (episodeKey req.showKey req.season req.episode) := by
      intro heq
      exact not_infoHash_episodeLock _ (heq ▸ req.valid)
    exact wp_mono (fun _ u hu => (hv.2 _ hne hold).rely hu.2)
      (libRuns_mild (R := fun _ => True) (uses_op (by trivial)))

lemma libRuns_unlockSecond {second : Option String} {P : String → Prop}
    (hsecond : ∀ key, second = some key → HoldsLock pid key s ∧ ¬ P key) :
    LibRuns cfg pid (unlockSecond second) (fun _ v => (pid ∈ v.abandoned ↔ pid ∈ s.abandoned) ∧
      ∀ key, P key → HoldsLock pid key s → HoldsLock pid key v) s := by
  cases second with
  | none => exact fun v hr _ => ⟨hr.abandoned, fun key _ hk => hk.rely hr⟩
  | some key =>
    obtain ⟨hk, hnot⟩ := hsecond key rfl
    refine wp_mono (fun _ v hv => ⟨hv.1, fun k hP hold => hv.2 k (fun heq => ?_) hold⟩)
      (libRuns_unlock hk)
    exact hnot (heq ▸ hP)

/-- What a request ends with. -/
abbrev Ends (pid : ℕ) (outcome : Outcome) (s : LibraryState) : Prop :=
  outcome = .projected → pid ∉ s.abandoned

lemma ends_of_ne {outcome : Outcome} (h : outcome ≠ .projected) :
    LibRuns cfg pid (pure outcome) (Ends pid) s :=
  fun _ _ _ heq => absurd heq h

theorem libRuns_add {S : RangeOrder} : LibRuns cfg pid (Manager.add cfg S req) (Ends pid) s := by
  refine wp_then libRuns_lock fun _ v1 h1 => ?_
  refine wp_then libRuns_lockEpisodes fun _ v2 h2 => ?_
  have hhash : HoldsLock pid req.hash v2 := h1.2.rely h2.1
  refine wp_then (libRuns_addLocked hhash) fun a v3 h3 => ?_
  obtain ⟨outcome, dropped, second⟩ := a
  -- the second lock is another hash's, and none is an episode's
  have hsecond : ∀ key, second = some key → HoldsLock pid key v3 ∧
      ¬ (key = req.hash ∨ ¬ InfoHash key) := by
    intro key hkey
    obtain ⟨hk, hne, hinfo⟩ := h3.second key hkey
    exact ⟨hk, fun h => h.elim hne fun hno => hno hinfo⟩
  refine wp_then (libRuns_unlockSecond hsecond) fun _ v4 h4 => ?_
  have hhash4 : HoldsLock pid req.hash v4 := h4.2 _ (.inl rfl) (h3.locks _ hhash)
  have hep4 : HoldsEpisode pid req v4 := fun hk he =>
    h4.2 _ (.inr (not_infoHash_episodeLock _)) (h3.locks _ (h2.2 hk he))
  refine wp_then (libRuns_unlockEpisodes hep4 hhash4) fun _ v5 h5 => ?_
  refine wp_then (libRuns_unlock h5) fun _ v6 _ => ?_
  exact wp_then libRuns_dropAll fun _ v7 _ => ends_of_ne h3.outcome

/-! ### AddAudio -/

/-- What an audio add knows under its lock: unless the torrent was there before,
nobody else refers to it. -/
structure Sole (pid : ℕ) (lockKey : String) (preexisting : Bool) (s : LibraryState) : Prop where
  held : HoldsLock pid lockKey s
  own : pid ∉ s.abandoned
  only : preexisting = false → ∀ x, (custody s).refers lockKey x → x = .inr pid

lemma Sole.rely (h : Sole pid lockKey preexisting s)
    (hr : LibRely pid s s') : Sole pid lockKey preexisting s' :=
  ⟨h.held.rely hr, fun hp => h.own (hr.abandoned.mp hp),
    fun hpre x hx => h.only hpre x ((hr.respects lockKey h.held).refers x hx)⟩

lemma libRuns_abandonUnless
    (h : Sole pid lockKey preexisting s) (hkey : canonicalHashKey hash = lockKey) :
    LibRuns cfg pid (abandonUnless preexisting hash) (fun _ v => HoldsLock pid lockKey v) s := by
  cases preexisting with
  | true => exact fun v hr _ => h.held.rely hr
  | false =>
    refine wp_bind (libRuns_perform fun v hv hi c _ r u hex => ?_)
    obtain ⟨st, hcall, rfl⟩ := exec_abandon hex
    have hv' := h.rely hv
    have hown : hash ∉ v.store.engine ∨ (v.hashLocks.lookup hash = some pid ∧
        ∀ x, (custody v).refers hash x → x = .inr pid) := by
      by_cases hin : hash ∈ v.store.engine
      · -- the engine's own spelling is the one that is locked
        obtain rfl : hash = lockKey := (canonicalHashKey_of_hex (hi.hex hash hin)).symm.trans hkey
        exact .inr ⟨hv'.held, hv'.only rfl⟩
      · exact .inl hin
    refine ⟨effect_abandon hi hown hcall, fun t ht => fun t' hr _ => ?_⟩
    have hheld : HoldsLock pid lockKey
        { v with store := st, abandoned := pid :: v.abandoned } := hv'.held
    exact (hheld.rely ht).rely hr

lemma AddRequest.hash_of_mem_rows {req : AddRequest} {row : Metadb.AudioProjection}
    (h : row ∈ req.rows) : row.hash = req.hash := by
  obtain ⟨x, -, rfl⟩ := List.mem_map.mp h
  rfl

/-- The rows of an audio add refer to its own torrent, on its own behalf. -/
lemma libRuns_addAudioRows {S : SectionWriter.LongestFirst} {plan : AddRequest}
    (h : Sole pid lockKey preexisting s) (hin : lockKey ∈ s.store.engine) (hplan : plan.hash = lockKey)
    (hdrawn : s.drawn.lookup plan.txnID = some pid) :
    LibRuns cfg pid (onAudio (Library.addAudio S plan))
      (fun _ v => Sole pid lockKey preexisting v) s := by
  have huses : (onAudio (Library.addAudio S plan)).Only
      fun o => ∃ o', o = .audio o' ∧ o'.In (addFootprint plan) :=
    (uses_addAudio.mono (fun o ho => ⟨o, rfl, ho⟩) fun _ ha => ha).lift
  have hruns := wp_of_uses (M := (librarySystem cfg).machine pid)
    (C := (libraryParties cfg).contract pid)
    (I := fun v => Sole pid lockKey preexisting v ∧ lockKey ∈ v.store.engine ∧
      v.drawn.lookup plan.txnID = some pid) huses (fun v v' hI hr _ => ?_)
    (fun o c v r u ho _ hi hI hex => ?_) ⟨h, hin, hdrawn⟩
  · exact wp_mono (fun _ _ hv => hv.2.1) hruns
  · exact ⟨hI.1.rely hr, (hr.respects lockKey hI.1.held).present hI.2.1, hr.drawn _ hI.2.2⟩
  obtain ⟨o, rfl, ho⟩ := ho
  have hlib : LibOp.exec cfg pid (.audio o) c v = some (r, u) := hex
  have hquiet : o.Mild → LibraryInv cfg u ∧ (∀ j, j ≠ pid → LibRely j v u) ∧
      Sole pid lockKey preexisting u ∧ lockKey ∈ u.store.engine ∧
      u.drawn.lookup plan.txnID = some pid := by
    intro hmild
    have hq : Quiet cfg v u := quiet_op (o := .audio o) hi hmild hlib
    exact ⟨hq.inv, hq.effect.guar, hI.1.rely hq.rely, (hq.steady lockKey).present hI.2.1,
      hq.drawn _ _ hI.2.2⟩
  rcases o with ⟨undo, call⟩ | ⟨undo, call⟩ | row
  · exact hquiet trivial
  · cases call with
    | stage txnID rows =>
      obtain ⟨rfl, rfl⟩ := ho
      obtain ⟨w, hcall, rfl⟩ := exec_audio hlib
      obtain ⟨heff, hnew⟩ := effect_stage hi hI.1.held hI.2.1
        (fun row hrow => (AddRequest.hash_of_mem_rows hrow).trans hplan) hcall
      refine ⟨heff.inv, heff.guar, ⟨hI.1.held, hI.1.own, fun hpre x hx => ?_⟩, hI.2.1, hI.2.2⟩
      cases x with
      | inl p => exact hI.1.only hpre (.inl p) hx
      | inr i =>
        obtain ⟨hi', row, hrow, hhash, hd⟩ := hx
        rcases hnew row hrow with hrow | ⟨-, htxn⟩
        · exact hI.1.only hpre (.inr i) ⟨hi', row, hrow, hhash, hd⟩
        · -- a new row carries the transaction this request has drawn
          rw [htxn] at hd
          exact congrArg Sum.inr (Option.some.inj (hd.symm.trans hI.2.2))
    | get | commit | rollback | mark | markPaths | byPrefix | byState | byHash | delete =>
      exact hquiet trivial
  · exact hquiet trivial

lemma libRuns_plan :
    LibRuns cfg pid (perform (.plan hash)) (fun r v => LibRely pid s v ∧
      ∀ plan, r = some plan → plan.hash = hash ∧ v.drawn.lookup plan.txnID = some pid) s := by
  refine libRuns_perform fun v hv hi c _ r u hex => ?_
  have hq : Quiet cfg v u := quiet_op (o := .plan hash) hi trivial hex
  refine ⟨hq.effect, fun t ht => ⟨hv.trans (hq.rely.trans ht), fun plan hr => ?_⟩⟩
  subst hr
  simp only [LibOp.exec] at hex
  split at hex
  · exact absurd (Prod.mk.inj (Option.some.inj hex)).1 (by simp)
  · split_ifs at hex with hfresh
    obtain ⟨hreq, rfl⟩ := Prod.mk.inj (Option.some.inj hex)
    cases hreq
    exact ⟨hfresh.1, ht.drawn _ (AList.lookup_insert _)⟩

lemma libRuns_projectTorrent {req : AudioAdd}
    (h : Sole pid lockKey preexisting s) (hkey : canonicalHashKey hash = lockKey) :
    LibRuns cfg pid (projectTorrent req preexisting hash)
      (fun outcome v => HoldsLock pid lockKey v ∧ Ends pid outcome v) s := by
  have hfail : ∀ v, Sole pid lockKey preexisting v →
      LibRuns cfg pid (abandonUnless preexisting hash >>= fun _ => (pure .failed : LibProg Outcome))
        (fun outcome v => HoldsLock pid lockKey v ∧ Ends pid outcome v) v := by
    intro v hv
    refine wp_then (libRuns_abandonUnless hv hkey) fun _ u hu => ?_
    exact fun t hr _ => ⟨hu.rely hr, by simp⟩
  refine wp_bind (libRuns_perform fun v hv hi c _ r u hex => ?_)
  have hq : Quiet cfg v u := quiet_op (o := .store (.getTorrentInfo hash)) hi trivial hex
  obtain ⟨st, hcall, rfl⟩ := exec_store hex
  refine ⟨hq.effect, fun t ht => ?_⟩
  have hrely : LibRely pid v t := hq.rely.trans ht
  have hsole : Sole pid lockKey preexisting t := h.rely (hv.trans hrely)
  cases r with
  | none => exact hfail t hsole
  | some files =>
    have hin : hash ∈ v.store.engine := exec_getTorrentInfo hcall
    obtain rfl : hash = lockKey := (canonicalHashKey_of_hex (hi.hex hash hin)).symm.trans hkey
    have hint : hash ∈ t.store.engine :=
      (hrely.respects hash (h.rely hv).held).present hin
    refine wp_then libRuns_plan fun plan w hw => ?_
    have hsolew : Sole pid hash preexisting w := hsole.rely hw.1
    cases plan with
    | none => exact hfail w hsolew
    | some plan =>
      obtain ⟨hplan, hdrawn⟩ := hw.2 plan rfl
      have hinw : hash ∈ w.store.engine := (hw.1.respects hash hsole.held).present hint
      refine wp_then (libRuns_addAudioRows hsolew hinw hplan hdrawn) fun r x hx => ?_
      cases r with
      | error e => exact hfail x hx
      | ok _ => exact fun y hr _ => ⟨(hx.rely hr).held, fun _ => (hx.rely hr).own⟩

/-- A listing without the torrent shows that nobody refers to it. -/
lemma libRuns_listTorrents (hhex : HexHash lockKey)
    (hold : HoldsLock pid lockKey s) (hown : pid ∉ s.abandoned) :
    LibRuns cfg pid (perform (.store .listTorrents)) (fun r v => LibRely pid s v ∧
      ∀ torrents, r = some torrents →
        Sole pid lockKey (lockKey ∈ torrents.map canonicalHashKey) v) s := by
  refine libRuns_perform fun v hv hi c _ r u hex => ?_
  have hq : Quiet cfg v u := quiet_op (o := .store .listTorrents) hi trivial hex
  obtain ⟨st, hcall, rfl⟩ := exec_store hex
  refine ⟨hq.effect, fun t ht => ⟨hv.trans (hq.rely.trans ht), fun torrents hr => ?_⟩⟩
  have hheld : HoldsLock pid lockKey v := hold.rely hv
  have hlisted : torrents = v.store.engine := by
    have hans := ((Prod.mk.inj (Option.some.inj hcall)).1).trans hr
    split_ifs at hans
    exact (Option.some.inj hans).symm
  subst hlisted
  have hrely : LibRely pid v t := hq.rely.trans ht
  refine Sole.rely ⟨hheld, fun h => hown (hv.abandoned.mp h), fun hpre x hx => ?_⟩ hrely
  -- a reference would show that the torrent is in the engine
  have hin : lockKey ∈ v.store.engine := hi.sound lockKey x hx
  have hmem : lockKey ∈ v.store.engine.map canonicalHashKey :=
    List.mem_map.mpr ⟨lockKey, hin, canonicalHashKey_of_hex hhex⟩
  exact absurd hmem (of_decide_eq_false hpre)

lemma libRuns_addAudioLocked {req : AudioAdd} (hold : HoldsLock pid (canonicalHashKey req.hash) s)
    (hown : pid ∉ s.abandoned) :
    LibRuns cfg pid (addAudioLocked cfg req) (fun a v => a.2 = none ∧
      HoldsLock pid (canonicalHashKey req.hash) v ∧ Ends pid a.1 v) s := by
  have hhex : HexHash (canonicalHashKey req.hash) := hexHash_canonicalHashKey req.valid
  refine wp_then (libRuns_listTorrents hhex hold hown) fun r v hv => ?_
  cases r with
  | none => exact fun u hr _ => ⟨rfl, (hold.rely hv.1).rely hr, by simp⟩
  | some torrents =>
    have hsole := hv.2 torrents rfl
    refine libRuns_bind_mild (uses_uploadReleaseFile req.valid) fun _ v1 _ hv1 => ?_
    refine wp_then (libRuns_addTorrent req.valid) fun answer v2 ha => ?_
    obtain ⟨hv2, hans⟩ := ha
    have hsole2 := hsole.rely (hv1.trans hv2)
    have hself : canonicalHashKey (canonicalHashKey req.hash) = canonicalHashKey req.hash :=
      canonicalHashKey_of_hex hhex
    have hrefused : LibRuns cfg pid
        (abandonUnless (canonicalHashKey req.hash ∈ torrents.map canonicalHashKey)
          (canonicalHashKey req.hash) >>= fun _ =>
            (pure (.failed, none) : LibProg (Outcome × Option String)))
        (fun a v => a.2 = none ∧ HoldsLock pid (canonicalHashKey req.hash) v ∧ Ends pid a.1 v)
        v2 := by
      refine wp_then (libRuns_abandonUnless hsole2 hself) fun _ u hu => ?_
      exact fun t hr _ => ⟨rfl, hu.rely hr, by simp⟩
    cases answer with
    | none =>
      rw [if_neg (by simp)]
      exact hrefused
    | some text =>
      have hkey := hans text rfl
      simp only [Option.isSome_some, Option.getD_some, true_and]
      cases Classical.em (InfoHash (normalized text)) with
      | inr hno =>
        rw [if_neg hno]
        exact hrefused
      | inl hyes =>
        rw [if_pos hyes]
        simp only [hkey hyes, lockSecond, if_true, or_self]
        refine wp_bind fun v3 hv3 _ => ?_
        refine wp_then (libRuns_projectTorrent (hsole2.rely hv3) (hkey hyes)) fun outcome u hu => ?_
        exact fun t hr _ => ⟨rfl, hu.1.rely hr, fun hp h => hu.2 hp (hr.abandoned.mp h)⟩

theorem libRuns_addAudio {req : AudioAdd} (hown : pid ∉ s.abandoned) :
    LibRuns cfg pid (Manager.addAudio cfg req) (Ends pid) s := by
  unfold Manager.addAudio
  split_ifs
  · exact ends_of_ne (by simp)
  refine wp_then libRuns_lock fun _ v hv => ?_
  have hownv : pid ∉ v.abandoned := fun h => hown (hv.1.abandoned.mp h)
  refine wp_then (libRuns_addAudioLocked hv.2 hownv) fun a u hu => ?_
  obtain ⟨outcome, second⟩ := a
  obtain ⟨hsecond, hheld, hends⟩ := hu
  obtain rfl : second = none := hsecond
  show LibRuns cfg pid (perform (.unlock (canonicalHashKey req.hash)) >>= fun _ => pure outcome) _ u
  refine wp_then (libRuns_unlock hheld) fun _ t ht => ?_
  exact fun t' hr _ hp h => hends hp (ht.1.mp (hr.abandoned.mp h))

/-! ### Removals -/

theorem libRuns_remove {S : RangeOrder} {req : RemoveRequest} :
    LibRuns cfg pid (Manager.remove cfg S req) (Ends pid) s := by
  refine libRuns_bind_mild uses_removeTargets.lift fun targets v _ _ => ?_
  split_ifs
  · exact ends_of_ne (by simp)
  refine libRuns_bind_mild uses_removeStubs.lift fun a u _ _ => ?_
  refine wp_then libRuns_dropAll fun _ t _ => ?_
  split_ifs <;> exact ends_of_ne (by simp)

/-- Statements that stage nothing. -/
def DbCall.StagesNothing : DbCall → Prop
  | .stage _ _ => False
  | _ => True

lemma Uses.onAudio {stmt : DbCall → Prop} (hstmt : ∀ txnID rows, ¬ stmt (.stage txnID rows))
    {p : Prog α} (h : p.Uses (Op.In (sweepFootprint stmt)) R) : (onAudio p).Uses LibOp.Mild R := by
  have hmild : ∀ o : Op, o.In (sweepFootprint stmt) → o.Mild := by
    rintro (⟨undo, call⟩ | ⟨undo, call⟩ | row) ho
    · trivial
    · cases call with
      | stage txnID rows => exact absurd ho (hstmt txnID rows)
      | get | commit | rollback | mark | markPaths | byPrefix | byState | byHash | delete => trivial
    · trivial
  exact (h.mono hmild fun _ ha => ha).lift

lemma uses_removeAudioPrefix {pre : RelPath} :
    (Library.removeAudioPrefix sec pre now).Only (Op.In (sweepFootprint DbCall.StagesNothing)) := by
  refine uses_db_bind trivial fun r => ?_
  rcases r with e | _ | ⟨row, rows⟩
  · exact uses_done
  · exact uses_done
  dsimp only
  split_ifs
  · exact uses_done
  refine uses_db_bind trivial fun r => ?_
  cases r with
  | error e => exact uses_done
  | ok n =>
    refine uses_openSectionWriter.bind fun r _ => ?_
    cases r with
    | error e => exact uses_done
    | ok w =>
      refine (uses_removeRows (fun _ _ => trivial) fun _ _ => trivial).bind fun done _ => ?_
      cases done with
      | false => exact uses_done
      | true =>
        refine uses_db_bind trivial fun r => ?_
        cases r <;> exact uses_done

/-- A removal of audio with its drop: the torrent is checked like any other. -/
lemma libRuns_dropAfter {hash : String} {wanted : Bool} :
    LibRuns cfg pid (if wanted then dropTorrentIfUnused cfg hash >>= fun dropped =>
        (pure (.removedAudio dropped) : LibProg Outcome)
      else pure (.removedAudio false)) (Ends pid) s := by
  split_ifs
  · exact wp_then libRuns_dropTorrentIfUnused fun _ _ _ => ends_of_ne (by simp)
  · exact ends_of_ne (by simp)

theorem libRuns_removeAudio {virtualPath : RelPath} {dropTorrent : Bool} :
    LibRuns cfg pid (Manager.removeAudio cfg sec virtualPath now dropTorrent) (Ends pid) s := by
  refine libRuns_bind_mild (Uses.onAudio (fun _ _ => id) uses_removeAudio) fun outcome v _ _ => ?_
  cases outcome with
  | removed hash referenced => exact libRuns_dropAfter
  | absent | occupied | failed => exact ends_of_ne (by simp)

theorem libRuns_removeAudioPrefix {pre : RelPath} {dropTorrent : Bool} :
    LibRuns cfg pid (Manager.removeAudioPrefix cfg sec pre now dropTorrent) (Ends pid) s := by
  refine libRuns_bind_mild (Uses.onAudio (fun _ _ => id) uses_removeAudioPrefix) fun outcome v _ _ => ?_
  cases outcome with
  | removed count hash referenced => exact libRuns_dropAfter
  | conflict | empty | failed => exact ends_of_ne (by simp)

theorem libRuns_request {req : LibRequest} (hown : pid ∉ s.abandoned) :
    LibRuns cfg pid (req.prog cfg) (Ends pid) s := by
  cases req with
  | add S req => exact libRuns_add
  | addAudio req => exact libRuns_addAudio hown
  | remove S req => exact libRuns_remove
  | removeAudio sec virtualPath now dropTorrent => exact libRuns_removeAudio
  | removeAudioPrefix sec pre now dropTorrent => exact libRuns_removeAudioPrefix

end Tiramisu.Library
