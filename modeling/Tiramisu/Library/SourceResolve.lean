import Tiramisu.Library.Idempotency
import Tiramisu.Library.Naming

/-!
# Binding source paths to torrent files

`ResolveSource` binds one path of a request to the file of the torrent it names.
`ResolveSources` does so for a whole request: it matches every path before it
reports any, refuses paths and indexes that come twice, and then checks each match.
-/

namespace Tiramisu.Library

open List

/-- What a resolution fails with. -/
inductive ResolveError
  | emptyPath
  | noFile (sourcePath : String)
  | manyFiles (matching : ℕ) (sourcePath : String)
  | nonPositiveIndex (sourcePath : String) (id : ℤ)
  | negativeLength (sourcePath : String) (length : ℤ)
  | sharedIndex (id : ℤ) (sourcePath : String) (sharing : ℕ)
  | pathTwice (sourcePath : String)
  | indexTwice (id : ℤ) (sourcePath : String)
  deriving DecidableEq, Repr

/-- The last entry with the path and the number of such entries. -/
def countMatches (sourcePath : String) (files : List FileStat) : Option FileStat × ℕ :=
  files.foldl (fun found f => if f.path = sourcePath then (some f, found.2 + 1) else found) (none, 0)

def matchEntry (files : List FileStat) (sourcePath : String) : Except ResolveError FileStat :=
  if sourcePath = "" then .error .emptyPath
  else
    match countMatches sourcePath files with
    | (some f, 1) => .ok f
    | (_, 0) => .error (.noFile sourcePath)
    | (_, n) => .error (.manyFiles n sourcePath)

def checkEntry (files : List FileStat) (f : FileStat) (sourcePath : String) :
    Except ResolveError Unit :=
  if f.id ≤ 0 then .error (.nonPositiveIndex sourcePath f.id)
  else if f.length < 0 then .error (.negativeLength sourcePath f.length)
  else
    let sharing := files.countP fun g => g.id = f.id
    if 1 < sharing then .error (.sharedIndex f.id sourcePath sharing) else .ok ()

def resolveSource (files : List FileStat) (sourcePath : String) :
    Except ResolveError ResolvedSource := do
  let f ← matchEntry files sourcePath
  checkEntry files f sourcePath
  return ⟨sourcePath, f.id, f.length⟩

/-- The first path that was seen before. -/
def repeatedPath (seen : List String) : List String → Option String
  | [] => none
  | p :: paths => if p ∈ seen then some p else repeatedPath (p :: seen) paths

/-- The first match whose index was seen before; paths without a match are passed over. -/
def repeatedIndex (seen : List ℤ) :
    List (String × Except ResolveError FileStat) → Option (ℤ × String)
  | [] => none
  | (p, .ok f) :: matched =>
    if f.id ∈ seen then some (f.id, p) else repeatedIndex (f.id :: seen) matched
  | (_, .error _) :: matched => repeatedIndex seen matched

def firstErr : List (String × Except ResolveError FileStat) → Option ResolveError
  | [] => none
  | (_, .ok _) :: matched => firstErr matched
  | (_, .error e) :: _ => some e

/-- The last loop; it starts when every path has a match. -/
def checkMatches (files : List FileStat) :
    List (String × Except ResolveError FileStat) → Except ResolveError (List ResolvedSource)
  | [] => .ok []
  | (p, found) :: matched => do
      let f ← found
      checkEntry files f p
      let resolved ← checkMatches files matched
      return ⟨p, f.id, f.length⟩ :: resolved

def resolveSources (files : List FileStat) (sourcePaths : List String) :
    Except ResolveError (List ResolvedSource) :=
  match repeatedPath [] sourcePaths with
  | some p => .error (.pathTwice p)
  | none =>
    let matched := sourcePaths.map fun p => (p, matchEntry files p)
    match repeatedIndex [] matched with
    | some (id, p) => .error (.indexTwice id p)
    | none =>
      match firstErr matched with
      | some e => .error e
      | none => checkMatches files matched

/-! ### One path -/

variable {files : List FileStat} {p : String} {f : FileStat} {paths : List String}

lemma countMatches_eq (p : String) (files : List FileStat) :
    countMatches p files
      = ((files.filter fun f => f.path = p).getLast?, (files.filter fun f => f.path = p).length) := by
  induction files using List.reverseRecOn with
  | nil => rfl
  | append_singleton files f ih =>
    unfold countMatches at ih ⊢
    rw [foldl_append, ih, foldl_cons, foldl_nil, filter_append]
    by_cases hf : f.path = p
    · simp [hf]
    · simp [hf]

lemma matchEntry_eq_ok_iff :
    matchEntry files p = .ok f ↔ p ≠ "" ∧ (files.filter fun g => g.path = p) = [f] := by
  rw [matchEntry, countMatches_eq]
  generalize (files.filter fun g => g.path = p) = named
  by_cases hp : p = ""
  · simp [hp]
  · match named with
    | [] => simp [hp]
    | [g] => simp [hp]
    | g :: g' :: rest => simp [hp]

lemma checkEntry_eq_ok_iff :
    checkEntry files f p = .ok () ↔
      0 < f.id ∧ 0 ≤ f.length ∧ (files.countP fun g => g.id = f.id) ≤ 1 := by
  simp only [checkEntry]
  split_ifs <;> simp <;> omega

/-- The path is that of one entry, which has a length and an index of its own. -/
structure Binds (files : List FileStat) (p : String) (f : FileStat) : Prop where
  named : p ≠ ""
  path : (files.filter fun g => g.path = p) = [f]
  index : (files.filter fun g => g.id = f.id) = [f]
  positive : 0 < f.id
  length : 0 ≤ f.length

lemma Binds.mem (h : Binds files p f) : f ∈ files ∧ f.path = p := by
  have hmem : f ∈ files.filter fun g => g.path = p := h.path ▸ mem_singleton_self f
  simpa using hmem

lemma binds_iff : Binds files p f ↔ matchEntry files p = .ok f ∧ checkEntry files f p = .ok () := by
  rw [matchEntry_eq_ok_iff, checkEntry_eq_ok_iff, countP_eq_length_filter]
  constructor
  · rintro ⟨hp, hpath, hindex, hid, hlength⟩
    exact ⟨⟨hp, hpath⟩, hid, hlength, by rw [hindex, length_singleton]⟩
  rintro ⟨⟨hp, hpath⟩, hid, hlength, hcount⟩
  have hf : f ∈ files := mem_of_mem_filter (hpath ▸ mem_singleton_self f)
  have hmem : f ∈ files.filter fun g => g.id = f.id := by simp [hf]
  obtain ⟨g, hg⟩ := length_eq_one_iff.mp (le_antisymm hcount (length_pos_of_mem hmem))
  rw [hg, mem_singleton] at hmem
  exact ⟨hp, hpath, hmem ▸ hg, hid, hlength⟩

lemma resolveSource_eq_ok_iff {source : ResolvedSource} :
    resolveSource files p = .ok source ↔ ∃ f, Binds files p f ∧ source = ⟨p, f.id, f.length⟩ := by
  simp only [binds_iff, resolveSource]
  cases matchEntry files p with
  | error e => simp [bind, Except.bind]
  | ok f =>
    cases hcheck : checkEntry files f p with
    | error e =>
      simp only [bind, Except.bind, hcheck, Except.ok.injEq]
      constructor
      · intro h
        cases h
      · rintro ⟨g, ⟨rfl, hok⟩, -⟩
        rw [hcheck] at hok
        cases hok
    | ok u =>
      simp only [bind, Except.bind, hcheck, Except.ok.injEq]
      constructor
      · rintro h
        exact ⟨f, ⟨rfl, hcheck⟩, (Except.ok.inj h).symm⟩
      · rintro ⟨g, ⟨rfl, -⟩, rfl⟩
        rfl

/-! ### A request -/

lemma repeatedPath_eq_none_iff {seen : List String} :
    repeatedPath seen paths = none ↔ paths.Nodup ∧ ∀ p ∈ paths, p ∉ seen := by
  induction paths generalizing seen with
  | nil => simp [repeatedPath]
  | cons p paths ih =>
    rw [repeatedPath]
    split_ifs with hp
    · simp [hp]
    rw [ih, nodup_cons]
    constructor
    · rintro ⟨hnodup, hfresh⟩
      refine ⟨⟨fun hmem => hfresh p hmem mem_cons_self, hnodup⟩, fun q hq => ?_⟩
      rcases mem_cons.mp hq with rfl | hq
      · exact hp
      · exact fun hmem => hfresh q hq (mem_cons_of_mem p hmem)
    · rintro ⟨⟨hnew, hnodup⟩, hfresh⟩
      refine ⟨hnodup, fun q hq hmem => ?_⟩
      rcases mem_cons.mp hmem with rfl | hmem
      · exact hnew hq
      · exact hfresh q (mem_cons_of_mem p hq) hmem

lemma checkMatches_cons (matched : List (String × Except ResolveError FileStat)) :
    checkMatches files ((p, matchEntry files p) :: matched) = (do
      let source ← resolveSource files p
      let resolved ← checkMatches files matched
      return source :: resolved) := by
  simp only [checkMatches, resolveSource, bind_assoc, pure_bind]

/-- The last loop is a resolution of each path alone. -/
lemma checkMatches_eq_ok_iff {resolved : List ResolvedSource} :
    checkMatches files (paths.map fun p => (p, matchEntry files p)) = .ok resolved ↔
      paths.map (resolveSource files) = resolved.map Except.ok := by
  induction paths generalizing resolved with
  | nil => cases resolved <;> simp [checkMatches]
  | cons p paths ih =>
    rw [map_cons, checkMatches_cons, map_cons]
    cases resolveSource files p with
    | error e => cases resolved <;> simp [bind, Except.bind]
    | ok source =>
      cases hrest : checkMatches files (paths.map fun p => (p, matchEntry files p)) with
      | error e =>
        have hnot : ∀ rest : List ResolvedSource,
            paths.map (resolveSource files) ≠ rest.map Except.ok := by
          intro rest heq
          rw [ih.mpr heq] at hrest
          cases hrest
        cases resolved <;> simp [bind, Except.bind, hnot]
      | ok rest =>
        rw [ih.mp hrest]
        cases resolved with
        | nil => simp [bind, Except.bind, pure, Except.pure]
        | cons first others =>
          have hinj : Function.Injective (List.map (Except.ok (ε := ResolveError)
              (α := ResolvedSource))) := map_injective_iff.mpr fun _ _ => Except.ok.inj
          simp [bind, Except.bind, pure, Except.pure, hinj.eq_iff]

/-- Entries bound to different paths have different indexes. -/
lemma Binds.id_ne {q : String} {g : FileStat} (hf : Binds files p f) (hg : Binds files q g)
    (hne : p ≠ q) : g.id ≠ f.id := by
  intro heq
  have hmem : g ∈ files.filter fun g => g.id = f.id := by simp [hg.mem.1, heq]
  rw [hf.index, mem_singleton] at hmem
  rw [← hf.mem.2, ← hg.mem.2, hmem] at hne
  exact hne rfl

lemma repeatedIndex_eq_none {seen : List ℤ} (hnodup : paths.Nodup)
    (hbound : ∀ p ∈ paths, ∃ f, Binds files p f ∧ f.id ∉ seen) :
    repeatedIndex seen (paths.map fun p => (p, matchEntry files p)) = none := by
  induction paths generalizing seen with
  | nil => rfl
  | cons p paths ih =>
    obtain ⟨hnew, hnodup⟩ := nodup_cons.mp hnodup
    obtain ⟨f, hf, hfresh⟩ := hbound p mem_cons_self
    rw [map_cons, (binds_iff.mp hf).1, repeatedIndex, if_neg hfresh]
    apply ih hnodup
    intro q hq
    obtain ⟨g, hg, hgfresh⟩ := hbound q (mem_cons_of_mem p hq)
    refine ⟨g, hg, fun hmem => ?_⟩
    rcases mem_cons.mp hmem with heq | hmem
    · exact hf.id_ne hg (fun hpq => hnew (hpq ▸ hq)) heq
    · exact hgfresh hmem

lemma firstErr_eq_none (hbound : ∀ p ∈ paths, ∃ f, Binds files p f) :
    firstErr (paths.map fun p => (p, matchEntry files p)) = none := by
  induction paths with
  | nil => rfl
  | cons p paths ih =>
    obtain ⟨f, hf⟩ := hbound p mem_cons_self
    rw [map_cons, (binds_iff.mp hf).1, firstErr]
    exact ih fun q hq => hbound q (mem_cons_of_mem p hq)

lemma bound_of_resolved {resolved : List ResolvedSource}
    (h : paths.map (resolveSource files) = resolved.map Except.ok) :
    ∀ p ∈ paths, ∃ f, Binds files p f := by
  intro p hp
  have hmem := mem_map_of_mem (f := resolveSource files) hp
  rw [h] at hmem
  obtain ⟨source, -, hsource⟩ := mem_map.mp hmem
  obtain ⟨f, hf, -⟩ := resolveSource_eq_ok_iff.mp hsource.symm
  exact ⟨f, hf⟩

lemma resolveSources_eq_ok_iff {resolved : List ResolvedSource} :
    resolveSources files paths = .ok resolved ↔
      paths.Nodup ∧ paths.map (resolveSource files) = resolved.map Except.ok := by
  rw [← checkMatches_eq_ok_iff]
  constructor
  · intro h
    unfold resolveSources at h
    split at h
    · cases h
    rename_i hpaths
    refine ⟨(repeatedPath_eq_none_iff.mp hpaths).1, ?_⟩
    dsimp only at h
    split at h
    · cases h
    · split at h
      · cases h
      · exact h
  · rintro ⟨hnodup, hchecked⟩
    have hbound := bound_of_resolved (checkMatches_eq_ok_iff.mp hchecked)
    have hpaths : repeatedPath [] paths = none :=
      repeatedPath_eq_none_iff.mpr ⟨hnodup, fun _ _ => not_mem_nil⟩
    have hindexes : repeatedIndex [] (paths.map fun p => (p, matchEntry files p)) = none := by
      apply repeatedIndex_eq_none hnodup
      intro p hp
      obtain ⟨f, hf⟩ := hbound p hp
      exact ⟨f, hf, not_mem_nil⟩
    simp only [resolveSources, hpaths, hindexes, firstErr_eq_none hbound]
    exact hchecked

/-- A request resolves exactly when its paths are distinct and each is bound to an
entry, and then to what each path resolves to alone. -/
theorem resolveSources_succeeds_iff_bound (files : List FileStat) (paths : List String) :
    ((∃ resolved, resolveSources files paths = .ok resolved) ↔
      paths.Nodup ∧ ∀ p ∈ paths, ∃ f, Binds files p f) ∧
    ∀ resolved, resolveSources files paths = .ok resolved →
      paths.map (resolveSource files) = resolved.map Except.ok := by
  constructor
  · constructor
    · rintro ⟨resolved, h⟩
      obtain ⟨hnodup, hall⟩ := resolveSources_eq_ok_iff.mp h
      exact ⟨hnodup, bound_of_resolved hall⟩
    rintro ⟨hnodup, hbound⟩
    have : Nonempty FileStat := ⟨⟨0, "", 0⟩⟩
    choose! entry hentry using hbound
    refine ⟨paths.map fun p => ⟨p, (entry p).id, (entry p).length⟩, ?_⟩
    refine resolveSources_eq_ok_iff.mpr ⟨hnodup, ?_⟩
    rw [map_map]
    apply map_congr_left
    intro p hp
    exact resolveSource_eq_ok_iff.mpr ⟨entry p, hentry p hp, rfl⟩
  · intro resolved h
    exact (resolveSources_eq_ok_iff.mp h).2

/-- An entry without a path is named by the empty path, which no request may name. -/
theorem empty_path_names_one_entry :
    resolveSources [⟨1, "", 0⟩] [""] = .error .emptyPath ∧
      (([⟨1, "", 0⟩] : List FileStat).filter fun f => f.path = "") = [⟨1, "", 0⟩] := by
  decide

end Tiramisu.Library
