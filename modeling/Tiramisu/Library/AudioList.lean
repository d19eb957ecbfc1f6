import Tiramisu.Go.Maps
import Tiramisu.Lib.Paging
import Tiramisu.Metadb.Audio

/-!
# Listing the audio projections

`ListAudio` serves the committed rows of a section page by page, ordered by
their paths; the cursor is the last path of the page before.  The pager caps
its own limit, so at the cap `ListAudio` asks once more whether a full page is
the last one.
-/

namespace Tiramisu.Library

open Paging List
open Go
open Metadb (AudioSection AudioProjection AudioProjectionState Registry RelPath)

/-! ### One page of the registry -/

/-- The column `virtual_path`. -/
def pathColumn (path : RelPath) : String :=
  String.ofList (['/'].intercalate (path.map String.toList))

/-- What `validatePathSyntax` leaves of a path: components between slashes, none
of them empty or with a control character. -/
def StoredPath (path : RelPath) : Prop :=
  path ≠ [] ∧ ∀ part ∈ path, part ≠ "" ∧ '/' ∉ part.toList ∧ '\x00' ∉ part.toList

instance (path : RelPath) : Decidable (StoredPath path) := inferInstanceAs (Decidable (_ ∧ _))

def defaultPageLimit : ℤ := 200

def maxPageLimit : ℤ := 1000

def clampPageLimit (limit : ℤ) : ℤ :=
  if limit ≤ 0 then defaultPageLimit
  else if limit > maxPageLimit then maxPageLimit
  else limit

/-- The SQL function `length` of a text stops at a NUL. -/
def sqlLength (text : String) : ℕ := (text.toList.takeWhile (· ≠ '\x00')).length

def rowPath (row : AudioProjection) : String := pathColumn row.virtualPath

/-- `section = ? AND state = ?`, and the condition on the path unless the given
text is empty. -/
def pageRow (sec : AudioSection) (pathPrefix : String) (row : AudioProjection) : Bool :=
  row.sec = sec && row.state = .committed && (pathPrefix = "" ||
    (rowPath row).toList.take (sqlLength pathPrefix) = pathPrefix.toList)

def audioProjectionPage (db : Registry) (sec : AudioSection) (pathPrefix afterPath : String)
    (limit : ℤ) : List AudioProjection :=
  let found := db.rows.filter fun row => pageRow sec pathPrefix row &&
    (afterPath = "" || afterPath < rowPath row)
  (inOrder rowPath found).take (clampPageLimit limit).toNat

/-! ### ListAudio -/

structure FailureStat where
  failCount : ℤ
  firstFail : ℤ
  lastFail : ℤ
  deriving DecidableEq, Repr

/-- What `ListAudio` asks beside the registry: the failure counters, if the
registry answers for them, and the open playback sessions. -/
structure ListDeps where
  registry : Option Registry
  failures : Option (GoMap String FailureStat)
  activeSession : Option (String → Bool)

structure AudioListRequest where
  type : String
  pathPrefix : String
  limit : ℤ
  cursor : String
  withFailures : Bool

structure AudioListItem where
  type : String
  path : String
  hash : String
  sourcePath : String
  fileIndex : ℤ
  size : ℤ
  mtimeNS : ℤ
  state : AudioProjectionState
  externalID : String
  externalIDNamespace : String
  cueTrack : ℤ
  failCount : ℤ
  firstFailNS : ℤ
  lastFailNS : ℤ
  activeSession : Bool
  deriving DecidableEq, Repr

structure AudioListResponse where
  items : List AudioListItem
  nextCursor : String

inductive ListError
  | unknownType (type : String)
  | registryUnavailable
  deriving DecidableEq, Repr

/-- `SectionForType`, as far as `IsAudioSection` lets it through. -/
def audioSectionForType : String → Option AudioSection
  | "music" => some .music
  | "audiobook" => some .audiobooks
  | _ => none

def lastPath (rows : List AudioProjection) : String := (endOf rowPath rows).getD ""

/-- The hashes of a page, each once. -/
def pageHashes (rows : List AudioProjection) : List String :=
  rows.foldl (fun hashes row =>
    if row.hash ≠ "" ∧ row.hash ∉ hashes then hashes ++ [row.hash] else hashes) []

/-- `MetadataFailuresFor` on the table of failures. -/
def metadataFailuresFor (table : GoMap String FailureStat) (hashes : List String)
    (hash : String) : Option FailureStat :=
  if hash ∈ hashes then table.lookup hash else none

/-- Seconds as the nanoseconds of an `int64`. -/
def seconds (n : ℤ) : ℤ := (n * 1000000000).bmod (2 ^ 64)

def listItem (deps : ListDeps) (req : AudioListRequest) (failures : String → Option FailureStat)
    (row : AudioProjection) : AudioListItem :=
  let stat := (failures row.hash).getD ⟨0, 0, 0⟩
  { type := req.type
    path := rowPath row
    hash := row.hash
    sourcePath := row.sourcePath
    fileIndex := row.fileIndex
    size := row.size
    mtimeNS := row.mtimeNS
    state := row.state
    externalID := row.externalID
    externalIDNamespace := row.externalIDNamespace
    cueTrack := row.cueTrack
    failCount := stat.failCount
    firstFailNS := seconds stat.firstFail
    lastFailNS := seconds stat.lastFail
    activeSession := deps.activeSession.any fun active => active row.hash }

/-- The rows of a page and the next cursor.  The pager is asked for one row more
than the page holds; at the cap it does not give it. -/
def listRows (db : Registry) (sec : AudioSection) (req : AudioListRequest) :
    List AudioProjection × String :=
  let limit := clampPageLimit req.limit
  let rows := audioProjectionPage db sec req.pathPrefix req.cursor (limit + 1)
  if limit < rows.length then
    (rows.take limit.toNat, lastPath (rows.take limit.toNat))
  else if rows.length = limit ∧ maxPageLimit ≤ limit then
    if audioProjectionPage db sec req.pathPrefix (lastPath rows) 1 = [] then (rows, "")
    else (rows, lastPath rows)
  else (rows, "")

def listAudio (deps : ListDeps) (req : AudioListRequest) : Except ListError AudioListResponse :=
  match audioSectionForType req.type with
  | none => .error (.unknownType req.type)
  | some sec =>
    match deps.registry with
    | none => .error .registryUnavailable
    | some db =>
      let (rows, next) := listRows db sec req
      let failures : String → Option FailureStat :=
        match deps.failures with
        | some table =>
          if req.withFailures then metadataFailuresFor table (pageHashes rows)
          else fun _ => none
        | none => fun _ => none
      .ok ⟨rows.map (listItem deps req failures), next⟩

/-! ### Paths as text -/

lemma pathColumn_inj {p q : RelPath} (hp : StoredPath p) (hq : StoredPath q)
    (h : pathColumn p = pathColumn q) : p = q := by
  have hsplit : ∀ r : RelPath, StoredPath r →
      (pathColumn r).toList.splitOn '/' = r.map String.toList := by
    intro r hr
    rw [pathColumn, String.toList_ofList]
    apply splitOn_intercalate
    · intro l hl
      obtain ⟨part, hpart, rfl⟩ := mem_map.mp hl
      exact (hr.2 part hpart).2.1
    · simpa using hr.1
  have hmap : p.map String.toList = q.map String.toList := by rw [← hsplit p hp, h, hsplit q hq]
  exact map_injective_iff.mpr (fun _ _ => String.toList_inj.mp) hmap

lemma pathColumn_ne_empty {p : RelPath} (hp : StoredPath p) : pathColumn p ≠ "" := by
  obtain ⟨hne, hparts⟩ := hp
  cases p with
  | nil => exact absurd rfl hne
  | cons part rest =>
    intro hempty
    have htext : ['/'].intercalate ((part :: rest).map String.toList) = [] := by
      simpa [pathColumn] using congrArg String.toList hempty
    cases rest with
    | nil => simp_all
    | cons other rest => simp_all [intercalate_cons_cons]

lemma nul_notMem_pathColumn {p : RelPath} (hp : StoredPath p) : '\x00' ∉ (pathColumn p).toList := by
  rw [pathColumn, String.toList_ofList]
  have hparts := hp.2
  clear hp
  induction p with
  | nil => simp
  | cons part rest ih =>
    have hpart := (hparts part (by simp)).2.2
    have hrest := ih fun q hq => hparts q (by simp [hq])
    cases rest with
    | nil => simpa using hpart
    | cons other rest =>
      rw [map_cons, map_cons, intercalate_cons_cons, ← map_cons]
      simp only [mem_append, mem_singleton, not_or]
      exact ⟨⟨hpart, by decide⟩, hrest⟩

/-- The condition of the query says that the path starts with the given text. -/
lemma take_sqlLength_iff {path : RelPath} (h : StoredPath path) (pathPrefix : String) :
    (pathColumn path).toList.take (sqlLength pathPrefix) = pathPrefix.toList ↔
      pathPrefix.toList <+: (pathColumn path).toList := by
  constructor
  · intro heq
    rw [← heq]
    exact take_prefix _ _
  intro hstarts
  have hnul : ∀ c ∈ pathPrefix.toList, c ≠ '\x00' := by
    rintro c hc rfl
    exact nul_notMem_pathColumn h (hstarts.subset hc)
  have hlength : sqlLength pathPrefix = pathPrefix.toList.length := by
    rw [sqlLength, takeWhile_eq_self_iff.mpr (by simpa using hnul)]
  rw [hlength]
  exact (prefix_iff_eq_take.mp hstarts).symm

lemma pageRow_iff {sec : AudioSection} {pathPrefix : String} {row : AudioProjection}
    (h : StoredPath row.virtualPath) :
    pageRow sec pathPrefix row = true ↔ row.sec = sec ∧ row.state = .committed ∧
      pathPrefix.toList <+: (rowPath row).toList := by
  have hempty : pathPrefix = "" → pathPrefix.toList <+: (rowPath row).toList := by
    rintro rfl
    exact nil_prefix
  simp only [pageRow, Bool.and_eq_true, Bool.or_eq_true, decide_eq_true_eq, and_assoc]
  rw [rowPath, take_sqlLength_iff h]
  exact and_congr_right fun _ => and_congr_right fun _ => or_iff_right_of_imp hempty

/-! ### The pages of a walk -/

/-- The projections of a section under a prefix, in the order of their paths. -/
def listing (db : Registry) (sec : AudioSection) (pathPrefix : String) : List AudioProjection :=
  inOrder rowPath (db.rows.filter (pageRow sec pathPrefix))

section Pages

variable {db : Registry} {sec : AudioSection} {pathPrefix : String}
  {served left : List AudioProjection}

section

variable (h : ∀ row ∈ db.rows, StoredPath row.virtualPath)

include h

lemma pairwise_column_ne :
    (db.rows.filter (pageRow sec pathPrefix)).Pairwise fun x y => rowPath x ≠ rowPath y := by
  have hmem : ∀ row ∈ db.rows.filter (pageRow sec pathPrefix),
      row.sec = sec ∧ StoredPath row.virtualPath := by
    intro row hrow
    obtain ⟨hin, hpage⟩ := mem_filter.mp hrow
    exact ⟨((pageRow_iff (h row hin)).mp hpage).1, h row hin⟩
  refine (db.unique.filter _).imp_of_mem fun {x y} hx hy hdistinct heq => ?_
  obtain ⟨hxsec, hxpath⟩ := hmem x hx
  obtain ⟨hysec, hypath⟩ := hmem y hy
  exact hdistinct.1 ⟨hxsec.trans hysec.symm, Or.inl (pathColumn_inj hxpath hypath heq)⟩

lemma pairwise_listing : (listing db sec pathPrefix).Pairwise fun x y => rowPath x < rowPath y :=
  pairwise_inOrder (pairwise_column_ne h)

lemma mem_listing {row : AudioProjection} :
    row ∈ listing db sec pathPrefix ↔ row ∈ db.rows ∧ row.sec = sec ∧ row.state = .committed ∧
      pathPrefix.toList <+: (rowPath row).toList := by
  rw [listing, mem_inOrder, mem_filter]
  exact and_congr_right fun hrow => pageRow_iff (h row hrow)

/-- The pager asked behind what has been served. -/
lemma audioProjectionPage_eq (hall : listing db sec pathPrefix = served ++ left) (limit : ℤ) :
    audioProjectionPage db sec pathPrefix (lastPath served) limit
      = left.take (clampPageLimit limit).toNat := by
  have hpages : ∀ row ∈ listing db sec pathPrefix, rowPath row ≠ "" := fun row hrow =>
    pathColumn_ne_empty (h row ((mem_listing h).mp hrow).1)
  have hcond : (fun row => decide (lastPath served = "") || decide (lastPath served < rowPath row))
      = fun row => (endOf rowPath served).all fun k => decide (k < rowPath row) := by
    funext row
    rcases eq_nil_or_concat' served with rfl | ⟨init, last, rfl⟩
    · rfl
    · have hlast : rowPath last ≠ "" := hpages last (by simp [hall])
      simp [lastPath, endOf, hlast]
  have hfound : inOrder rowPath (db.rows.filter fun row => pageRow sec pathPrefix row &&
      (decide (lastPath served = "") || decide (lastPath served < rowPath row))) = left := by
    rw [← filter_filter, filter_comm, inOrder_filter _ (pairwise_column_ne h), hcond]
    have hbeyond := beyond_endOf (hall ▸ pairwise_listing h)
    rwa [← hall] at hbeyond
  rw [audioProjectionPage, hfound]

/-- What `ListAudio` serves behind what it has served: a full page is followed
by a cursor exactly if rows are left. -/
lemma listRows_eq {req : AudioListRequest} (hall : listing db sec req.pathPrefix = served ++ left)
    {n : ℕ} (hn : (clampPageLimit req.limit).toNat = n) :
    listRows db sec { req with cursor := lastPath served } = (left.take n,
      if left.length ≤ n then "" else lastPath (left.take n)) := by
  have hpos : 1 ≤ clampPageLimit req.limit ∧ clampPageLimit req.limit ≤ maxPageLimit := by
    unfold clampPageLimit defaultPageLimit maxPageLimit
    split_ifs <;> omega
  have hlimit : clampPageLimit req.limit = n := by omega
  rw [hlimit] at hpos
  have hrows := audioProjectionPage_eq h hall (n + 1)
  unfold listRows
  simp only [hlimit, hrows, Int.toNat_natCast]
  by_cases hcap : maxPageLimit ≤ n
  · -- at the cap the pager gives no row more than the page holds
    have hclamp : (clampPageLimit (n + 1)).toNat = n := by
      unfold clampPageLimit
      split_ifs <;> omega
    rw [hclamp, if_neg (by simp)]
    by_cases hfull : n ≤ left.length
    · have hsplit : listing db sec req.pathPrefix = (served ++ left.take n) ++ left.drop n := by
        rw [hall, append_assoc, take_append_drop]
      have hne : left.take n ≠ [] := by
        intro hnil
        have hlength := congrArg List.length hnil
        rw [length_take, length_nil] at hlength
        omega
      have hprobe := audioProjectionPage_eq h hsplit 1
      rw [lastPath, endOf_append hne, ← lastPath] at hprobe
      have hlength : (((left.take n).length : ℕ) : ℤ) = n := by
        rw [length_take]
        omega
      have hempty : (left.drop n).take (clampPageLimit 1).toNat = [] ↔ left.length ≤ n := by
        rw [take_eq_nil_iff, drop_eq_nil_iff]
        exact or_iff_right (by decide)
      rw [if_pos ⟨hlength, hcap⟩, hprobe]
      by_cases hlast : left.length ≤ n
      · rw [if_pos (hempty.mpr hlast), if_pos hlast]
      · rw [if_neg fun hnil => hlast (hempty.mp hnil), if_neg hlast]
    · have hshort : (left.take n).length ≠ n := by
        rw [length_take]
        omega
      rw [if_neg fun hc => hshort (by exact_mod_cast hc.1), if_pos (by omega)]
  · have hclamp : (clampPageLimit (n + 1)).toNat = n + 1 := by
      unfold clampPageLimit
      split_ifs <;> omega
    rw [hclamp]
    by_cases hlast : left.length ≤ n
    · rw [take_of_length_le (by omega), take_of_length_le hlast,
        if_neg (by exact_mod_cast hlast.not_gt), if_neg fun hc => hcap hc.2, if_pos hlast]
    · have hmore : (n : ℤ) < ((left.take (n + 1)).length : ℕ) := by
        rw [length_take]
        omega
      rw [if_pos hmore, if_neg hlast, take_take, Nat.min_eq_left (by omega)]

end

end Pages

/-! ### A client's walk -/

/-- A client of the endpoint: it repeats its request with the cursor of the last
answer until that is empty. -/
def followCursor (deps : ListDeps) (req : AudioListRequest) :
    ℕ → String → Option (List (List AudioListItem))
  | 0, _ => none
  | fuel + 1, cursor =>
    match listAudio deps { req with cursor := cursor } with
    | .error _ => none
    | .ok resp =>
      if resp.nextCursor = "" then some [resp.items]
      else (followCursor deps req fuel resp.nextCursor).map (resp.items :: ·)

/-- The counters shown beside a row. -/
def shownFailures (deps : ListDeps) (req : AudioListRequest) (hash : String) :
    Option FailureStat :=
  if req.withFailures ∧ hash ≠ "" then deps.failures.bind fun table => table.lookup hash else none

section Walk

variable {deps : ListDeps} {req : AudioListRequest} {db : Registry} {sec : AudioSection}

lemma mem_pageHashes {rows : List AudioProjection} {hash : String} :
    hash ∈ pageHashes rows ↔ hash ≠ "" ∧ ∃ row ∈ rows, row.hash = hash := by
  have hfold : ∀ (rows : List AudioProjection) (hashes : List String),
      hash ∈ rows.foldl (fun hashes row =>
        if row.hash ≠ "" ∧ row.hash ∉ hashes then hashes ++ [row.hash] else hashes) hashes ↔
      hash ∈ hashes ∨ hash ≠ "" ∧ ∃ row ∈ rows, row.hash = hash := by
    intro rows
    induction rows with
    | nil => simp
    | cons row rows ih =>
      intro hashes
      rw [foldl_cons, ih]
      by_cases hrow : row.hash = hash
      · subst hrow
        by_cases hempty : row.hash = "" <;> by_cases hmem : row.hash ∈ hashes <;>
          simp [hempty, hmem]
      · have hne : hash ≠ row.hash := fun h => hrow h.symm
        split_ifs <;> simp [hrow, hne]
  simpa [pageHashes] using hfold rows []

/-- The counters of a page are those of the table: the page asks for the hashes
it shows. -/
lemma listItem_eq {rows : List AudioProjection} {row : AudioProjection} (hrow : row ∈ rows)
    {table : GoMap String FailureStat} (htable : deps.failures = some table)
    (hwith : req.withFailures = true) :
    listItem deps req (metadataFailuresFor table (pageHashes rows)) row
      = listItem deps req (shownFailures deps req) row := by
  have hstat : metadataFailuresFor table (pageHashes rows) row.hash
      = shownFailures deps req row.hash := by
    have hmem : row.hash ∈ pageHashes rows ↔ row.hash ≠ "" := by
      rw [mem_pageHashes]
      exact and_iff_left ⟨row, hrow, rfl⟩
    simp only [metadataFailuresFor, hmem, shownFailures, hwith, true_and, htable,
      Option.bind_some]
  simp only [listItem, hstat]

lemma listAudio_eq (hsec : audioSectionForType req.type = some sec)
    (hdb : deps.registry = some db) :
    listAudio deps req = .ok ⟨(listRows db sec req).1.map (listItem deps req
      (shownFailures deps req)), (listRows db sec req).2⟩ := by
  simp only [listAudio, hsec, hdb]
  congr 2
  refine map_congr_left fun row hrow => ?_
  cases htable : deps.failures with
  | none => simp [listItem, shownFailures, htable]
  | some table =>
    cases hwith : req.withFailures with
    | true => exact listItem_eq hrow htable hwith
    | false => simp [listItem, shownFailures, hwith]

/-- The client walks along the pages that the registry serves. -/
lemma followCursor_eq (hsec : audioSectionForType req.type = some sec)
    (hdb : deps.registry = some db) (fuel : ℕ) (cursor : Option String) :
    followCursor deps req fuel (cursor.getD "") = follow (fun cursor =>
      let page := listRows db sec { req with cursor := cursor.getD "" }
      (page.1.map (listItem deps req (shownFailures deps req)),
        if page.2 = "" then none else some page.2)) fuel cursor := by
  induction fuel generalizing cursor with
  | zero => rfl
  | succ fuel ih =>
    have hpage : listAudio deps { req with cursor := cursor.getD "" } = _ := listAudio_eq hsec hdb
    rw [followCursor, hpage, follow]
    dsimp only
    split_ifs with hend
    · rfl
    · exact congrArg (Option.map _) (ih (some _))

lemma serves_listing (hpaths : ∀ row ∈ db.rows, StoredPath row.virtualPath) {β : Type}
    (item : AudioProjection → β) :
    Serves rowPath item (clampPageLimit req.limit).toNat (listing db sec req.pathPrefix)
      fun cursor =>
        let page := listRows db sec { req with cursor := cursor.getD "" }
        (page.1.map item, if page.2 = "" then none else some page.2) where
  items served left hall := by
    have hpage := listRows_eq hpaths hall rfl
    rw [lastPath] at hpage
    rw [hpage]
  next served left hall := by
    have hpage := listRows_eq hpaths hall rfl
    rw [lastPath] at hpage
    dsimp only
    rw [hpage]
    by_cases hlast : left.length ≤ (clampPageLimit req.limit).toNat
    · simp only [if_pos hlast, if_true]
    simp only [if_neg hlast]
    -- a full page ends in a row, whose path is not the empty cursor
    generalize htake : left.take (clampPageLimit req.limit).toNat = page
    have hsub : ∀ row ∈ page, rowPath row ≠ "" := by
      intro row hrow
      have hmem : row ∈ listing db sec req.pathPrefix := by
        rw [hall, mem_append]
        exact Or.inr (mem_of_mem_take (htake ▸ hrow))
      exact pathColumn_ne_empty (hpaths row ((mem_listing hpaths).mp hmem).1)
    rcases eq_nil_or_concat' page with rfl | ⟨init, last, rfl⟩
    · rfl
    · have hrow : rowPath last ≠ "" := hsub last (by simp)
      simp [lastPath, endOf, hrow]

/-- Following the cursors brings every committed projection under the prefix,
once and in the order of the paths, in a bounded number of requests. -/
theorem cursor_walk_lists_every_projection (hsec : audioSectionForType req.type = some sec)
    (hdb : deps.registry = some db) (hpaths : ∀ row ∈ db.rows, StoredPath row.virtualPath)
    {fuel : ℕ} (hfuel : db.rows.length < fuel) :
    ∃ (pages : List (List AudioListItem)) (rows : List AudioProjection),
      followCursor deps req fuel "" = some pages ∧
      pages.flatten = rows.map (listItem deps req (shownFailures deps req)) ∧
      (rows.Pairwise fun x y => rowPath x < rowPath y) ∧
      ∀ row, row ∈ rows ↔ row ∈ db.rows ∧ row.sec = sec ∧ row.state = .committed ∧
        req.pathPrefix.toList <+: (rowPath row).toList := by
  have hpos : 0 < (clampPageLimit req.limit).toNat := by
    unfold clampPageLimit defaultPageLimit maxPageLimit
    split_ifs <;> omega
  have hlength : (listing db sec req.pathPrefix).length < fuel := by
    rw [listing, inOrder, length_insertionSort]
    exact (length_filter_le _ _).trans_lt hfuel
  obtain ⟨pages, hpages, hflat⟩ :=
    (serves_listing hpaths (listItem deps req (shownFailures deps req))).follow_all hpos hlength
  refine ⟨pages, listing db sec req.pathPrefix, ?_, hflat, pairwise_listing hpaths,
    fun row => mem_listing hpaths⟩
  rw [← hpages]
  exact followCursor_eq hsec hdb fuel none

end Walk

/-- A committed track of a music section. -/
def shelfRow (album track : String) (fileIndex : ℤ) : AudioProjection where
  sec := .music
  virtualPath := [album, track]
  portablePathKey := album ++ "/" ++ track
  hash := "00112233445566778899aabbccddeeff00112233"
  fileIndex := fileIndex
  sourcePath := track
  size := 1
  mtimeNS := 0
  title := album
  magnet := ""
  externalID := ""
  externalIDNamespace := ""
  cueTrack := 0
  byteOffset := 0
  header := []
  state := .committed
  txnID := ""
  stagingName := ""
  createdAtNS := 0
  updatedAtNS := 0

def shelf : Registry where
  rows := [shelfRow "Live" "b.flac" 1, shelfRow "Live!" "a.flac" 2, shelfRow "Live" "a.flac" 3]
  unique := by decide

def shelfRequest : AudioListRequest := ⟨"music", "Live/", 1, "", false⟩

def shelfDeps : ListDeps := ⟨some shelf, none, none⟩

/-- Pages of one row each, under a prefix that ends at a component. -/
theorem walk_of_one_album :
    ∃ (pages : List (List AudioListItem)) (rows : List AudioProjection),
      followCursor shelfDeps shelfRequest 4 "" = some pages ∧
      pages.flatten = rows.map (listItem shelfDeps shelfRequest
        (shownFailures shelfDeps shelfRequest)) ∧
      (rows.Pairwise fun x y => rowPath x < rowPath y) ∧
      ∀ row, row ∈ rows ↔ row ∈ shelf.rows ∧ row.sec = .music ∧ row.state = .committed ∧
        shelfRequest.pathPrefix.toList <+: (rowPath row).toList :=
  cursor_walk_lists_every_projection rfl rfl (by decide) (by decide)

example : (followCursor shelfDeps shelfRequest 4 "").map (fun pages =>
    pages.map fun page => page.map (·.path)) = some [["Live/a.flac"], ["Live/b.flac"]] := by
  decide +kernel

end Tiramisu.Library
