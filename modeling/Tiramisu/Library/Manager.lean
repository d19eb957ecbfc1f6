import Tiramisu.Library.AudioRequests
import Tiramisu.Library.Store

/-!
# Requests to the library

`Add`, `AddAudio`, `Remove` and `RemoveAudio` with their drops, one call, one
statement or one lock at a time.  The state carries a history beside the stores
and the locks: the stubs that requests have written and nobody has removed,
which request drew which audio transaction, and which requests have taken
their own torrent out of the engine again.
-/

namespace Tiramisu.Library

open Posix Protocol
open Go
open Metadb (AudioSection EpisodeEntry RelPath)

/-- The manager's configuration; the engine's address holds no stream link. -/
structure LibraryConfig where
  moviesDir : Path
  tvDir : Path
  goStormURL : String
  uploads : Bool
  linkless : Linkless goStormURL.toList

inductive Kind
  | movie
  | tv
  deriving DecidableEq, Repr

def LibraryConfig.dir (cfg : LibraryConfig) : Kind → Path
  | .movie => cfg.moviesDir
  | .tv => cfg.tvDir

def LibraryConfig.streamURL (cfg : LibraryConfig) : String → ℤ → String :=
  Manager.streamURL cfg.goStormURL

/-- A path as Go spells it. -/
def pathText (p : Path) : String := p.foldl (fun text name => text ++ "/" ++ name) ""

/-! ### Stubs by hash -/

/-- The eight characters a stub's name carries: the last of a movie's hash, the
first of an episode's. -/
def hash8 : Kind → String → String
  | .movie, hash => hashSuffix hash
  | .tv, hash => hashPrefix hash

def namedFor (kind : Kind) (hash : String) (path : Path) : Bool :=
  hasSuffix (toLowerASCII (pathText path)) ("_" ++ toLowerASCII (hash8 kind hash) ++ ".mkv")

/-- `findByHash`: `none` when the directory cannot be read.  A walk that ended
in `ENOENT` counts with what it has found so far. -/
def findByHash (cfg : LibraryConfig) (kind : Kind) (hash : String) :
    StoreProg (Option (List Path)) := do
  let (found, err) ← walk (cfg.dir kind)
  if err.any (· ≠ .enoent) then return none
  else return some (found.filter (namedFor kind hash))

/-! ### Filing a torrent -/

/-- The `.torrent` of a request: none, one that does not fit the request, or
one of its release. -/
inductive ReleaseFile
  | absent
  | refused
  | matching
  deriving DecidableEq, Repr

/-- An add that `validate` has let through.  The names made of sanitised titles
do not depend on the hash; the show's folder is a path, because the air date in
its name may carry a slash.  Episode `0` asks for a whole pack. -/
structure VideoRequest where
  kind : Kind
  hash : String
  magnet : String
  torrentFile : ReleaseFile
  movieBase : String
  showFolder : Path
  cleanShow : String
  showKey : String
  season : ℕ
  episode : ℕ
  fileIndex : ℤ
  qualityScore : ℤ
  imdb : String
  acceptFiles : List String → Bool
  now : ℤ
  valid : InfoHash hash

/-- The largest video file, the first among equals. -/
def largestVideo (files : List FileStat) : Option FileStat :=
  (files.filter fun f => isVideoFile f.path).foldl
    (fun best f => if best.all fun b => f.length > b.length then some f else best) none

def pickFile (index : ℤ) (files : List FileStat) : Option FileStat :=
  if 0 < index then (files.find? fun f => f.id = index).filter fun f => isVideoFile f.path
  else largestVideo files

structure EpisodeFile where
  file : FileStat
  season : ℕ
  episode : ℕ
  deriving DecidableEq, Repr

def pickFileForEpisode (req : VideoRequest) (files : List FileStat) : Option FileStat :=
  if 0 < req.fileIndex then pickFile req.fileIndex files else
  let named := files.find? fun f => isVideoFile f.path &&
    let (season, episode) := parseSeasonEpisode (filepathBase f.path)
    episode = req.episode && (season = req.season || season = 0)
  named <|> pickFile 0 files

/-- The files of a pack that name an episode; a missing season is the request's. -/
def packFiles (req : VideoRequest) (files : List FileStat) : List EpisodeFile :=
  files.filterMap fun f =>
    if !isVideoFile f.path then none else
    let (season, episode) := parseSeasonEpisode (filepathBase f.path)
    if episode = 0 then none else some ⟨f, if season = 0 then req.season else season, episode⟩

def wantedFiles (req : VideoRequest) (files : List FileStat) : Option (List EpisodeFile) :=
  if 0 < req.episode then
    (pickFileForEpisode req files).map fun f => [⟨f, req.season, req.episode⟩]
  else if packFiles req files = [] then none else some (packFiles req files)

/-- One file for each episode, the longest, ordered by season and episode. -/
def bestFiles (wanted : List EpisodeFile) : List EpisodeFile :=
  let best : GoMap (ℕ × ℕ) EpisodeFile := wanted.foldl (fun best w =>
    match best.lookup (w.season, w.episode) with
    | some cur => if w.file.length > cur.file.length then best.insert (w.season, w.episode) w else best
    | none => best.insert (w.season, w.episode) w) ∅
  (best.entries.map (·.2)).insertionSort fun a b =>
    a.season < b.season ∨ (a.season = b.season ∧ a.episode ≤ b.episode)

def episodePath (cfg : LibraryConfig) (req : VideoRequest) (season episode : ℕ) (hash : String) :
    Path :=
  cfg.tvDir ++ req.showFolder ++ [seasonDirName season,
    episodeFilename req.cleanShow season episode (hashPrefix hash)]

def moviePath (cfg : LibraryConfig) (req : VideoRequest) (hash : String) : Path :=
  cfg.moviesDir ++ [movieFilename req.movieBase hash]

def addMovie (cfg : LibraryConfig) (req : VideoRequest) (hash : String) (files : List FileStat) :
    StoreProg (Option (List Path)) := do
  match pickFile req.fileIndex files with
  | none => return none
  | some file =>
    match ← writeStub (moviePath cfg req hash) (cfg.streamURL hash file.id) file.length
      req.magnet req.imdb with
    | .error _ => return none
    | .ok () => return some [moviePath cfg req hash]

/-- What an add found in place of an episode it has written. -/
structure Previous where
  entry : Option EpisodeEntry
  hadStub : Bool
  path : Path
  season : ℕ
  episode : ℕ

def restoreEntry (req : VideoRequest) (p : Previous) : StoreProg Bool :=
  match p.entry with
  | some entry => call (.upsertEpisode (episodeKey req.showKey p.season p.episode) entry)
  | none => call (.deleteEpisode (episodeKey req.showKey p.season p.episode))

/-- A stub that was overwritten stays. -/
def undoStub (p : Previous) : StoreProg Bool := if p.hadStub then return true else deleteStub p.path

def rollbackEpisodes (req : VideoRequest) : List Previous → StoreProg Unit
  | [] => return ()
  | p :: prior => do
      let _ ← undoStub p
      let _ ← restoreEntry req p
      rollbackEpisodes req prior

/-- The loop of `addEpisodes` that writes and registers one episode after the
other; `none` once it has rolled back. -/
def fileEpisodes (cfg : LibraryConfig) (req : VideoRequest) (hash : String)
    (prior : List Previous) : List EpisodeFile → StoreProg (Option (List Previous))
  | [] => return some prior
  | w :: wanted => do
      let path := episodePath cfg req w.season w.episode hash
      let key := episodeKey req.showKey w.season w.episode
      match ← call (.getEpisode key) with
      | none =>
        rollbackEpisodes req prior
        return none
      | some prev =>
        let hadStub := (← call (.stat path)).isOk
        match ← writeStub path (cfg.streamURL hash w.file.id) w.file.length req.magnet "" with
        | .error _ =>
          rollbackEpisodes req prior
          return none
        | .ok () =>
          let prior := prior ++ [⟨prev, hadStub, path, w.season, w.episode⟩]
          let entry : EpisodeEntry :=
            { qualityScore := req.qualityScore
              hash := hash
              filePath := path
              source := "api"
              created := req.now
              showIMDB := (prev.map (·.showIMDB)).getD "" }
          if ← call (.upsertEpisode key entry) then fileEpisodes cfg req hash prior wanted
          else
            rollbackEpisodes req prior
            return none

/-- Deletes the stub of the release an episode replaces, and names the torrent
behind it. -/
def retireEpisode (hash : String) (p : Previous) : StoreProg (Option String) :=
  match p.entry with
  | none => return none
  | some entry =>
    if entry.filePath = [] ∨ entry.filePath = p.path then return none else do
    let gone ← deleteStub entry.filePath
    return if gone ∧ entry.hash ≠ "" ∧ entry.hash ≠ hash then some entry.hash else none

def retireReplaced (hash : String) : List Previous → StoreProg (List String)
  | [] => return []
  | p :: prior => do
      let dropped ← retireEpisode hash p
      let more ← retireReplaced hash prior
      return more ∪ dropped.toList

/-- `addEpisodes`, with the torrents it leaves to be dropped. -/
def addEpisodes (cfg : LibraryConfig) (req : VideoRequest) (hash : String) (files : List FileStat) :
    StoreProg (Option (List Path) × List String) := do
  match wantedFiles req files with
  | none => return (none, [])
  | some wanted =>
    match ← fileEpisodes cfg req hash [] (bestFiles wanted) with
    | none => return (none, [])
    | some prior =>
      let dropped ← retireReplaced hash prior
      return (some (prior.map (·.path)), dropped)

def fileKind (cfg : LibraryConfig) (req : VideoRequest) (hash : String) (files : List FileStat) :
    StoreProg (Option (List Path) × List String) :=
  match req.kind with
  | .movie => do return (← addMovie cfg req hash files, [])
  | .tv => addEpisodes cfg req hash files

/-- The end of `Add`, from the wait for the file list on; `none` is a failure. -/
def fileTorrent (cfg : LibraryConfig) (req : VideoRequest) (hash : String) :
    StoreProg (Option (List Path) × List String) := do
  match ← call (.getTorrentInfo hash) with
  | none => return (none, [hash])
  | some files =>
    if req.acceptFiles (files.map (·.path)) then
      let (filed, dropped) ← fileKind cfg req hash files
      return (filed, if filed = none then dropped.insert hash else dropped)
    else return (none, [hash])

/-- `alreadyPresent`: for an episode only the stub of that very name counts, and
a pack is never present. -/
def alreadyPresent (cfg : LibraryConfig) (req : VideoRequest) : StoreProg (Option (List Path)) := do
  match req.kind with
  | .movie => findByHash cfg .movie req.hash
  | .tv =>
    if req.episode = 0 then return some [] else
    let path := episodePath cfg req req.season req.episode req.hash
    match ← call (.stat path) with
    | .error _ => return some []
    | .ok _ => return some [path]

/-! ### The shared state -/

structure LibraryState where
  store : Store
  audio : World
  hashLocks : GoMap String ℕ
  showLocks : GoMap String ℕ
  showReaders : List (String × ℕ)
  written : List Path
  drawn : GoMap String ℕ
  abandoned : List ℕ

/-- `plan` stands for the calls of `AddAudio` between the file list and its
transaction; `abandon` is the removal of the torrent the request has added. -/
inductive LibOp
  | store (o : StoreCall)
  | audio (o : Op)
  | lock (key : String)
  | tryLock (key : String)
  | unlock (key : String)
  | lockShow (key : String)
  | unlockShow (key : String)
  | rlockShow (key : String)
  | runlockShow (key : String)
  | audioHashReferenced (hash : String)
  | plan (hash : String)
  | abandon (hash : String)

abbrev LibOp.Res : LibOp → Type
  | .store o => o.Res
  | .audio o => o.Res
  | .lock _ | .unlock _ | .lockShow _ | .unlockShow _ | .rlockShow _ | .runlockShow _ => Unit
  | .tryLock _ | .abandon _ => Bool
  | .audioHashReferenced _ => Option Bool
  | .plan _ => Option AddRequest

structure LibChoice where
  store : StoreChoice
  audio : Choice
  plan : Option AddRequest

/-- The stubs written and not removed, after a call. -/
def recordWritten (c : StoreChoice) (written : List Path) : (o : StoreCall) → o.Res → List Path
  | .writeFile p _, .ok _ => written.insert p
  | .writeFile p _, .error _ => if c.fail && c.torn then written.filter (· ≠ p) else written
  | .remove p, .ok _ => written.filter (· ≠ p)
  | _, _ => written

/-- One operation of a request.  A lock that is taken makes it wait; a
transaction id is drawn at random and is never one in use. -/
def LibOp.exec (cfg : LibraryConfig) (pid : ℕ) :
    (o : LibOp) → LibChoice → LibraryState → Option (o.Res × LibraryState)
  | .store o, c, s => (o.exec c.store s.store).map fun (r, st) =>
    (r, { s with store := st, written := recordWritten c.store s.written o r })
  | .audio o, c, s => ((machine cfg.streamURL).exec o c.audio s.audio).map fun (r, w) =>
    (r, { s with audio := w })
  | .lock key, _, s =>
    match s.hashLocks.lookup key with
    | some _ => none
    | none => some ((), { s with hashLocks := s.hashLocks.insert key pid })
  | .tryLock key, _, s =>
    match s.hashLocks.lookup key with
    | some _ => some (false, s)
    | none => some (true, { s with hashLocks := s.hashLocks.insert key pid })
  | .unlock key, _, s => some ((), { s with hashLocks := s.hashLocks.erase key })
  | .lockShow key, _, s =>
    match s.showLocks.lookup key, s.showReaders.any fun e => e.1 = key with
    | none, false => some ((), { s with showLocks := s.showLocks.insert key pid })
    | _, _ => none
  | .unlockShow key, _, s => some ((), { s with showLocks := s.showLocks.erase key })
  | .rlockShow key, _, s =>
    match s.showLocks.lookup key with
    | some _ => none
    | none => some ((), { s with showReaders := (key, pid) :: s.showReaders })
  | .runlockShow key, _, s => some ((), { s with showReaders := s.showReaders.erase (key, pid) })
  | .audioHashReferenced hash, c, s =>
    some (if c.audio.fail then none else some (s.audio.db.audioHashReferenced hash), s)
  | .plan hash, c, s =>
    match c.plan with
    | none => some (none, s)
    | some req =>
      if req.hash = hash ∧ s.drawn.lookup req.txnID = none ∧
          ∀ r ∈ s.audio.db.rows, r.txnID ≠ req.txnID then
        some (some req, { s with drawn := s.drawn.insert req.txnID pid })
      else none
  | .abandon hash, c, s => ((StoreCall.removeTorrent hash).exec c.store s.store).map fun (r, st) =>
    (r, { s with store := st, abandoned := pid :: s.abandoned })

abbrev LibProg := Program LibOp LibOp.Res

def storeOps : Embedding StoreCall StoreCall.Res LibOp LibOp.Res := ⟨.store, fun _ r => r⟩

def audioOps : Embedding Op Op.Res LibOp LibOp.Res := ⟨.audio, fun _ r => r⟩

def onStore {α : Type} (p : StoreProg α) : LibProg α := p.lift storeOps

def onAudio {α : Type} (p : Prog α) : LibProg α := p.lift audioOps

def perform (o : LibOp) : LibProg o.Res := Program.op o

/-! ### Requests -/

inductive Outcome
  | filed (paths : List Path)
  | present (paths : List Path)
  | projected
  | removed (paths : List Path)
  | removedAudio (dropped : Bool)
  | absent
  | failed
  deriving DecidableEq, Repr

/-- Whether a stub under one of the directories is named for the hash, or a
directory cannot be read. -/
def stubsLeft (cfg : LibraryConfig) (hash : String) : List Kind → StoreProg Bool
  | [] => return false
  | kind :: kinds => do
      match ← findByHash cfg kind hash with
      | some [] => stubsLeft cfg hash kinds
      | _ => return true

/-- The part of `dropTorrentIfUnused` under the hash's lock. -/
def dropUnreferenced (cfg : LibraryConfig) (hash : String) : LibProg Bool := do
  if ← onStore (stubsLeft cfg hash [.movie, .tv]) then return false else
  match ← perform (.audioHashReferenced hash) with
  | some false => perform (.store (.removeTorrent hash))
  | _ => return false

def dropTorrentIfUnused (cfg : LibraryConfig) (hash : String) : LibProg Bool := do
  if hash = "" then return false else
  if !(← perform (.tryLock hash)) then return false else
  let dropped ← dropUnreferenced cfg hash
  perform (.unlock hash)
  return dropped

def dropAll (cfg : LibraryConfig) : List String → LibProg Unit
  | [] => return ()
  | hash :: hashes => do
      let _ ← dropTorrentIfUnused cfg hash
      dropAll cfg hashes

/-- The order in which a `range` over a map meets its keys. -/
structure RangeOrder where
  order : List String → List String
  perm : ∀ keys, (order keys).Perm keys

def uploadReleaseFile (cfg : LibraryConfig) (file : ReleaseFile) (hash : String) : StoreProg Bool :=
  if file = .matching ∧ cfg.uploads then call (.uploadTorrent hash) else return false

/-- The lock of the engine's spelling, when it is not the one already held. -/
def lockSecond (hash held : String) : LibProg (Option String) :=
  if hash = held then return none else do
    perform (.lock hash)
    return some hash

/-- `Add` between its locks: the outcome, the torrents to drop once the locks
are gone, and the second hash it has locked. -/
def addLocked (cfg : LibraryConfig) (req : VideoRequest) :
    LibProg (Outcome × List String × Option String) := do
  match ← onStore (alreadyPresent cfg req) with
  | none => return (.failed, [], none)
  | some (path :: paths) => return (.present (path :: paths), [], none)
  | some [] =>
    if req.torrentFile = .refused then return (.failed, [], none) else
    let _ ← onStore (uploadReleaseFile cfg req.torrentFile req.hash)
    let answer ← perform (.store (.addTorrent req.hash))
    let hash := normalized (answer.getD "")
    if answer.isSome ∧ InfoHash hash then
      let second ← lockSecond hash req.hash
      let (filed, dropped) ← onStore (fileTorrent cfg req hash)
      return (match filed with
        | none => .failed
        | some paths => .filed paths, dropped, second)
    else return (.failed, [req.hash], none)

def episodeLock (key : String) : String := "ep:" ++ key

/-- The locks of a show: a pack takes it alone, an episode shares it. -/
def lockEpisodes (req : VideoRequest) : LibProg Unit := do
  match req.kind with
  | .movie => return ()
  | .tv =>
    if req.episode = 0 then perform (.lockShow (episodeKey req.showKey 0 0))
    else
      perform (.rlockShow (episodeKey req.showKey 0 0))
      perform (.lock (episodeLock (episodeKey req.showKey req.season req.episode)))

def unlockEpisodes (req : VideoRequest) : LibProg Unit := do
  match req.kind with
  | .movie => return ()
  | .tv =>
    if req.episode = 0 then perform (.unlockShow (episodeKey req.showKey 0 0))
    else
      perform (.unlock (episodeLock (episodeKey req.showKey req.season req.episode)))
      perform (.runlockShow (episodeKey req.showKey 0 0))

def unlockSecond : Option String → LibProg Unit
  | none => return ()
  | some hash => perform (.unlock hash)

/-- `Add`: the deferred unlocks run in reverse, the drops after them. -/
def Manager.add (cfg : LibraryConfig) (S : RangeOrder) (req : VideoRequest) : LibProg Outcome := do
  perform (.lock req.hash)
  lockEpisodes req
  let (outcome, dropped, second) ← addLocked cfg req
  unlockSecond second
  unlockEpisodes req
  perform (.unlock req.hash)
  dropAll cfg ((S.order dropped).map canonicalHashKey)
  return outcome

/-- The `abandon` of `AddAudio`: a torrent that was there before stays. -/
def abandonUnless (preexisting : Bool) (hash : String) : LibProg Unit :=
  if preexisting then return () else do
    let _ ← perform (.abandon hash)

structure AudioAdd where
  hash : String
  torrentFile : ReleaseFile
  pruneOrder : SectionWriter.LongestFirst
  valid : InfoHash hash

/-- `AddAudio` once the engine has taken the torrent. -/
def projectTorrent (req : AudioAdd) (preexisting : Bool) (engineHash : String) :
    LibProg Outcome := do
  match ← perform (.store (.getTorrentInfo engineHash)) with
  | none =>
    abandonUnless preexisting engineHash
    return .failed
  | some _ =>
    match ← perform (.plan engineHash) with
    | none =>
      abandonUnless preexisting engineHash
      return .failed
    | some plan =>
      match ← onAudio (Library.addAudio req.pruneOrder plan) with
      | .error _ =>
        abandonUnless preexisting engineHash
        return .failed
      | .ok () => return .projected

/-- `AddAudio` under the lock of its hash, and the second hash it has locked. -/
def addAudioLocked (cfg : LibraryConfig) (req : AudioAdd) : LibProg (Outcome × Option String) := do
  let lockKey := canonicalHashKey req.hash
  match ← perform (.store .listTorrents) with
  | none => return (.failed, none)
  | some torrents =>
    let known := torrents.map canonicalHashKey
    let _ ← onStore (uploadReleaseFile cfg req.torrentFile req.hash)
    let answer ← perform (.store (.addTorrent req.hash))
    let engineHash := normalized (answer.getD "")
    if answer.isSome ∧ InfoHash engineHash then
      let engineKey := canonicalHashKey engineHash
      let second ← lockSecond engineKey lockKey
      let outcome ← projectTorrent req (lockKey ∈ known ∨ engineKey ∈ known) engineHash
      return (outcome, second)
    else
      abandonUnless (lockKey ∈ known) lockKey
      return (.failed, none)

def Manager.addAudio (cfg : LibraryConfig) (req : AudioAdd) : LibProg Outcome := do
  if req.torrentFile = .refused then return .failed else
  let lockKey := canonicalHashKey req.hash
  perform (.lock lockKey)
  let (outcome, second) ← addAudioLocked cfg req
  unlockSecond second
  perform (.unlock lockKey)
  return outcome

/-- What a removal names: a path as the client gives it, or a hash. -/
inductive RemoveTarget
  | path (absolute : Bool) (path : Path)
  | hash (hash : String)

/-- `filepath.Clean` on the components of an absolute path. -/
def cleanPath (parts : List String) : Path :=
  parts.foldl (fun acc part =>
    if part = "" ∨ part = "." then acc else if part = ".." then acc.dropLast else acc ++ [part]) []

def LibraryConfig.mediaDirs (cfg : LibraryConfig) : List Path := [cfg.moviesDir, cfg.tvDir]

/-- The first candidate inside the media directories at which there is something. -/
def firstStub (cfg : LibraryConfig) : List Path → StoreProg (Option Path)
  | [] => return none
  | path :: paths => do
      if ∃ dir ∈ cfg.mediaDirs, dir <+: path then
        match ← call (.stat path) with
        | .error _ => firstStub cfg paths
        | .ok isDir =>
          if isDir || !hasSuffix (toLowerASCII (pathText path)) ".mkv" then return none
          else return some path
      else firstStub cfg paths

/-- A client's path may be absolute, below a media directory or beside it. -/
def resolveInsideMediaDirs (cfg : LibraryConfig) (absolute : Bool) (path : Path) :
    StoreProg (Option Path) :=
  if absolute then firstStub cfg [cleanPath path]
  else firstStub cfg (cfg.mediaDirs.flatMap fun dir =>
    [cleanPath (dir.dropLast ++ path), cleanPath (dir ++ path)])

def findEverywhere (cfg : LibraryConfig) (hash : String) : StoreProg (List Path) := do
  match ← findByHash cfg .movie hash with
  | none => return []
  | some movies =>
    match ← findByHash cfg .tv hash with
    | none => return []
    | some episodes => return movies ++ episodes

def removeTargets (cfg : LibraryConfig) : RemoveTarget → StoreProg (List Path)
  | .hash hash => if InfoHash (normalized hash) then findEverywhere cfg (normalized hash) else return []
  | .path absolute path => do return (← resolveInsideMediaDirs cfg absolute path).toList

def deleteEpisodes : List String → StoreProg Unit
  | [] => return ()
  | key :: keys => do
      let _ ← call (.deleteEpisode key)
      deleteEpisodes keys

def forgetEpisode (path : Path) : StoreProg Unit := do
  match ← call (.episodesByFilePath path) with
  | none => return ()
  | some keys => deleteEpisodes keys

/-- `blacklist`: a stub without a hash has none to record. -/
def blacklistStub (wanted : Bool) (path : Path) : Option String → StoreProg Bool
  | some hash => if wanted then call (.blacklist path hash) else return false
  | none => return false

/-- The loop of `Remove`: the stubs that are gone, and the hashes they carried. -/
def removeStubs (blacklist : Bool) : List Path → StoreProg (List Path × List String)
  | [] => return ([], [])
  | path :: paths => do
      let hash ← stubHash path
      if ← deleteStub path then
        let _ ← blacklistStub blacklist path hash
        forgetEpisode path
        let (removed, hashes) ← removeStubs blacklist paths
        return (path :: removed, hashes ∪ hash.toList)
      else removeStubs blacklist paths

structure RemoveRequest where
  target : RemoveTarget
  blacklist : Bool

def Manager.remove (cfg : LibraryConfig) (S : RangeOrder) (req : RemoveRequest) : LibProg Outcome := do
  let targets ← onStore (removeTargets cfg req.target)
  if targets = [] then return .failed else
  let (removed, hashes) ← onStore (removeStubs req.blacklist targets)
  dropAll cfg (S.order hashes)
  if removed.length < targets.length then return .failed else return .removed removed

/-- `RemoveAudio`, and the drop of a torrent no projection refers to any more. -/
def Manager.removeAudio (cfg : LibraryConfig) (sec : AudioSection) (virtualPath : RelPath) (now : ℤ)
    (dropTorrent : Bool) : LibProg Outcome := do
  match ← onAudio (Library.removeAudio sec virtualPath now) with
  | .absent => return .absent
  | .removed hash referenced =>
    if dropTorrent && !referenced then return .removedAudio (← dropTorrentIfUnused cfg hash)
    else return .removedAudio false
  | _ => return .failed

def Manager.removeAudioPrefix (cfg : LibraryConfig) (sec : AudioSection) (pre : RelPath) (now : ℤ)
    (dropTorrent : Bool) : LibProg Outcome := do
  match ← onAudio (Library.removeAudioPrefix sec pre now) with
  | .empty => return .removedAudio false
  | .removed _ hash referenced =>
    if dropTorrent && !referenced then return .removedAudio (← dropTorrentIfUnused cfg hash)
    else return .removedAudio false
  | _ => return .failed

inductive LibRequest
  | add (S : RangeOrder) (req : VideoRequest)
  | addAudio (req : AudioAdd)
  | remove (S : RangeOrder) (req : RemoveRequest)
  | removeAudio (sec : AudioSection) (virtualPath : RelPath) (now : ℤ) (dropTorrent : Bool)
  | removeAudioPrefix (sec : AudioSection) (pre : RelPath) (now : ℤ) (dropTorrent : Bool)

def LibRequest.prog (cfg : LibraryConfig) : LibRequest → LibProg Outcome
  | .add S req => Manager.add cfg S req
  | .addAudio req => Manager.addAudio cfg req
  | .remove S req => Manager.remove cfg S req
  | .removeAudio sec virtualPath now dropTorrent =>
    Manager.removeAudio cfg sec virtualPath now dropTorrent
  | .removeAudioPrefix sec pre now dropTorrent =>
    Manager.removeAudioPrefix cfg sec pre now dropTorrent

end Tiramisu.Library
