import Tiramisu.Lib.Files
import Tiramisu.Library.Naming
import Tiramisu.Metadb.Episodes

/-!
# The video library's stores

The media directories, the episode registry, the torrent engine and the
blacklist, and the calls the library and the sync engines make on them.  The
engine is the set of its torrents, each under its hexadecimal hash.
-/

namespace Tiramisu.Library

open Posix Protocol
open Metadb (EpisodeEntry EpisodeTable)

structure Store where
  media : Disk Content
  episodes : EpisodeTable
  engine : List String
  blacklist : List (Path × String)

/-- The text of an answer as the library reads it. -/
def normalized (text : String) : String := Go.toLowerASCII (Go.trimSpaceASCII text)

/-- What the engine answers to an add: nothing, the spelling it was sent (a 2xx
without a hash), its own key, or something that is no info hash. -/
inductive AddAnswer
  | rejected
  | echoed
  | keyed
  | malformed (text : String) (h : ¬ InfoHash (normalized text))

/-- What the environment decides about one call: whether it fails, whether a
failed write has cut the file short, whether the engine has taken an add or a
removal whatever it answers, the inode of a new object and the engine's answers. -/
structure StoreChoice where
  fail : Bool
  torn : Bool
  taken : Bool
  ino : ℕ
  answer : AddAnswer
  files : List FileStat

/-- `listed` marks a call on an entry that a directory listing has named. -/
inductive StoreCall
  | stat (p : Path)
  | lstat (listed : Bool) (p : Path)
  | readDir (listed : Bool) (p : Path)
  | readFile (p : Path)
  | mkdir (p : Path)
  | writeFile (p : Path) (data : Content)
  | remove (p : Path)
  | getEpisode (key : String)
  | upsertEpisode (key : String) (entry : EpisodeEntry)
  | deleteEpisode (key : String)
  | episodesByFilePath (p : Path)
  | uploadTorrent (hash : String)
  | addTorrent (hash : String)
  | getTorrentInfo (hash : String)
  | removeTorrent (hash : String)
  | listTorrents
  | blacklist (p : Path) (hash : String)

abbrev StoreCall.Res : StoreCall → Type
  | .stat _ | .lstat _ _ => Except Errno Bool
  | .readDir _ _ => Except Errno (List String)
  | .readFile _ => Except Errno Content
  | .mkdir _ | .writeFile _ _ | .remove _ => Except Errno Unit
  | .getEpisode _ => Option (Option EpisodeEntry)
  | .episodesByFilePath _ => Option (List String)
  | .addTorrent _ => Option String
  | .getTorrentInfo _ => Option (List FileStat)
  | .listTorrents => Option (List String)
  | .upsertEpisode _ _ | .deleteEpisode _ | .uploadTorrent _ | .removeTorrent _ | .blacklist _ _ =>
    Bool

/-- What a write that was cut short leaves: an object that does not decode. -/
def tornStub : Content := .bytes "\x7b"

/-- The engine keeps a torrent under its hexadecimal hash, however it was spelled. -/
def taken (yes : Bool) (hash : String) (engine : List String) : List String :=
  if yes then engine.insert (canonicalHashKey hash) else engine

def AddAnswer.text (hash : String) : AddAnswer → Option String
  | .rejected => none
  | .echoed => some hash
  | .keyed => some (canonicalHashKey hash)
  | .malformed text _ => some text

def StoreCall.exec (c : StoreChoice) (s : Store) : (call : StoreCall) → Option (call.Res × Store)
  | .stat p => some (if c.fail then .error .eio else s.media.stat p, s)
  | .lstat _ p => some (if c.fail then .error .eio else s.media.lstat p, s)
  | .readDir _ p => some (if c.fail then .error .eio else s.media.readDir p, s)
  | .readFile p => some (if c.fail then .error .eio else s.media.readFile p, s)
  | .mkdir p =>
    if c.fail then some (.error .eio, s) else
    (s.media.mkdir p c.ino).map fun (r, d) => (r, { s with media := d })
  | .writeFile p data =>
    if c.fail && !c.torn then some (.error .eio, s) else
    (s.media.writeFile p (if c.fail then tornStub else data) c.ino).map fun (r, d) =>
      (if c.fail then .error .eio else r, { s with media := d })
  | .remove p =>
    some (if c.fail then (.error .eio, s)
      else ((s.media.remove p).1, { s with media := (s.media.remove p).2 }))
  | .getEpisode key => some (if c.fail then none else some (s.episodes.getEpisode key), s)
  | .upsertEpisode key entry =>
    some (!c.fail, { s with
      episodes := if c.fail then s.episodes else s.episodes.upsertEpisode key entry })
  | .deleteEpisode key =>
    some (!c.fail, { s with
      episodes := if c.fail then s.episodes else s.episodes.deleteEpisode key })
  | .episodesByFilePath p =>
    some (if c.fail then none else some (s.episodes.episodesByFilePath p), s)
  | .uploadTorrent hash =>
    some (!c.fail, { s with engine := taken c.taken hash s.engine })
  | .addTorrent hash =>
    some (c.answer.text hash, { s with engine := taken c.taken hash s.engine })
  | .getTorrentInfo hash =>
    some (if !c.fail ∧ hash ∈ s.engine then some c.files else none, s)
  | .removeTorrent hash =>
    some (!c.fail, { s with
      engine := if c.fail && !c.taken then s.engine else s.engine.filter (· ≠ hash) })
  | .listTorrents => some (if c.fail then none else some s.engine, s)
  | .blacklist p hash =>
    some (!c.fail, { s with
      blacklist := if c.fail then s.blacklist else s.blacklist ++ [(p, hash)] })

def storeMachine : Machine StoreCall StoreCall.Res StoreChoice Store where
  exec call c s := call.exec c s

abbrev StoreProg := Program StoreCall StoreCall.Res

def call (o : StoreCall) : StoreProg o.Res := Program.op o

/-! ### Stubs on disk -/

/-- The loop of `os.MkdirAll`, from the last component back to the first. -/
def mkdirAllRev : List String → StoreProg (Except Errno Unit)
  | [] => return .ok ()
  | name :: above => do
      match ← call (.stat (name :: above).reverse) with
      | .ok true => return .ok ()
      | .ok false => return .error .enotdir
      | .error _ =>
        match ← mkdirAllRev above with
        | .error e => return .error e
        | .ok () =>
          match ← call (.mkdir (name :: above).reverse) with
          | .ok () => return .ok ()
          | .error e =>
            match ← call (.lstat false (name :: above).reverse) with
            | .ok true => return .ok ()
            | _ => return .error e

def mkdirAll (dir : Path) : StoreProg (Except Errno Unit) := mkdirAllRev dir.reverse

def videoStub (url : String) (size : ℤ) (magnet imdb : String) : Content :=
  .stub
    { url := url
      size := size
      magnet := magnet
      imdb := imdb
      externalID := ""
      externalIDNS := ""
      cueTrack := 0
      offset := 0 }

def writeStub (path : Path) (url : String) (size : ℤ) (magnet imdb : String) :
    StoreProg (Except Errno Unit) := do
  match ← mkdirAll path.dropLast with
  | .error e => return .error e
  | .ok () => call (.writeFile path (videoStub url size magnet imdb))

/-- The hash `readStub` reads; a file it cannot read carries none. -/
def stubHash (path : Path) : StoreProg (Option String) := do
  match ← call (.readFile path) with
  | .error _ => return none
  | .ok data => return readStubHash data

/-- `deleteStub`: a stub that is already gone is deleted. -/
def deleteStub (path : Path) : StoreProg Bool := do
  match ← call (.remove path) with
  | .ok () => return true
  | .error e => return decide (e = .enoent)

/-! ### Walks -/

/-- No path longer than `PATH_MAX` reaches an object. -/
@[irreducible] def pathMax : ℕ := 4096

/-- The entries of a directory in turn, up to the first error. -/
def walkNames (visit : Path → StoreProg (List Path × Option Errno)) (dir : Path) :
    List String → StoreProg (List Path × Option Errno)
  | [] => return ([], none)
  | name :: names => do
      let (found, err) ← visit (dir ++ [name])
      match err with
      | some e => return (found, some e)
      | none =>
        let (more, err) ← walkNames visit dir names
        return (found ++ more, err)

/-- `filepath.Walk` with a function that returns every error it is given: the
objects below a path that are not directories, in the order of the walk, and
the error that ended it. -/
def walkBelow : ℕ → Bool → Path → StoreProg (List Path × Option Errno)
  | 0, _, _ => return ([], some .enametoolong)
  | depth + 1, listed, path => do
      match ← call (.lstat listed path) with
      | .error e => return ([], some e)
      | .ok false => return ([path], none)
      | .ok true =>
        match ← call (.readDir listed path) with
        | .error e => return ([], some e)
        | .ok names => walkNames (walkBelow depth true) path names

def walk (root : Path) : StoreProg (List Path × Option Errno) := walkBelow pathMax false root

end Tiramisu.Library
