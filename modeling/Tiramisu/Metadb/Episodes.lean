import Tiramisu.Go.Maps

/-!
# The episode registry

The table `tv_episodes`: one row for each episode key, replaced as a whole by
an upsert.  A file path is the list of its components.
-/

namespace Tiramisu.Metadb

open Go

structure EpisodeEntry where
  qualityScore : ℤ
  hash : String
  filePath : List String
  source : String
  created : ℤ
  showIMDB : String
  deriving DecidableEq, Repr

/-- The rows by their primary key `episode_key`. -/
abbrev EpisodeTable := GoMap String EpisodeEntry

namespace EpisodeTable

def getEpisode (t : EpisodeTable) (key : String) : Option EpisodeEntry := t.lookup key

/-- `INSERT OR REPLACE`. -/
def upsertEpisode (t : EpisodeTable) (key : String) (entry : EpisodeEntry) : EpisodeTable :=
  t.insert key entry

def deleteEpisode (t : EpisodeTable) (key : String) : EpisodeTable := t.erase key

/-- The keys of the rows that name a file. -/
def episodesByFilePath (t : EpisodeTable) (path : List String) : List String :=
  (t.entries.filter fun e => e.2.filePath = path).map (·.1)

end EpisodeTable

end Tiramisu.Metadb
