import Mathlib.Data.Int.Notation
import Mathlib.Data.List.Basic

/-!
# The inode table

The table `inodes` holds a row for each file and each directory.  The columns
`full_path` and `rel_path` are unique, and `INSERT OR REPLACE` drops the rows
that share a unique value with the new one; `NULL` values never clash.
-/

namespace Tiramisu.Metadb

inductive InodeType
  | file
  | dir
  deriving DecidableEq, Repr

/-- A row of the table; `none` is `NULL`. -/
structure InodeRow where
  type : InodeType
  infohash : Option String
  fileIdx : Option ℤ
  fullPath : String
  relPath : Option String
  basename : String
  inodeValue : Int64
  deriving DecidableEq

/-- A row as `LoadAll` scans it. -/
structure InodeEntry where
  type : InodeType
  infohash : String
  fileIdx : ℤ
  fullPath : String
  relPath : String
  basename : String
  inodeValue : UInt64
  deriving DecidableEq

abbrev InodeTable := List InodeRow

/-- The rows clash in a unique column; the primary key `(type, full_path)`
clashes only where `full_path` does. -/
def InodeRow.conflicts (r s : InodeRow) : Bool :=
  r.fullPath = s.fullPath || (r.relPath.isSome && r.relPath = s.relPath)

/-- A scanned row: `NULL` columns become zero values, the inode keeps its bits. -/
def InodeRow.scan (r : InodeRow) : InodeEntry where
  type := r.type
  infohash := r.infohash.getD ""
  fileIdx := r.fileIdx.getD 0
  fullPath := r.fullPath
  relPath := r.relPath.getD ""
  basename := r.basename
  inodeValue := r.inodeValue.toUInt64

namespace InodeTable

def insertOrReplace (t : InodeTable) (r : InodeRow) : InodeTable :=
  t.filter (fun s => !r.conflicts s) ++ [r]

/-- `LoadAll`. -/
def loadAll (t : InodeTable) : List InodeEntry := t.map InodeRow.scan

/-- Rows that do not clash are all kept. -/
lemma foldl_insertOrReplace {t rows : InodeTable}
    (h : (t ++ rows).Pairwise fun s r => r.conflicts s = false) :
    rows.foldl insertOrReplace t = t ++ rows := by
  induction rows generalizing t with
  | nil => simp
  | cons r rows ih =>
    have hkept : t.filter (fun s => !r.conflicts s) = t := by
      rw [List.filter_eq_self]
      intro s hs
      simp [(List.pairwise_append.mp h).2.2 s hs r (by simp)]
    have hstep : insertOrReplace t r = t ++ [r] := by rw [insertOrReplace, hkept]
    have hsplit : t ++ [r] ++ rows = t ++ r :: rows := by simp
    rw [List.foldl_cons, hstep, ih (by rw [hsplit]; exact h), hsplit]

end InodeTable

end Tiramisu.Metadb
