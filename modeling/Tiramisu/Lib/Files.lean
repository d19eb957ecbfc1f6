import Mathlib.Data.List.Sort
import Tiramisu.Lib.Disk

/-!
# Calls by path

The calls of a program that names files by their full path.  Directories on
the way are not symbolic links; one at the end of the path leads nowhere, so a
call that would follow it fails.
-/

namespace Posix

/-- Byte order of two names. -/
def nameLE : List Char → List Char → Bool
  | [], _ => true
  | _ :: _, [] => false
  | a :: as, b :: bs => a.toNat < b.toNat || (a.toNat = b.toNat && nameLE as bs)

namespace Disk

variable {δ : Type}

/-- The object at a path; a file on the way is `ENOTDIR`. -/
def look (d : Disk δ) (p : Path) : Except Errno (Node δ) :=
  match d.resolve [] p.dropLast with
  | .error e => .error e
  | .ok _ =>
    match d.node p with
    | none => .error .enoent
    | some n => .ok n

/-- Whether the object is a directory, a final link not followed. -/
def lstat (d : Disk δ) (p : Path) : Except Errno Bool := (d.look p).map Node.isDir

def stat (d : Disk δ) (p : Path) : Except Errno Bool :=
  match d.look p with
  | .error e => .error e
  | .ok (.symlink _) => .error .eloop
  | .ok n => .ok n.isDir

/-- The names in a directory, in byte order. -/
def names (d : Disk δ) (p : Path) : List String :=
  ((d.nodes.keys.filter fun q => q ≠ [] ∧ q.dropLast = p).map fun q => q.getLastD "").insertionSort
    fun a b => nameLE a.toList b.toList

def readDir (d : Disk δ) (p : Path) : Except Errno (List String) :=
  match d.look p with
  | .error e => .error e
  | .ok (.dir _) => .ok (d.names p)
  | .ok _ => .error .enotdir

def readFile (d : Disk δ) (p : Path) : Except Errno δ :=
  match d.look p with
  | .error e => .error e
  | .ok (.file _ data) => .ok data
  | .ok (.dir _) => .error .eisdir
  | .ok (.symlink _) => .error .eloop

def mkdir (d : Disk δ) (p : Path) (ino : ℕ) : Option (Except Errno Unit × Disk δ) :=
  match d.resolve [] p.dropLast with
  | .error e => some (.error e, d)
  | .ok _ =>
    match d.node p with
    | some _ => some (.error .eexist, d)
    | none => (d.create p (.dir ino)).map fun d' => (.ok (), d')

/-- Open for writing, made if need be and truncated, and write. -/
def writeFile (d : Disk δ) (p : Path) (data : δ) (ino : ℕ) : Option (Except Errno Unit × Disk δ) :=
  match d.resolve [] p.dropLast with
  | .error e => some (.error e, d)
  | .ok _ =>
    match d.node p with
    | none => (d.create p (.file ino data)).map fun d' => (.ok (), d')
    | some (.file _ _) => (d.setData p data).map fun d' => (.ok (), d')
    | some (.dir _) => some (.error .eisdir, d)
    | some (.symlink _) => some (.error .eloop, d)

/-- A file, or a directory with nothing in it. -/
def remove (d : Disk δ) (p : Path) : Except Errno Unit × Disk δ :=
  match d.look p with
  | .error e => (.error e, d)
  | .ok _ =>
    match d.erase p with
    | some d' => (.ok (), d')
    | none => (.error .enotempty, d)

section Facts

variable {d d' : Disk δ} {p q : Path} {n : Node δ} {e : Errno}

lemma look_of_node (h : d.node p = some n) : d.look p = .ok n := by
  obtain ⟨ino, hino⟩ : ∃ ino, d.node p.dropLast = some (.dir ino) := by
    by_cases hp : p = []
    · subst hp
      exact d.root
    · exact d.parent h hp
  have hres : d.resolve [] p.dropLast = .ok ⟨[] ++ p.dropLast, ino⟩ := resolve_of_dir (by simpa using hino)
  simp [look, hres, h]

lemma look_eq_ok : d.look p = .ok n ↔ d.node p = some n := by
  refine ⟨fun h => ?_, look_of_node⟩
  unfold look at h
  split at h
  · cases h
  · split at h
    · cases h
    · rename_i hn
      rw [hn, Except.ok.inj h]

lemma node_of_look_error (h : d.look p = .error e) : d.node p = none := by
  by_contra hne
  obtain ⟨n, hn⟩ := Option.ne_none_iff_exists'.mp hne
  cases (look_of_node hn).symm.trans h

lemma lstat_eq_ok {b : Bool} : d.lstat p = .ok b ↔ ∃ n, d.node p = some n ∧ n.isDir = b := by
  unfold lstat
  cases h : d.look p with
  | error e => simp [Except.map, node_of_look_error h]
  | ok n => simp [Except.map, look_eq_ok.mp h]

lemma node_of_lstat_error (h : d.lstat p = .error e) : d.node p = none := by
  cases hl : d.look p with
  | error e => exact node_of_look_error hl
  | ok n => exact absurd h (by simp [lstat, hl, Except.map])

lemma mem_names {c : String} : c ∈ d.names p ↔ ∃ n, d.node (p ++ [c]) = some n := by
  simp only [names, List.mem_insertionSort, List.mem_map, List.mem_filter, decide_eq_true_eq]
  constructor
  · rintro ⟨q, ⟨hmem, hne, rfl⟩, rfl⟩
    obtain ⟨n, hn⟩ := Writes.mem_iff.mp (AList.mem_keys.mpr hmem)
    have hq : q.dropLast ++ [q.getLastD ""] = q := by
      rw [List.getLastD_eq_getLast?, List.getLast?_eq_some_getLast hne, Option.getD_some,
        List.dropLast_append_getLast hne]
    exact ⟨n, by rw [hq]; exact hn⟩
  · rintro ⟨n, hn⟩
    have hmem : p ++ [c] ∈ d.nodes.keys :=
      AList.mem_keys.mp (Writes.mem_iff.mpr ⟨n, hn⟩)
    exact ⟨p ++ [c], ⟨hmem, by simp, by simp⟩, by simp⟩

lemma readDir_eq_ok {cs : List String} (h : d.readDir p = .ok cs) :
    (∃ ino, d.node p = some (.dir ino)) ∧ cs = d.names p := by
  unfold readDir at h
  split at h
  · cases h
  · rename_i ino hl
    exact ⟨⟨ino, look_eq_ok.mp hl⟩, (Except.ok.inj h).symm⟩
  · cases h

lemma readDir_eq_enoent (h : d.readDir p = .error .enoent) : d.node p = none := by
  unfold readDir at h
  split at h
  · rename_i hl
    exact node_of_look_error hl
  · cases h
  · cases h

lemma mkdir_eq_some {ino : ℕ} {r : Except Errno Unit} (h : d.mkdir p ino = some (r, d')) :
    (r = .ok () ∧ d.create p (.dir ino) = some d') ∨ (∃ e, r = .error e ∧ d' = d) := by
  unfold mkdir at h
  split at h
  · cases h
    exact .inr ⟨_, rfl, rfl⟩
  split at h
  · cases h
    exact .inr ⟨_, rfl, rfl⟩
  · obtain ⟨d1, hd, heq⟩ := Option.map_eq_some_iff.mp h
    cases heq
    exact .inl ⟨rfl, hd⟩

/-- A write leaves its bytes at one path, in a new file or in the one that was
there, or changes nothing. -/
lemma writeFile_eq_some {data : δ} {ino : ℕ} {r : Except Errno Unit}
    (h : d.writeFile p data ino = some (r, d')) :
    (r = .ok () ∧ (∀ i, d.node p ≠ some (.dir i)) ∧
      ∃ i, ∀ q, d'.node q = if q = p then some (.file i data) else d.node q) ∨
    (∃ e, r = .error e ∧ d' = d) := by
  unfold writeFile at h
  split at h
  · cases h
    exact .inr ⟨_, rfl, rfl⟩
  split at h
  · rename_i hnone
    obtain ⟨d1, hd, heq⟩ := Option.map_eq_some_iff.mp h
    cases heq
    exact .inl ⟨rfl, by simp [hnone], ino, (create_eq_some hd).2.2.2.2⟩
  · obtain ⟨d1, hd, heq⟩ := Option.map_eq_some_iff.mp h
    cases heq
    obtain ⟨i, old, hold, hall⟩ := setData_eq_some hd
    exact .inl ⟨rfl, by simp [hold], i, hall⟩
  · cases h
    exact .inr ⟨_, rfl, rfl⟩
  · cases h
    exact .inr ⟨_, rfl, rfl⟩

lemma remove_cases (d : Disk δ) (p : Path) :
    ((d.remove p).1 = .ok () ∧ (∃ n, d.node p = some n) ∧
      ∀ q, (d.remove p).2.node q = if q = p then none else d.node q) ∨
    (∃ e, d.remove p = (.error e, d) ∧ (e = .enoent → d.node p = none)) := by
  unfold remove
  split
  · rename_i e hl
    exact .inr ⟨e, rfl, fun _ => node_of_look_error hl⟩
  · rename_i n hl
    cases he : d.erase p with
    | none => exact .inr ⟨_, rfl, by simp⟩
    | some d1 => exact .inl ⟨rfl, ⟨n, look_eq_ok.mp hl⟩, (erase_eq_some he).2.2⟩

end Facts

end Disk

end Posix
