import Mathlib.Data.List.Induction
import Tiramisu.Lib.Writes

/-!
# A directory tree and the calls on it

A disk maps paths to directories, files and symbolic links.  The root is a
directory, the parent of every object is one, and no two objects share an
inode; the three facts are fields, so every call below shows that it keeps
them.  A directory descriptor names the directory it was opened on, and a
call through it fails once that directory is gone.
-/

namespace Posix

open AList Writes Option

abbrev Path := List String

inductive Node (δ : Type)
  | dir (ino : ℕ)
  | file (ino : ℕ) (data : δ)
  | symlink (ino : ℕ)
  deriving DecidableEq, Repr

inductive Errno
  | enoent
  | eexist
  | enotempty
  | enotdir
  | eisdir
  | eloop
  | enametoolong
  | eio
  deriving DecidableEq, Repr

variable {δ : Type}

def Node.ino : Node δ → ℕ
  | .dir ino | .file ino _ | .symlink ino => ino

def Node.isDir : Node δ → Bool
  | .dir _ => true
  | _ => false

structure Disk (δ : Type) where
  nodes : AList (fun _ : Path => Node δ)
  root : ∃ ino, nodes.lookup [] = some (.dir ino)
  parent : ∀ {p n}, nodes.lookup p = some n → p ≠ [] →
    ∃ ino, nodes.lookup p.dropLast = some (.dir ino)
  inode : ∀ {p q m n}, nodes.lookup p = some m → nodes.lookup q = some n → m.ino = n.ino → p = q

/-- An open directory. -/
structure DirFd where
  path : Path
  ino : ℕ
  deriving DecidableEq, Repr

/-- An open regular file. -/
structure FileFd where
  path : Path
  ino : ℕ
  deriving DecidableEq, Repr

namespace Disk

def node (d : Disk δ) (p : Path) : Option (Node δ) := d.nodes.lookup p

def isDir (d : Disk δ) (p : Path) : Bool := (d.node p).any Node.isDir

def inoFree (d : Disk δ) (ino : ℕ) : Bool := d.nodes.entries.all fun e => e.2.ino ≠ ino

def childless (d : Disk δ) (p : Path) : Bool := d.nodes.keys.all fun q => q = [] ∨ q.dropLast ≠ p

section Facts

variable {d : Disk δ} {p q : Path}

lemma isDir_iff : d.isDir p = true ↔ ∃ ino, d.node p = some (.dir ino) := by
  unfold isDir
  cases h : d.node p with
  | none => simp
  | some n => cases n <;> simp [Node.isDir]

lemma inoFree_iff {ino : ℕ} : d.inoFree ino = true ↔ ∀ p n, d.node p = some n → n.ino ≠ ino := by
  simp only [inoFree, List.all_eq_true, decide_eq_true_eq, node]
  constructor
  · intro h p n hn
    exact h ⟨p, n⟩ (mem_lookup_iff.mp hn)
  · rintro h ⟨p, n⟩ hmem
    exact h p n (mem_lookup_iff.mpr hmem)

lemma childless_iff : d.childless p = true ↔ ∀ q n, d.node q = some n → q ≠ [] → q.dropLast ≠ p := by
  simp only [childless, List.all_eq_true, decide_eq_true_eq, node]
  constructor
  · intro h q n hn hq
    have hmem : q ∈ d.nodes.keys := mem_keys.mp (mem_iff.mpr ⟨n, hn⟩)
    exact (h q hmem).resolve_left hq
  intro h q hq
  by_cases hne : q = []
  · exact .inl hne
  · obtain ⟨n, hn⟩ := mem_iff.mp (mem_keys.mpr hq)
    exact .inr (h q n hn hne)

/-- Nothing lies below an object that is not a directory. -/
lemma childless_of_not_dir {n : Node δ} (hn : d.node p = some n) (hdir : n.isDir = false) :
    d.childless p = true := by
  rw [childless_iff]
  rintro q m hq hne rfl
  obtain ⟨ino, hino⟩ := d.parent hq hne
  have : n = .dir ino := some.inj (hn.symm.trans hino)
  simp [this, Node.isDir] at hdir

lemma ne_nil_of_not_dir {n : Node δ} (hn : d.node p = some n) (hdir : n.isDir = false) :
    p ≠ [] := by
  rintro rfl
  obtain ⟨ino, hino⟩ := d.root
  have : n = .dir ino := some.inj (hn.symm.trans hino)
  simp [this, Node.isDir] at hdir

end Facts

lemma eq_nil_of_lookup_singleton {root n : Node δ} {p : Path}
    (h : (singleton [] root : AList fun _ : Path => Node δ).lookup p = some n) : p = [] := by
  have hmem := mem_keys.mp (mem_iff.mpr ⟨n, h⟩)
  simpa [keys_singleton] using hmem

/-- A disk with nothing but its root. -/
def empty (ino : ℕ) : Disk δ where
  nodes := singleton [] (.dir ino)
  root := ⟨ino, rfl⟩
  parent h hne := absurd (eq_nil_of_lookup_singleton h) hne
  inode hp hq _ := (eq_nil_of_lookup_singleton hp).trans (eq_nil_of_lookup_singleton hq).symm

/-- Add an object below an existing directory, with an inode not in use. -/
def create (d : Disk δ) (p : Path) (n : Node δ) : Option (Disk δ) :=
  if h : p ≠ [] ∧ d.node p = none ∧ d.isDir p.dropLast ∧ d.inoFree n.ino then
    some
      { nodes := d.nodes.insert p n
        root := by
          obtain ⟨ino, hino⟩ := d.root
          exact ⟨ino, by rw [lookup_insert_ne h.1.symm]; exact hino⟩
        parent := by
          intro q m hq hne
          obtain ⟨hp, hnone, hdir, -⟩ := h
          have hkeep : ∀ ino, d.node q.dropLast = some (.dir ino) →
              (d.nodes.insert p n).lookup q.dropLast = some (.dir ino) := by
            intro ino hino
            have hqp : q.dropLast ≠ p := by
              intro heq
              rw [heq, hnone] at hino
              cases hino
            rw [lookup_insert_ne hqp]
            exact hino
          rcases of_insert hq with ⟨rfl, -⟩ | ⟨-, hq⟩
          · obtain ⟨ino, hino⟩ := isDir_iff.mp hdir
            exact ⟨ino, hkeep ino hino⟩
          · obtain ⟨ino, hino⟩ := d.parent hq hne
            exact ⟨ino, hkeep ino hino⟩
        inode := by
          intro q r m k hq hr hino
          have hfree := inoFree_iff.mp h.2.2.2
          rcases of_insert hq with ⟨hqp, rfl⟩ | ⟨-, hq⟩ <;>
            rcases of_insert hr with ⟨hrp, rfl⟩ | ⟨-, hr⟩
          · rw [hqp, hrp]
          · exact absurd hino.symm (hfree r k hr)
          · exact absurd hino (hfree q m hq)
          · exact d.inode hq hr hino }
  else none

/-- Remove an object with nothing below it. -/
def erase (d : Disk δ) (p : Path) : Option (Disk δ) :=
  if h : p ≠ [] ∧ d.childless p then
    some
      { nodes := d.nodes.erase p
        root := by
          obtain ⟨ino, hino⟩ := d.root
          exact ⟨ino, by rw [lookup_erase_ne h.1.symm]; exact hino⟩
        parent := by
          intro q m hq hne
          obtain ⟨-, hq⟩ := of_erase hq
          obtain ⟨ino, hino⟩ := d.parent hq hne
          refine ⟨ino, ?_⟩
          rw [lookup_erase_ne (childless_iff.mp h.2 q m hq hne)]
          exact hino
        inode := by
          intro q r m n hq hr hino
          exact d.inode (of_erase hq).2 (of_erase hr).2 hino }
  else none

/-- Replace the contents of a file. -/
def setData (d : Disk δ) (p : Path) (data : δ) : Option (Disk δ) :=
  match h : d.node p with
  | some (.file ino _) =>
    some
      { nodes := d.nodes.insert p (.file ino data)
        root := by
          obtain ⟨r, hr⟩ := d.root
          exact ⟨r, by rw [lookup_insert_ne (ne_nil_of_not_dir h rfl).symm]; exact hr⟩
        parent := by
          intro q m hq hne
          have hkeep : ∀ i, d.node q.dropLast = some (.dir i) →
              (d.nodes.insert p (.file ino data)).lookup q.dropLast = some (.dir i) := by
            intro i hi
            have hqp : q.dropLast ≠ p := by
              intro heq
              rw [heq, h] at hi
              cases hi
            rw [lookup_insert_ne hqp]
            exact hi
          rcases of_insert hq with ⟨rfl, -⟩ | ⟨-, hq⟩
          · obtain ⟨i, hi⟩ := d.parent h hne
            exact ⟨i, hkeep i hi⟩
          · obtain ⟨i, hi⟩ := d.parent hq hne
            exact ⟨i, hkeep i hi⟩
        inode := by
          intro q r m k hq hr hino
          have hback : ∀ {s j}, (d.nodes.insert p (.file ino data)).lookup s = some j →
              ∃ j', d.nodes.lookup s = some j' ∧ j'.ino = j.ino := by
            intro s j hs
            rcases of_insert hs with ⟨rfl, rfl⟩ | ⟨-, hs⟩
            · exact ⟨_, h, rfl⟩
            · exact ⟨j, hs, rfl⟩
          obtain ⟨m', hm, hmi⟩ := hback hq
          obtain ⟨k', hk, hki⟩ := hback hr
          exact d.inode hm hk (by rw [hmi, hki, hino]) }
  | _ => none

section Lookup

variable {d d' : Disk δ} {p : Path} {n : Node δ}

lemma create_eq_some : d.create p n = some d' → p ≠ [] ∧ d.node p = none ∧
    (∃ ino, d.node p.dropLast = some (.dir ino)) ∧ (∀ q m, d.node q = some m → m.ino ≠ n.ino) ∧
    ∀ q, d'.node q = if q = p then some n else d.node q := by
  unfold create
  split_ifs with h
  · rintro ⟨rfl⟩
    refine ⟨h.1, h.2.1, isDir_iff.mp h.2.2.1, inoFree_iff.mp h.2.2.2, fun q => ?_⟩
    exact (Writes.lookup_insert _).trans (Function.update_apply _ _ _ _)
  · simp

lemma erase_eq_some : d.erase p = some d' → p ≠ [] ∧ d.childless p = true ∧
    ∀ q, d'.node q = if q = p then none else d.node q := by
  unfold erase
  split_ifs with h
  · rintro ⟨rfl⟩
    refine ⟨h.1, h.2, fun q => ?_⟩
    exact lookup_erase.trans (Function.update_apply _ _ _ _)
  · simp

lemma erase_isSome (hp : p ≠ []) (h : d.childless p = true) : ∃ d', d.erase p = some d' := by
  unfold erase
  rw [dif_pos ⟨hp, h⟩]
  exact ⟨_, rfl⟩

lemma setData_eq_some {data : δ} : d.setData p data = some d' → ∃ ino old,
    d.node p = some (.file ino old) ∧
      ∀ q, d'.node q = if q = p then some (.file ino data) else d.node q := by
  unfold setData
  split
  · rename_i ino old h
    rintro ⟨rfl⟩
    refine ⟨ino, old, h, fun q => ?_⟩
    exact (Writes.lookup_insert _).trans (Function.update_apply _ _ _ _)
  · simp

end Lookup

/-! ### Calls -/

/-- The walk of `openat2` below an open directory, refusing symbolic links. -/
def resolve (d : Disk δ) (acc : Path) : List String → Except Errno DirFd
  | [] =>
    match d.node acc with
    | some (.dir ino) => .ok ⟨acc, ino⟩
    | some (.file _ _) => .error .enotdir
    | some (.symlink _) => .error .eloop
    | none => .error .enoent
  | c :: cs =>
    match d.node (acc ++ [c]) with
    | some (.dir _) => d.resolve (acc ++ [c]) cs
    | some (.file _ _) => .error .enotdir
    | some (.symlink _) => .error .eloop
    | none => .error .enoent

/-- The directory a descriptor was opened on is still there. -/
def holds (d : Disk δ) (fd : DirFd) : Bool :=
  (d.node fd.path).any fun n => n.isDir && n.ino = fd.ino

def mkdirAt (d : Disk δ) (fd : DirFd) (leaf : String) (ino : ℕ) :
    Option (Except Errno Unit × Disk δ) :=
  if d.holds fd then
    match d.node (fd.path ++ [leaf]) with
    | some _ => some (.error .eexist, d)
    | none => (d.create (fd.path ++ [leaf]) (.dir ino)).map fun d' => (.ok (), d')
  else some (.error .enoent, d)

/-- `O_CREAT | O_EXCL`: an empty file, never an existing one. -/
def createExcl (d : Disk δ) (fd : DirFd) (leaf : String) (ino : ℕ) (blank : δ) :
    Option (Except Errno FileFd × Disk δ) :=
  if d.holds fd then
    match d.node (fd.path ++ [leaf]) with
    | some _ => some (.error .eexist, d)
    | none => (d.create (fd.path ++ [leaf]) (.file ino blank)).map fun d' =>
      (.ok ⟨fd.path ++ [leaf], ino⟩, d')
  else some (.error .enoent, d)

/-- Write through an open file.  A file unlinked meanwhile takes the bytes
with it. -/
def write (d : Disk δ) (fd : FileFd) (data : δ) : Disk δ :=
  if (d.node fd.path).any fun n => n.ino = fd.ino then (d.setData fd.path data).getD d else d

def unlinkAt (d : Disk δ) (fd : DirFd) (leaf : String) : Except Errno Unit × Disk δ :=
  if d.holds fd then
    match d.node (fd.path ++ [leaf]) with
    | none => (.error .enoent, d)
    | some (.dir _) => (.error .eisdir, d)
    | some _ => (.ok (), (d.erase (fd.path ++ [leaf])).getD d)
  else (.error .enoent, d)

/-- `unlinkat` with `AT_REMOVEDIR`. -/
def rmdirAt (d : Disk δ) (fd : DirFd) (leaf : String) : Except Errno Unit × Disk δ :=
  if d.holds fd then
    match d.node (fd.path ++ [leaf]) with
    | none => (.error .enoent, d)
    | some (.dir _) =>
      match d.erase (fd.path ++ [leaf]) with
      | some d' => (.ok (), d')
      | none => (.error .enotempty, d)
    | some _ => (.error .enotdir, d)
  else (.error .enoent, d)

/-- `fstatat` without following a symbolic link. -/
def statAt (d : Disk δ) (fd : DirFd) (leaf : String) : Except Errno ℕ :=
  if d.holds fd then
    match d.node (fd.path ++ [leaf]) with
    | none => .error .enoent
    | some n => .ok n.ino
  else .error .enoent

/-- `renameat2` with `RENAME_NOREPLACE`, for objects that are not directories. -/
def renameNoReplace (d : Disk δ) (fd : DirFd) (leaf : String) (fd' : DirFd) (leaf' : String) :
    Except Errno Unit × Disk δ :=
  if d.holds fd && d.holds fd' then
    match d.node (fd.path ++ [leaf]) with
    | none => (.error .enoent, d)
    | some (.dir _) => (.error .eisdir, d)
    | some n =>
      match d.node (fd'.path ++ [leaf']) with
      | some _ => (.error .eexist, d)
      | none =>
        match (d.erase (fd.path ++ [leaf])).bind (·.create (fd'.path ++ [leaf']) n) with
        | some d' => (.ok (), d')
        | none => (.error .eio, d)
  else (.error .enoent, d)

section Calls

variable {d d' : Disk δ} {fd fd' : DirFd} {leaf leaf' : String}

lemma holds_iff : d.holds fd = true ↔ d.node fd.path = some (.dir fd.ino) := by
  unfold holds
  cases h : d.node fd.path with
  | none => simp
  | some n =>
    cases n with
    | dir ino =>
      simp only [any_some, Node.isDir, Node.ino, Bool.true_and, some.injEq,
        Node.dir.injEq]
      exact decide_eq_true_iff
    | file ino data => simp [Node.isDir]
    | symlink ino => simp [Node.isDir]

lemma resolve_eq_ok {acc : Path} {cs : List String} (h : d.resolve acc cs = .ok fd) :
    fd.path = acc ++ cs ∧ d.holds fd = true := by
  induction cs generalizing acc with
  | nil =>
    unfold resolve at h
    split at h
    · rename_i ino hino
      obtain rfl := Except.ok.inj h
      exact ⟨by simp, holds_iff.mpr hino⟩
    all_goals exact absurd h (by simp)
  | cons c cs ih =>
    unfold resolve at h
    split at h
    · simpa using ih h
    all_goals exact absurd h (by simp)

/-- Whatever lies below a path makes the path a directory. -/
lemma isDir_of_below {q : Path} {l : List String} {n : Node δ} (hl : l ≠ [])
    (h : d.node (q ++ l) = some n) : d.isDir q = true := by
  induction l using List.reverseRecOn generalizing n with
  | nil => exact absurd rfl hl
  | append_singleton l c ih =>
    obtain ⟨ino, hino⟩ := d.parent h (by simp)
    rw [← List.append_assoc, List.dropLast_concat] at hino
    by_cases hne : l = []
    · rw [hne, List.append_nil] at hino
      exact isDir_iff.mpr ⟨ino, hino⟩
    · exact ih hne hino

lemma resolve_of_dir {acc : Path} {cs : List String} {ino : ℕ}
    (h : d.node (acc ++ cs) = some (.dir ino)) : d.resolve acc cs = .ok ⟨acc ++ cs, ino⟩ := by
  induction cs generalizing acc with
  | nil =>
    simp only [List.append_nil] at h ⊢
    simp [resolve, h]
  | cons c cs ih =>
    have h' : d.node (acc ++ [c] ++ cs) = some (.dir ino) := by simpa using h
    have hdir : ∃ i, d.node (acc ++ [c]) = some (.dir i) := by
      by_cases hcs : cs = []
      · exact ⟨ino, by simpa [hcs] using h'⟩
      · exact isDir_iff.mp (isDir_of_below hcs h')
    obtain ⟨i, hi⟩ := hdir
    rw [resolve, hi]
    simpa using ih h'

/-- A walk that ends in `ENOENT` leads to nothing, and nothing lies below. -/
lemma node_of_resolve_enoent {acc : Path} {cs l : List String}
    (h : d.resolve acc cs = .error .enoent) : d.node (acc ++ cs ++ l) = none := by
  by_contra hne
  obtain ⟨n, hn⟩ := ne_none_iff_exists'.mp hne
  induction cs generalizing acc with
  | nil =>
    unfold resolve at h
    split at h
    · cases h
    · cases h
    · cases h
    rename_i hnone
    by_cases hl : l = []
    · simp [hl, hnone] at hn
    · have := isDir_of_below hl hn
      simp [isDir, hnone] at this
  | cons c cs ih =>
    unfold resolve at h
    split at h
    · exact ih h (by simpa using hne) (by simpa using hn)
    · cases h
    · cases h
    rename_i hnone
    by_cases hl : cs ++ l = []
    · simp [List.append_eq_nil_iff.mp hl, hnone] at hn
    · have hn' : d.node (acc ++ [c] ++ (cs ++ l)) = some n := by simpa using hn
      have := isDir_of_below hl hn'
      simp [isDir, hnone] at this

lemma mkdirAt_eq_some {ino : ℕ} {r : Except Errno Unit}
    (h : d.mkdirAt fd leaf ino = some (r, d')) :
    (r = .ok () ∧ d.create (fd.path ++ [leaf]) (.dir ino) = some d') ∨
      (∃ e, r = .error e ∧ d' = d) := by
  unfold mkdirAt at h
  split_ifs at h
  · split at h
    · cases h
      exact .inr ⟨_, rfl, rfl⟩
    · obtain ⟨d1, hd, heq⟩ := map_eq_some_iff.mp h
      cases heq
      exact .inl ⟨rfl, hd⟩
  · cases h
    exact .inr ⟨_, rfl, rfl⟩

lemma createExcl_eq_some {ino : ℕ} {blank : δ} {r : Except Errno FileFd}
    (h : d.createExcl fd leaf ino blank = some (r, d')) :
    (r = .ok ⟨fd.path ++ [leaf], ino⟩ ∧
        d.create (fd.path ++ [leaf]) (.file ino blank) = some d') ∨
      (∃ e, r = .error e ∧ d' = d) := by
  unfold createExcl at h
  split_ifs at h
  · split at h
    · cases h
      exact .inr ⟨_, rfl, rfl⟩
    · obtain ⟨d1, hd, heq⟩ := map_eq_some_iff.mp h
      cases heq
      exact .inl ⟨rfl, hd⟩
  · cases h
    exact .inr ⟨_, rfl, rfl⟩

/-- A write changes nothing but the contents of the file it was opened on. -/
lemma node_write (d : Disk δ) (ffd : FileFd) (data : δ) (q : Path) :
    (d.write ffd data).node q = d.node q ∨
      q = ffd.path ∧ (∃ old, d.node q = some (.file ffd.ino old)) ∧
        (d.write ffd data).node q = some (.file ffd.ino data) := by
  unfold write
  split_ifs with hany
  · cases hset : d.setData ffd.path data with
    | none => exact .inl rfl
    | some d1 =>
      obtain ⟨ino, old, hnode, hall⟩ := setData_eq_some hset
      have hino : ino = ffd.ino := by
        rw [hnode, any_some] at hany
        exact of_decide_eq_true hany
      subst hino
      rw [getD_some, hall q]
      by_cases hq : q = ffd.path
      · subst hq
        exact .inr ⟨rfl, ⟨old, hnode⟩, by simp⟩
      · exact .inl (by simp [hq])
  · exact .inl rfl

lemma node_write_of_file {ffd : FileFd} {old data : δ} (h : d.node ffd.path = some (.file ffd.ino old))
    (q : Path) : (d.write ffd data).node q
      = if q = ffd.path then some (.file ffd.ino data) else d.node q := by
  have hset : ∃ d1, d.setData ffd.path data = some d1 := by
    unfold setData
    split
    · exact ⟨_, rfl⟩
    · rename_i hno
      exact absurd h (hno _ _)
  obtain ⟨d1, hd1⟩ := hset
  obtain ⟨ino, old', hnode, hall⟩ := setData_eq_some hd1
  obtain rfl : ffd.ino = ino := by
    rw [h] at hnode
    exact (Node.file.inj (some.inj hnode)).1
  have hany : ((d.node ffd.path).any fun n => n.ino = ffd.ino) = true := by
    rw [h, any_some]
    exact decide_eq_true rfl
  rw [write, if_pos hany, hd1, getD_some, hall]

/-- An unlink removes one object that is no directory, or changes nothing. -/
lemma unlinkAt_cases (d : Disk δ) (fd : DirFd) (leaf : String) :
    (∃ n, d.holds fd = true ∧ d.node (fd.path ++ [leaf]) = some n ∧
      n.isDir = false ∧ (d.unlinkAt fd leaf).1 = .ok () ∧ ∀ q, (d.unlinkAt fd leaf).2.node q
        = if q = fd.path ++ [leaf] then none else d.node q) ∨
    (∃ e, d.unlinkAt fd leaf = (.error e, d) ∧
      (e = .enoent → d.holds fd = true → d.node (fd.path ++ [leaf]) = none)) := by
  unfold unlinkAt
  split_ifs with hfd
  · split
    · rename_i hnone
      exact .inr ⟨_, rfl, fun _ _ => hnone⟩
    · exact .inr ⟨_, rfl, by simp⟩
    rename_i n hnd hn
    have hdir : n.isDir = false := by
      cases n with
      | dir ino => exact absurd hn (by simpa using hnd ino)
      | file ino data => rfl
      | symlink ino => rfl
    obtain ⟨d1, hd1⟩ := erase_isSome (ne_nil_of_not_dir hn hdir) (childless_of_not_dir hn hdir)
    refine .inl ⟨n, hfd, hn, hdir, rfl, fun q => ?_⟩
    rw [hd1, getD_some]
    exact (erase_eq_some hd1).2.2 q
  · exact .inr ⟨_, rfl, fun _ h => absurd h hfd⟩

/-- An `rmdir` removes one directory with nothing in it, or changes nothing. -/
lemma rmdirAt_cases (d : Disk δ) (fd : DirFd) (leaf : String) :
    (∃ ino, d.holds fd = true ∧ d.node (fd.path ++ [leaf]) = some (.dir ino) ∧
      d.childless (fd.path ++ [leaf]) = true ∧ (d.rmdirAt fd leaf).1 = .ok () ∧
      ∀ q, (d.rmdirAt fd leaf).2.node q = if q = fd.path ++ [leaf] then none else d.node q) ∨
    (∃ e, d.rmdirAt fd leaf = (.error e, d)) := by
  unfold rmdirAt
  split_ifs with hfd
  · split
    · exact .inr ⟨_, rfl⟩
    · rename_i ino hino
      cases he : d.erase (fd.path ++ [leaf]) with
      | none => exact .inr ⟨_, rfl⟩
      | some d1 => exact .inl ⟨ino, hfd, hino, (erase_eq_some he).2.1, rfl, (erase_eq_some he).2.2⟩
    · exact .inr ⟨_, rfl⟩
  · exact .inr ⟨_, rfl⟩

/-- A rename moves one object to a free name, or changes nothing. -/
lemma renameNoReplace_cases (d : Disk δ) (fd : DirFd) (leaf : String) (fd' : DirFd)
    (leaf' : String) : (∃ n, d.node (fd.path ++ [leaf]) = some n ∧ n.isDir = false ∧
      d.node (fd'.path ++ [leaf']) = none ∧ (d.renameNoReplace fd leaf fd' leaf').1 = .ok () ∧
      ∀ q, (d.renameNoReplace fd leaf fd' leaf').2.node q
        = if q = fd'.path ++ [leaf'] then some n
          else if q = fd.path ++ [leaf] then none else d.node q) ∨
    (∃ e, d.renameNoReplace fd leaf fd' leaf' = (.error e, d)) := by
  unfold renameNoReplace
  split_ifs with hfd
  · split
    · exact .inr ⟨_, rfl⟩
    · exact .inr ⟨_, rfl⟩
    rename_i n hnd hn
    have hdir : n.isDir = false := by
      cases n with
      | dir ino => exact absurd hn (by simpa using hnd ino)
      | file ino data => rfl
      | symlink ino => rfl
    split
    · exact .inr ⟨_, rfl⟩
    rename_i hfree
    cases hb : (d.erase (fd.path ++ [leaf])).bind (·.create (fd'.path ++ [leaf']) n) with
    | none => exact .inr ⟨_, rfl⟩
    | some d1 =>
      obtain ⟨d2, he, hc⟩ := bind_eq_some_iff.mp hb
      refine .inl ⟨n, hn, hdir, hfree, rfl, fun q => ?_⟩
      rw [(create_eq_some hc).2.2.2.2 q, (erase_eq_some he).2.2 q]
  · exact .inr ⟨_, rfl⟩

end Calls

end Disk

end Posix
