import Mathlib.Data.Int.Notation
import Mathlib.Data.List.TakeWhile
import Mathlib.Data.Prod.Lex
import Mathlib.Tactic.Ring
import Tiramisu.Go.Sort

/-!
# The ids of a torrent's files

`Status` sorts the files of a torrent by `CompareStrings` of their paths and
counts them from one; `resolveTargetFile` does the same when a stub is opened.
The ids depend on the paths only if no two paths differ in how one number is
written and no three compare in a circle.  Where the first difference of two
paths never cuts a number in two, that is so: of three paths two go on together
where the third leaves them, and compare with it as with each other.
-/

namespace Tiramisu.Torrent

open Go List

/-- A Go string is a sequence of bytes. -/
abbrev Bytes := List UInt8

def commonPrefix : Bytes → Bytes → Bytes
  | a :: s, b :: t => if a = b then a :: commonPrefix s t else []
  | _, _ => []

/-- `strings.TrimPrefix`. -/
def trimPrefix (s p : Bytes) : Bytes := if p.isPrefixOf s then s.drop p.length else s

/-- `unicode.IsDigit` on the runes below 256. -/
def isDigit (b : UInt8) : Bool := 48 ≤ b && b ≤ 57

def digitValue (b : UInt8) : ℕ := (b - 48).toNat

def digitRun (s : Bytes) : Bytes := s.takeWhile isDigit

/-- The number that digits go on to write after `n`. -/
def writeOn : ℕ → Bytes → ℕ
  | n, [] => n
  | n, b :: digits => writeOn (10 * n + digitValue b) digits

/-- `none` is the error of `strconv.Atoi`: no digit, or a number out of range. -/
def numberPrefix (s : Bytes) : Option ℕ :=
  if digitRun s = [] then none
  else if writeOn 0 (digitRun s) < 2 ^ 63 then some (writeOn 0 (digitRun s))
  else none

def lessBytes : Bytes → Bytes → Bool
  | [], [] => false
  | [], _ :: _ => true
  | _ :: _, [] => false
  | a :: s, b :: t => if a = b then lessBytes s t else decide (a < b)

/-- The comparison of what is left of two strings. -/
def compareRests (resultStr1 resultStr2 : Bytes) : Bool :=
  match numberPrefix resultStr1, numberPrefix resultStr2 with
  | some num1, some num2 => decide (num1 < num2)
  | some _, none => true
  | none, some _ => false
  | none, none => lessBytes resultStr1 resultStr2

def compareStrings (first second : Bytes) : Bool :=
  compareRests (trimPrefix first (commonPrefix first second))
    (trimPrefix second (commonPrefix first second))

structure TorrentFile where
  path : Bytes
  length : ℤ
  deriving DecidableEq, Repr

structure TorrentFileStat where
  id : ℕ
  path : Bytes
  length : ℤ
  deriving DecidableEq, Repr

/-- The loop of `Status` and of `resolveTargetFile` over the sorted files. -/
def numberFrom : ℕ → List TorrentFile → List TorrentFileStat
  | _, [] => []
  | i, f :: files => ⟨i + 1, f.path, f.length⟩ :: numberFrom (i + 1) files

def fileStats (S : Sorter) (files : List TorrentFile) : List TorrentFileStat :=
  numberFrom 0 (S.slice (fun a b => compareStrings a.path b.path) files)

/-- The path an id of a stub stands for. -/
def designated (S : Sorter) (files : List TorrentFile) (id : ℕ) : Option Bytes :=
  ((fileStats S files).find? fun f => f.id = id).map TorrentFileStat.path

/-! ### The comparison of two rests -/

section Rests

variable {u v x y z : Bytes}

/-- The rests of two paths after their common part begin differently. -/
def Diverge (u v : Bytes) : Prop := u.head? ≠ v.head?

lemma exists_rests (h : x ≠ y) : ∃ p u v, x = p ++ u ∧ y = p ++ v ∧ Diverge u v := by
  induction x generalizing y with
  | nil =>
    cases y with
    | nil => exact absurd rfl h
    | cons b t => exact ⟨[], [], b :: t, rfl, rfl, by simp [Diverge]⟩
  | cons a s ih =>
    by_cases hhead : y.head? = some a
    · obtain ⟨t, rfl⟩ := head?_eq_some_iff.mp hhead
      obtain ⟨p, u, v, rfl, rfl, hd⟩ := @ih t fun hst => h (by rw [hst])
      exact ⟨a :: p, u, v, rfl, rfl, hd⟩
    · exact ⟨[], a :: s, y, rfl, rfl, fun heq => hhead heq.symm⟩

lemma commonPrefix_append (p : Bytes) (hd : Diverge u v) :
    commonPrefix (p ++ u) (p ++ v) = p := by
  induction p with
  | nil =>
    match u, v with
    | [], [] | [], _ :: _ | _ :: _, [] => rfl
    | a :: s, b :: t => exact if_neg fun hab => hd (congrArg some hab)
  | cons a p ih => rw [cons_append, cons_append, commonPrefix, if_pos rfl, ih]

lemma trimPrefix_append (p u : Bytes) : trimPrefix (p ++ u) p = u := by
  have hpre : p.isPrefixOf (p ++ u) = true := by simp
  rw [trimPrefix, if_pos hpre, drop_left]

lemma compareStrings_append (p : Bytes) (hd : Diverge u v) :
    compareStrings (p ++ u) (p ++ v) = compareRests u v := by
  rw [compareStrings, commonPrefix_append p hd, trimPrefix_append, trimPrefix_append]

/-- A number, the end of the path or a byte, in this order. -/
def restKey (u : Bytes) : ℕ ×ₗ ℕ :=
  match numberPrefix u, u.head? with
  | some n, _ => toLex (0, n)
  | none, none => toLex (1, 0)
  | none, some b => toLex (2, b.toNat)

lemma compareRests_eq (hd : Diverge u v) : compareRests u v = decide (restKey u < restKey v) := by
  unfold compareRests restKey
  rcases numberPrefix u with - | n <;> rcases numberPrefix v with - | m
  · match u, v with
    | [], [] => exact absurd rfl hd
    | [], _ :: _ | _ :: _, [] => simp [lessBytes, Prod.Lex.toLex_lt_toLex]
    | a :: s, b :: t =>
      have hab : a ≠ b := fun hab => hd (congrArg some hab)
      simp [lessBytes, hab, Prod.Lex.toLex_lt_toLex, UInt8.lt_iff_toNat_lt]
  · cases u.head? <;> simp [Prod.Lex.toLex_lt_toLex]
  · cases v.head? <;> simp [Prod.Lex.toLex_lt_toLex]
  · simp [Prod.Lex.toLex_lt_toLex]

lemma restKey_ne_iff (hd : Diverge u v) :
    restKey u ≠ restKey v ↔ (numberPrefix u = numberPrefix v → numberPrefix u = none) := by
  unfold restKey
  rcases numberPrefix u with - | n <;> rcases numberPrefix v with - | m
  · unfold Diverge at hd
    cases hu : u.head? <;> cases hv : v.head? <;> simp_all [UInt8.toNat_inj]
  · cases u.head? <;> simp
  · cases v.head? <;> simp
  · simp

/-- The rests of two paths after their common part do not begin with the same number. -/
def TellsApart (x y : Bytes) : Prop :=
  let u := numberPrefix (trimPrefix x (commonPrefix x y))
  let v := numberPrefix (trimPrefix y (commonPrefix x y))
  u = v → u = none

instance (x y : Bytes) : Decidable (TellsApart x y) := inferInstanceAs (Decidable (_ → _))

/-- Different paths compare exactly one way if they are told apart. -/
lemma compareStrings_swap (hxy : x ≠ y) :
    compareStrings x y = !compareStrings y x ↔ TellsApart x y := by
  obtain ⟨p, u, v, rfl, rfl, hd⟩ := exists_rests hxy
  rw [compareStrings_append p hd, compareStrings_append p hd.symm, TellsApart,
    commonPrefix_append p hd, trimPrefix_append, trimPrefix_append, compareRests_eq hd,
    compareRests_eq hd.symm, ← restKey_ne_iff hd, ← decide_not, decide_eq_decide, not_lt,
    lt_iff_le_and_ne]
  exact ⟨fun h heq => (h.mpr heq.le).2 heq, fun hne => ⟨And.left, fun h => ⟨h, hne⟩⟩⟩

lemma compareStrings_self (x : Bytes) : compareStrings x x = false := by
  have hcommon : commonPrefix x x = x := by
    induction x with
    | nil => rfl
    | cons a s ih => rw [commonPrefix, if_pos rfl, ih]
  have htrim : trimPrefix x x = [] := by
    have happend := trimPrefix_append x []
    rwa [append_nil] at happend
  rw [compareStrings, hcommon, htrim]
  rfl

/-! ### Three paths -/

/-- Two paths go on together where the third leaves them. -/
def Fork (x y z : Bytes) : Prop :=
  ∃ p q u v w, x = p ++ (q ++ u) ∧ y = p ++ (q ++ v) ∧ z = p ++ w ∧ Diverge u v ∧
    Diverge (q ++ u) w ∧ Diverge (q ++ v) w

lemma fork_of_diverge (hxy : x ≠ y) (hxz : Diverge x z) (hyz : Diverge y z) : Fork x y z := by
  obtain ⟨q, u, v, rfl, rfl, hd⟩ := exists_rests hxy
  exact ⟨[], q, u, v, z, rfl, rfl, rfl, hd, hxz, hyz⟩

lemma Fork.cons (h : Fork x y z) (a : UInt8) : Fork (a :: x) (a :: y) (a :: z) := by
  obtain ⟨p, q, u, v, w, rfl, rfl, rfl, hd⟩ := h
  exact ⟨a :: p, q, u, v, w, rfl, rfl, rfl, hd⟩

lemma exists_fork (hxy : x ≠ y) (hyz : y ≠ z) (hzx : z ≠ x) :
    Fork x y z ∨ Fork y z x ∨ Fork z x y := by
  induction x generalizing y z with
  | nil =>
    have hx : Diverge y [] := by simpa [Diverge] using hxy.symm
    have hz : Diverge z [] := by simpa [Diverge] using hzx
    exact .inr (.inl (fork_of_diverge hyz hx hz))
  | cons a s ih =>
    by_cases hy : y.head? = some a <;> by_cases hz : z.head? = some a
    · obtain ⟨t, rfl⟩ := head?_eq_some_iff.mp hy
      obtain ⟨r, rfl⟩ := head?_eq_some_iff.mp hz
      have hfork := @ih t r (by simpa using hxy) (by simpa using hyz) (by simpa using hzx)
      exact hfork.imp (fun h => h.cons a) (Or.imp (fun h => h.cons a) fun h => h.cons a)
    · exact .inl (fork_of_diverge hxy (Ne.symm hz) fun h => hz (h.symm.trans hy))
    · exact .inr (.inr (fork_of_diverge hzx (fun h => hy (h.symm.trans hz)) (Ne.symm hy)))
    · exact .inr (.inl (fork_of_diverge hyz hy hz))

def endsInDigit (p : Bytes) : Bool := p.getLast?.any isDigit

/-- The first difference of two paths leaves both with a number in range or
without one; numbers on both sides differ, and after a digit in common they have
as many digits. -/
def Clear (x y : Bytes) : Prop :=
  let u := digitRun (trimPrefix x (commonPrefix x y))
  let v := digitRun (trimPrefix y (commonPrefix x y))
  writeOn 0 u < 2 ^ 63 ∧ writeOn 0 v < 2 ^ 63 ∧
    (endsInDigit (commonPrefix x y) = true → u.length = v.length) ∧
    (u ≠ [] → v ≠ [] → writeOn 0 u ≠ writeOn 0 v)

instance (x y : Bytes) : Decidable (Clear x y) := inferInstanceAs (Decidable (_ ∧ _))

def AllClear (paths : List Bytes) : Prop := ∀ x ∈ paths, ∀ y ∈ paths, x ≠ y → Clear x y

instance (paths : List Bytes) : Decidable (AllClear paths) :=
  inferInstanceAs (Decidable (∀ x ∈ paths, ∀ y ∈ paths, x ≠ y → Clear x y))

lemma clear_append (p : Bytes) (hd : Diverge u v) : Clear (p ++ u) (p ++ v) ↔
    writeOn 0 (digitRun u) < 2 ^ 63 ∧ writeOn 0 (digitRun v) < 2 ^ 63 ∧
      (endsInDigit p = true → (digitRun u).length = (digitRun v).length) ∧
      (digitRun u ≠ [] → digitRun v ≠ [] →
        writeOn 0 (digitRun u) ≠ writeOn 0 (digitRun v)) := by
  rw [Clear, commonPrefix_append p hd, trimPrefix_append, trimPrefix_append]

lemma writeOn_append (n : ℕ) (ds es : Bytes) :
    writeOn n (ds ++ es) = writeOn n ds * 10 ^ es.length + writeOn 0 es := by
  have hshift : ∀ k, writeOn k es = k * 10 ^ es.length + writeOn 0 es := by
    induction es with
    | nil => simp [writeOn]
    | cons b es ih =>
      intro k
      rw [writeOn, writeOn, ih (10 * k + _), ih (10 * 0 + _), length_cons]
      ring
  induction ds generalizing n with
  | nil => exact hshift n
  | cons b ds ih => exact ih _

lemma restKey_of_digits (h : digitRun u ≠ []) (hrange : writeOn 0 (digitRun u) < 2 ^ 63) :
    restKey u = toLex (0, writeOn 0 (digitRun u)) := by
  rw [restKey, numberPrefix, if_neg h, if_pos hrange]

/-- Paths that go on together compare with a third one as they do with each other. -/
lemma restKey_append_le {q : Bytes} (hu : writeOn 0 (digitRun u) < 2 ^ 63)
    (hv : writeOn 0 (digitRun v) < 2 ^ 63) (hqu : writeOn 0 (digitRun (q ++ u)) < 2 ^ 63)
    (hqv : writeOn 0 (digitRun (q ++ v)) < 2 ^ 63)
    (hlength : endsInDigit q = true → (digitRun u).length = (digitRun v).length)
    (h : restKey u < restKey v) : restKey (q ++ u) ≤ restKey (q ++ v) := by
  rcases eq_or_ne q [] with rfl | hne
  · exact h.le
  by_cases hq : (digitRun q).length = q.length
  · -- the common digits weigh the same on both sides
    have hrun : ∀ t, digitRun (q ++ t) = q ++ digitRun t :=
      fun t => takeWhile_append.trans (if_pos hq)
    have hlast : endsInDigit q = true := by
      have hpre : digitRun q <+: q := takeWhile_prefix _
      rw [endsInDigit, getLast?_eq_some_getLast hne]
      exact takeWhile_eq_self_iff.mp (hpre.eq_of_length hq) _ (getLast_mem hne)
    have heq := hlength hlast
    have hle : writeOn 0 (digitRun u) ≤ writeOn 0 (digitRun v) := by
      by_cases hnil : digitRun u = []
      · rw [hnil]
        exact Nat.zero_le _
      · have hnil' : digitRun v ≠ [] := by
          rw [← length_pos_iff, ← heq]
          exact length_pos_iff.mpr hnil
        rw [restKey_of_digits hnil hu, restKey_of_digits hnil' hv] at h
        exact (by simpa [Prod.Lex.toLex_lt_toLex] using h : _ < _).le
    rw [restKey_of_digits (by simp [hrun, hne]) hqu, restKey_of_digits (by simp [hrun, hne]) hqv,
      hrun, hrun, writeOn_append, writeOn_append, heq]
    exact Prod.Lex.toLex_le_toLex.mpr (.inr ⟨rfl, Nat.add_le_add_left hle _⟩)
  · have hrun : ∀ t, digitRun (q ++ t) = digitRun q :=
      fun t => takeWhile_append.trans (if_neg hq)
    have hhead : ∀ t, (q ++ t).head? = q.head? := fun t => head?_append_of_ne_nil _ hne
    rw [restKey, restKey, numberPrefix, numberPrefix, hrun, hrun, hhead, hhead]

lemma ne_of_less (h : compareStrings x y = true) : x ≠ y := by
  rintro rfl
  rw [compareStrings_self] at h
  cases h

lemma not_fork_of_circle {paths : List Bytes} (hclear : AllClear paths) (hx : x ∈ paths)
    (hy : y ∈ paths) (hz : z ∈ paths) (hxy : compareStrings x y = true)
    (hyz : compareStrings y z = true) (hzx : compareStrings z x = true) : ¬ Fork x y z := by
  rintro ⟨p, q, u, v, w, rfl, rfl, rfl, huv, huw, hvw⟩
  have hclearxy := hclear _ hx _ hy (ne_of_less hxy)
  rw [← append_assoc, ← append_assoc] at hclearxy hxy
  obtain ⟨hu, hv, hlength, -⟩ := (clear_append _ huv).mp hclearxy
  have hqu := ((clear_append p huw).mp (hclear _ hx _ hz (ne_of_less hzx).symm)).1
  have hqv := ((clear_append p hvw).mp (hclear _ hy _ hz (ne_of_less hyz))).1
  rw [compareStrings_append _ huv, compareRests_eq huv, decide_eq_true_iff] at hxy
  rw [compareStrings_append p hvw, compareRests_eq hvw, decide_eq_true_iff] at hyz
  rw [compareStrings_append p huw.symm, compareRests_eq huw.symm, decide_eq_true_iff] at hzx
  refine (hyz.trans hzx).not_ge (restKey_append_le hu hv hqu hqv (fun hq => hlength ?_) hxy)
  rw [endsInDigit] at hq ⊢
  rw [getLast?_append]
  cases hlast : q.getLast? with
  | none => simp [hlast] at hq
  | some b => simpa [hlast] using hq

end Rests

/-- Any two of the paths are told apart, and no three compare in a circle. -/
def Ordered (paths : List Bytes) : Prop :=
  (∀ x ∈ paths, ∀ y ∈ paths, x ≠ y → TellsApart x y) ∧
    ∀ x ∈ paths, ∀ y ∈ paths, ∀ z ∈ paths, compareStrings x y = true →
      compareStrings y z = true → compareStrings z x = false

instance (paths : List Bytes) : Decidable (Ordered paths) := inferInstanceAs (Decidable (_ ∧ _))

section Ordered

variable {paths : List Bytes}

lemma ordered_iff : Ordered paths ↔ StrictWeakOn compareStrings paths ∧
    ∀ x ∈ paths, ∀ y ∈ paths, x ≠ y → compareStrings x y = true ∨ compareStrings y x = true := by
  constructor
  · rintro ⟨hapart, hcircle⟩
    have htotal : ∀ x ∈ paths, ∀ y ∈ paths, x ≠ y → compareStrings x y = !compareStrings y x :=
      fun x hx y hy hxy => (compareStrings_swap hxy).mpr (hapart x hx y hy hxy)
    refine ⟨(StrictWeakOn.iff_no_circle (fun x _ => compareStrings_self x) htotal).mpr hcircle,
      fun x hx y hy hxy => ?_⟩
    rw [htotal x hx y hy hxy]
    cases compareStrings y x <;> simp
  · rintro ⟨hweak, htotal⟩
    have hswap : ∀ x ∈ paths, ∀ y ∈ paths, x ≠ y → compareStrings x y = !compareStrings y x := by
      intro x hx y hy hxy
      rcases htotal x hx y hy hxy with h | h
      · rw [h, hweak.asymm hx hy h]
        rfl
      · rw [h, hweak.asymm hy hx h]
        rfl
    exact ⟨fun x hx y hy hxy => (compareStrings_swap hxy).mp (hswap x hx y hy hxy),
      (StrictWeakOn.iff_no_circle (fun x _ => compareStrings_self x) hswap).mp hweak⟩

lemma eq_of_incomparable (h : Ordered paths) {x y : Bytes} (hx : x ∈ paths) (hy : y ∈ paths)
    (hxy : compareStrings x y = false) (hyx : compareStrings y x = false) : x = y := by
  by_contra hne
  have := (ordered_iff.mp h).2 x hx y hy hne
  simp [hxy, hyx] at this

lemma ordered_of_allClear (h : AllClear paths) : Ordered paths := by
  have happart : ∀ x ∈ paths, ∀ y ∈ paths, x ≠ y → TellsApart x y := by
    intro x hx y hy hxy
    have hclear := h x hx y hy hxy
    obtain ⟨p, u, v, rfl, rfl, hd⟩ := exists_rests hxy
    obtain ⟨hu, hv, -, hne⟩ := (clear_append p hd).mp hclear
    rw [TellsApart, commonPrefix_append p hd, trimPrefix_append, trimPrefix_append, numberPrefix,
      numberPrefix, if_pos hu, if_pos hv]
    split_ifs with hnu hnv hnv
    · exact fun _ => rfl
    · exact fun _ => rfl
    · exact fun heq => heq
    · exact fun heq => absurd (Option.some.inj heq) (hne hnu hnv)
  refine ⟨happart, fun x hx y hy z hz hxy hyz => ?_⟩
  rw [← Bool.not_eq_true]
  intro hzx
  rcases exists_fork (ne_of_less hxy) (ne_of_less hyz) (ne_of_less hzx) with hfork | hfork | hfork
  · exact not_fork_of_circle h hx hy hz hxy hyz hzx hfork
  · exact not_fork_of_circle h hy hz hx hyz hzx hxy hfork
  · exact not_fork_of_circle h hz hx hy hzx hxy hyz hfork

end Ordered

/-! ### The ids -/

def TorrentFileStat.label (f : TorrentFileStat) : ℕ × Bytes := (f.id, f.path)

lemma labels_numberFrom {files files' : List TorrentFile} (i : ℕ)
    (h : files.map TorrentFile.path = files'.map TorrentFile.path) :
    (numberFrom i files).map TorrentFileStat.label
      = (numberFrom i files').map TorrentFileStat.label := by
  induction files generalizing files' i with
  | nil =>
    obtain rfl : files' = [] := map_eq_nil_iff.mp h.symm
    rfl
  | cons f files ih =>
    cases files' with
    | nil => cases h
    | cons f' files' =>
      obtain ⟨hpath, hrest⟩ := List.cons.inj h
      rw [numberFrom, numberFrom, map_cons, map_cons, ih (i + 1) hrest,
        TorrentFileStat.label, TorrentFileStat.label, hpath]

lemma designated_eq (S : Sorter) (files : List TorrentFile) (id : ℕ) :
    designated S files id
      = (((fileStats S files).map TorrentFileStat.label).find? fun l => l.1 = id).map Prod.snd := by
  rw [find?_map, Option.map_map]
  rfl

/-- The bytes of a text in ASCII. -/
def ascii (s : String) : Bytes := s.toList.map fun c => UInt8.ofNat c.toNat

def listed (names : List String) : List TorrentFile := names.map fun s => ⟨ascii s, 0⟩

end Tiramisu.Torrent
