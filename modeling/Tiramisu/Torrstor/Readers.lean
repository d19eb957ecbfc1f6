import Mathlib
import Tiramisu.Lib.Places
import Tiramisu.Lib.Runs

/-!
# The readers of the piece cache

A reader is in use or parked; `activeReaders` counts those in use.  A reader is
resumed by a read or by the sweep over the readers, and parked by the sweep or by
`Close`, but never under a read in flight.  Each critical section is one step:
the two of `newReader`, those of a read or seek, and those of `CloseReader`,
which has the write side of `muReaders` to itself.
-/

namespace Tiramisu.Torrstor

open Transition List Option Places

structure File where
  offset : ℤ
  length : ℤ
  deriving DecidableEq, Repr

/-- `position` and `engineReadahead` belong to the reader of the engine. -/
structure Reader where
  file : File
  offset : ℤ
  readahead : ℤ
  lastAccess : ℤ
  inFlight : ℤ
  isUse : Bool
  isClosed : Bool
  position : ℤ
  engineReadahead : ℤ
  deriving DecidableEq, Repr

namespace Reader

def newReader (file : File) : Reader :=
  { file
    offset := 0
    readahead := 0
    lastAccess := 0
    inFlight := 0
    isUse := true
    isClosed := false
    position := 0
    engineReadahead := 0 }

/-- The reader and the counter of the cache. -/
def resume (r : Reader) (active : ℤ) : Reader × ℤ :=
  if r.isUse then (r, active)
  else
    ({ r with
      position := if r.position = 0 then r.offset else r.position
      isUse := true
      engineReadahead := r.readahead }, active + 1)

def readerOn (r : Reader) (active : ℤ) : Reader × ℤ := r.resume active

def readerOff (r : Reader) (active : ℤ) : Reader × ℤ :=
  if 0 < r.inFlight then (r, active)
  else if r.isUse then
    ({ r with
      engineReadahead := 0
      isUse := false
      position := if 0 < r.offset then 0 else r.position }, active - 1)
  else (r, active)

def beginIo (r : Reader) (active : ℤ) : Reader × ℤ :=
  let (r, active) := r.resume active
  ({ r with inFlight := r.inFlight + 1 }, active)

def endIo (r : Reader) : Reader := { r with inFlight := r.inFlight - 1 }

end Reader

/-- A reader with the point its `newReader` has reached and its place in the map
of the cache. -/
structure Cell where
  reader : Reader
  returned : Bool
  registered : Bool
  deriving DecidableEq, Repr

/-- Where a call of `Read`, `ReadContext` or `Seek` stands: past its look at
`isClosed`, inside the engine's reader, past the update of the offset, or past
its end. -/
inductive IoCall
  | checked (i : ℕ) (seek : Bool)
  | inEngine (i : ℕ) (seek : Bool)
  | finishing (i : ℕ)
  | returned
  deriving DecidableEq, Repr

/-- `CloseReader` between the mark and `readerOff`, and before the reader leaves
the map. -/
inductive CloseStage
  | marked
  | parked
  deriving DecidableEq, Repr

structure ReaderTable where
  cells : List Cell
  readersNil : Bool
  activeReaders : ℤ
  closing : Option (ℕ × CloseStage)
  calls : List IoCall
  deriving DecidableEq, Repr

inductive ReaderLabel
  | newReader (file : File)
  | register (i : ℕ)
  | read (i : ℕ)
  | seek (i : ℕ) (offset : ℤ)
  | giveUp (k : ℕ)
  | beginIo (k : ℕ)
  | finish (k : ℕ) (n now : ℤ)
  | endIo (k : ℕ)
  | readerOn (i : ℕ)
  | readerOff (i : ℕ)
  | closeReader (i : ℕ)
  | closeOff
  | closeDelete
  | closeCache
  deriving DecidableEq, Repr

/-- The reader a call is about. -/
def IoCall.on : IoCall → Option ℕ
  | .checked i _ | .inEngine i _ | .finishing i => some i
  | .returned => none

/-- The call is counted in `inFlight`. -/
def IoCall.inside (i : ℕ) : IoCall → Bool
  | .inEngine j _ | .finishing j => j = i
  | _ => false

namespace ReaderTable

def start : ReaderTable := ⟨[], false, 0, none, []⟩

/-- A function of a reader and the counter at work on one reader. -/
def apply (t : ReaderTable) (i : ℕ) (c : Cell) (f : Reader → ℤ → Reader × ℤ) : ReaderTable :=
  { t with
    cells := t.cells.set i { c with reader := (f c.reader t.activeReaders).1 }
    activeReaders := (f c.reader t.activeReaders).2 }

/-- A call looks at `isClosed`; a seek sets the offset in the same section. -/
def enter (t : ReaderTable) (i : ℕ) (offset : Option ℤ) : Option ReaderTable :=
  match t.cells[i]? with
  | some c =>
    if !c.returned then none
    else if c.reader.isClosed then some t
    else
      some { t with
        cells := t.cells.set i
          { c with reader := { c.reader with offset := offset.getD c.reader.offset } }
        calls := t.calls ++ [.checked i offset.isSome] }
  | none => none

def step (t : ReaderTable) : ReaderLabel → Option ReaderTable
  | .newReader file => some { t with
      cells := t.cells ++ [⟨.newReader file, false, false⟩]
      activeReaders := t.activeReaders + 1 }
  | .register i =>
    match t.cells[i]?, t.closing with
    | some c, none =>
      if c.returned then none
      else
        some { t with
          cells := t.cells.set i
            { c with
              returned := true
              registered := !t.readersNil } }
    | _, _ => none
  | .read i => t.enter i none
  | .seek i offset => t.enter i (some offset)
  | .giveUp k =>
    -- a torrent without its info; `Seek` has no such branch
    match t.calls[k]? with
    | some (.checked _ false) => some { t with calls := t.calls.set k .returned }
    | _ => none
  | .beginIo k =>
    match t.calls[k]? with
    | some (.checked i seek) =>
      (t.cells[i]?).map fun c =>
        { t.apply i c Reader.beginIo with calls := t.calls.set k (.inEngine i seek) }
    | _ => none
  | .finish k n now =>
    match t.calls[k]? with
    | some (.inEngine i seek) =>
      (t.cells[i]?).map fun c => { t with
        cells := t.cells.set i
          { c with
            reader := { c.reader with
              offset := if seek then n else c.reader.offset + n
              lastAccess := now } }
        calls := t.calls.set k (.finishing i) }
    | _ => none
  | .endIo k =>
    match t.calls[k]? with
    | some (.finishing i) =>
      (t.cells[i]?).map fun c => { t with
        cells := t.cells.set i { c with reader := c.reader.endIo }
        calls := t.calls.set k .returned }
    | _ => none
  | .readerOn i =>
    match t.cells[i]?, t.closing with
    | some c, none => if c.registered then some (t.apply i c Reader.readerOn) else none
    | _, _ => none
  | .readerOff i =>
    match t.cells[i]?, t.closing with
    | some c, none => if c.registered then some (t.apply i c Reader.readerOff) else none
    | _, _ => none
  | .closeReader i =>
    match t.cells[i]?, t.closing with
    | some c, none =>
      if !c.returned then none
      else if t.readersNil then some t
      else if c.reader.isClosed then some { t with closing := some (i, .parked) }
      else
        some { t with
          cells := t.cells.set i { c with reader := { c.reader with isClosed := true } }
          closing := some (i, .marked) }
    | _, _ => none
  | .closeOff =>
    match t.closing with
    | some (i, .marked) =>
      (t.cells[i]?).map fun c =>
        { t.apply i c Reader.readerOff with closing := some (i, .parked) }
    | _ => none
  | .closeDelete =>
    match t.closing with
    | some (i, .parked) =>
      (t.cells[i]?).map fun c => { t with
        cells := t.cells.set i { c with registered := false }
        closing := none }
    | _ => none
  | .closeCache =>
    match t.closing with
    | none => some { t with
        cells := t.cells.map fun c => { c with registered := false }
        readersNil := true }
    | some _ => none

def Step (t : ReaderTable) (l : ReaderLabel) (t' : ReaderTable) : Prop := t.step l = some t'

/-- A reader is closed while no read or seek is on it, and the cache is closed
after its readers and makes none later. -/
def Quiet (t : ReaderTable) : ReaderLabel → Prop
  | .newReader _ => t.readersNil = false
  | .closeReader i => ∀ call ∈ t.calls, call.on ≠ some i
  | .closeCache => ∀ c ∈ t.cells, c.returned = true ∧ c.reader.isClosed = true
  | _ => True

instance (t : ReaderTable) (l : ReaderLabel) : Decidable (t.Quiet l) := by
  cases l <;> unfold Quiet <;> infer_instance

end ReaderTable

/-! ### One reader against the rest of the table -/

/-- The reader `i`, with `flying` calls counted on it. -/
structure Fits (closing : Option (ℕ × CloseStage)) (readersNil : Bool) (flying i : ℕ)
    (c : Cell) : Prop where
  flight : c.reader.inFlight = flying
  young : c.returned = false → c.reader.isUse = true ∧ c.reader.isClosed = false ∧
    c.registered = false ∧ readersNil = false
  kept : c.returned = true → c.reader.isClosed = false → c.registered = true
  shut : c.reader.isClosed = true → c.reader.isUse = true → closing = some (i, .marked)
  listed : c.registered = true → c.reader.isClosed = true → ∃ stage, closing = some (i, stage)
  ended : readersNil = true → c.reader.isClosed = true

section Fits

variable {closing closing' : Option (ℕ × CloseStage)} {readersNil : Bool} {flying i : ℕ}
  {c : Cell} {r : Reader} {active : ℤ}

/-- A function that leaves an open reader open and its counted calls as they are. -/
lemma Fits.reader (h : Fits closing readersNil flying i c) (hopen : c.reader.isClosed = false)
    (hreturned : c.returned = true) (hclosed : r.isClosed = false) {flying' : ℕ}
    (hflight : r.inFlight = flying') :
    Fits closing readersNil flying' i { c with reader := r } where
  flight := hflight
  young hnew := by
    rw [hreturned] at hnew
    cases hnew
  kept _ _ := h.kept hreturned hopen
  shut hshut _ := by
    rw [hclosed] at hshut
    cases hshut
  listed _ hshut := by
    rw [hclosed] at hshut
    cases hshut
  ended hnil := by
    rw [h.ended hnil] at hopen
    cases hopen

/-- While no reader is being closed, a registered reader is open. -/
lemma Fits.isOpen (h : Fits none readersNil flying i c) (hreg : c.registered = true) :
    c.reader.isClosed = false ∧ c.returned = true := by
  constructor
  · cases hclosed : c.reader.isClosed with
    | false => rfl
    | true =>
      obtain ⟨stage, hstage⟩ := h.listed hreg hclosed
      cases hstage
  · cases hnew : c.returned with
    | true => rfl
    | false =>
      have hunreg := (h.young hnew).2.2.1
      rw [hreg] at hunreg
      cases hunreg

/-- `CloseReader` of another reader begins or ends. -/
lemma Fits.elsewhere (h : Fits closing readersNil flying i c)
    (hclosing : ∀ stage, closing ≠ some (i, stage)) :
    Fits closing' readersNil flying i c where
  flight := h.flight
  young := h.young
  kept := h.kept
  shut hclosed huse := absurd (h.shut hclosed huse) (hclosing _)
  listed hreg hclosed := by
    obtain ⟨stage, hstage⟩ := h.listed hreg hclosed
    exact absurd hstage (hclosing stage)
  ended := h.ended

end Fits

/-! ### What the functions do to the counter -/

namespace Reader

variable (r : Reader) (active : ℤ)

lemma resume_counts : (r.resume active).2 + (r.isUse.toNat : ℤ)
    = active + ((r.resume active).1.isUse.toNat : ℤ) := by
  unfold resume
  cases huse : r.isUse with
  | true => simp [huse]
  | false => simp

lemma readerOff_counts : (r.readerOff active).2 + (r.isUse.toNat : ℤ)
    = active + ((r.readerOff active).1.isUse.toNat : ℤ) := by
  unfold readerOff
  by_cases hflight : 0 < r.inFlight
  · rw [if_pos hflight]
  · rw [if_neg hflight]
    cases huse : r.isUse with
    | true => simp
    | false => simp [huse]

lemma beginIo_counts : (r.beginIo active).2 + (r.isUse.toNat : ℤ)
    = active + ((r.beginIo active).1.isUse.toNat : ℤ) :=
  r.resume_counts active

lemma isClosed_resume : (r.resume active).1.isClosed = r.isClosed := by
  unfold resume
  split_ifs <;> rfl

lemma inFlight_resume : (r.resume active).1.inFlight = r.inFlight := by
  unfold resume
  split_ifs <;> rfl

lemma isClosed_readerOff : (r.readerOff active).1.isClosed = r.isClosed := by
  unfold readerOff
  split_ifs <;> rfl

lemma inFlight_readerOff : (r.readerOff active).1.inFlight = r.inFlight := by
  unfold readerOff
  split_ifs <;> rfl

lemma isUse_readerOff (h : r.inFlight = 0) : (r.readerOff active).1.isUse = false := by
  unfold readerOff
  rw [if_neg (by omega)]
  cases huse : r.isUse with
  | true => rfl
  | false => exact huse

end Reader

/-! ### The counter along a run -/

def Cell.inUse (c : Cell) : Bool := c.reader.isUse

/-- A reader of the map that is open and in use. -/
def Cell.openInUse (c : Cell) : Bool := c.registered && !c.reader.isClosed && c.reader.isUse

namespace ReaderTable

variable {t t' : ReaderTable} {i j k : ℕ} {c : Cell} {x y : IoCall}

structure Counted (t : ReaderTable) : Prop where
  active : t.activeReaders = t.cells.countP Cell.inUse
  fits : ∀ (i : ℕ) (c : Cell), t.cells[i]? = some c →
    Fits t.closing t.readersNil (t.calls.countP (IoCall.inside i)) i c
  called : ∀ call ∈ t.calls, ∀ i, call.on = some i →
    ∃ c, t.cells[i]? = some c ∧ c.reader.isClosed = false ∧ c.returned = true
  closes : ∀ i stage, t.closing = some (i, stage) →
    ∃ c, t.cells[i]? = some c ∧ c.reader.isClosed = true

lemma on_of_inside (h : x.inside i = true) : x.on = some i := by
  cases x with
  | checked | returned => cases h
  | inEngine j seek | finishing j =>
    obtain rfl : j = i := by simpa [IoCall.inside] using h
    rfl

/-- No call is counted on a reader that none is on. -/
lemma inside_eq_zero (h : ∀ call ∈ t.calls, call.on ≠ some i) :
    t.calls.countP (IoCall.inside i) = 0 := by
  rw [countP_eq_zero]
  intro call hcall hinside
  exact h call hcall (on_of_inside hinside)

/-- No call is on a reader that is closed. -/
lemma Counted.none_on_closed (h : t.Counted) (hi : t.cells[i]? = some c)
    (hclosed : c.reader.isClosed = true) : ∀ call ∈ t.calls, call.on ≠ some i := by
  intro call hcall hon
  obtain ⟨d, hd, hopen, -⟩ := h.called call hcall i hon
  cases hi.symm.trans hd
  rw [hclosed] at hopen
  cases hopen

/-- An open reader and the calls on it move; everything else stays. -/
lemma Counted.move (h : t.Counted) (hi : t.cells[i]? = some c)
    (hopen : c.reader.isClosed = false) (hreturned : c.returned = true) {r : Reader}
    (hclosed : r.isClosed = false) {active : ℤ}
    (hactive : active + (c.reader.isUse.toNat : ℤ) = t.activeReaders + (r.isUse.toNat : ℤ))
    {calls : List IoCall}
    (hcalls : ∀ call ∈ calls, call ∈ t.calls ∨ call.on = some i ∨ call.on = none)
    (hother : ∀ j, j ≠ i → calls.countP (IoCall.inside j) = t.calls.countP (IoCall.inside j))
    (hflight : r.inFlight = calls.countP (IoCall.inside i)) :
    ({ t with
      cells := t.cells.set i { c with reader := r }
      activeReaders := active
      calls } : ReaderTable).Counted where
  active := by
    have hcount := count_set Cell.inUse hi (y := { c with reader := r })
    have hbefore := h.active
    simp only [Cell.inUse] at hcount hbefore ⊢
    omega
  fits j d hj := by
    rcases of_set hj with ⟨rfl, rfl⟩ | ⟨hji, hold⟩
    · exact (h.fits j c hi).reader hopen hreturned hclosed hflight
    · dsimp only
      rw [hother j hji]
      exact h.fits j d hold
  called call hcall j hon := by
    have hnew : (t.cells.set i { c with reader := r })[i]? = some { c with reader := r } :=
      set_self hi
    by_cases hji : j = i
    · subst hji
      exact ⟨_, hnew, hclosed, hreturned⟩
    rcases hcalls call hcall with hold | hnow | hnone
    · obtain ⟨d, hd, hdopen, hdreturned⟩ := h.called call hold j hon
      exact ⟨d, set_other hd hji, hdopen, hdreturned⟩
    · exact absurd (Option.some.inj (hon.symm.trans hnow)) hji
    · rw [hnone] at hon
      cases hon
  closes j stage hclosing := by
    obtain ⟨d, hd, hdclosed⟩ := h.closes j stage hclosing
    have hji : j ≠ i := by
      rintro rfl
      cases hi.symm.trans hd
      rw [hopen] at hdclosed
      cases hdclosed
    exact ⟨d, set_other hd hji, hdclosed⟩

/-! ### The steps -/

section

variable (h : t.Counted)

include h

lemma counted_newReader (hnil : t.readersNil = false) (file : File) :
    ({ t with
      cells := t.cells ++ [⟨.newReader file, false, false⟩]
      activeReaders := t.activeReaders + 1 } : ReaderTable).Counted where
  active := by
    have hcount := count_join Cell.inUse (l := t.cells)
      (x := (⟨.newReader file, false, false⟩ : Cell))
    have hbefore := h.active
    have hone : (Cell.inUse ⟨.newReader file, false, false⟩).toNat = 1 := rfl
    rw [hcount, hone]
    push_cast
    omega
  fits j d hj := by
    rcases of_join hj with ⟨rfl, rfl⟩ | hold
    · have hzero : t.calls.countP (IoCall.inside t.cells.length) = 0 := by
        apply inside_eq_zero
        intro call hcall hon
        obtain ⟨d, hd, -⟩ := h.called call hcall _ hon
        rw [getElem?_eq_none (Nat.le_refl _)] at hd
        cases hd
      constructor
      · dsimp only
        rw [hzero]
        rfl
      · exact fun _ => ⟨rfl, rfl, rfl, hnil⟩
      · intro hreturned
        cases hreturned
      · intro hclosed
        cases hclosed
      · intro hreg
        cases hreg
      · intro hended
        rw [hnil] at hended
        cases hended
    · exact h.fits j d hold
  called call hcall j hon := by
    obtain ⟨d, hd, hrest⟩ := h.called call hcall j hon
    exact ⟨d, join hd, hrest⟩
  closes j stage hclosing := by
    obtain ⟨d, hd, hclosed⟩ := h.closes j stage hclosing
    exact ⟨d, join hd, hclosed⟩

/-- One cell changes in its place in the map and in what `newReader` has done. -/
lemma Counted.replace (hi : t.cells[i]? = some c) {returned registered : Bool}
    {closing : Option (ℕ × CloseStage)}
    (hfits : Fits closing t.readersNil (t.calls.countP (IoCall.inside i)) i
      { c with
        returned
        registered })
    (helse : ∀ j d, j ≠ i → t.cells[j]? = some d →
      Fits closing t.readersNil (t.calls.countP (IoCall.inside j)) j d)
    (hreturned : c.returned = true → returned = true)
    (hcloses : ∀ j stage, closing = some (j, stage) →
      ∃ c, t.cells[j]? = some c ∧ c.reader.isClosed = true) :
    ({ t with
      cells := t.cells.set i
        { c with
          returned
          registered }
      closing } : ReaderTable).Counted where
  active := by
    have hcount := count_set Cell.inUse hi (y :=
      { c with
        returned
        registered })
    have hbefore := h.active
    simp only [Cell.inUse] at hcount hbefore ⊢
    omega
  fits j d hj := by
    rcases of_set hj with ⟨rfl, rfl⟩ | ⟨hji, hold⟩
    · exact hfits
    · exact helse j d hji hold
  called call hcall j hon := by
    obtain ⟨d, hd, hopen, hdone⟩ := h.called call hcall j hon
    by_cases hji : j = i
    · subst hji
      cases hi.symm.trans hd
      exact ⟨_, set_self hi, hopen, hreturned hdone⟩
    · exact ⟨d, set_other hd hji, hopen, hdone⟩
  closes j stage hclosing := by
    obtain ⟨d, hd, hclosed⟩ := hcloses j stage hclosing
    by_cases hji : j = i
    · subst hji
      cases hi.symm.trans hd
      exact ⟨_, set_self hi, hclosed⟩
    · exact ⟨d, set_other hd hji, hclosed⟩

lemma counted_register (hi : t.cells[i]? = some c) (hnew : c.returned = false) :
    ({ t with
      cells := t.cells.set i
        { c with
          returned := true
          registered := !t.readersNil } } : ReaderTable).Counted := by
  have hfits := h.fits i c hi
  obtain ⟨-, hopen, -, hnil⟩ := hfits.young hnew
  apply h.replace hi
  · constructor
    · exact hfits.flight
    · intro hfalse
      cases hfalse
    · intro _ _
      rw [hnil]
      rfl
    · exact hfits.shut
    · intro _ hclosed
      rw [hopen] at hclosed
      cases hclosed
    · exact hfits.ended
  · exact fun j d _ hd => h.fits j d hd
  · exact fun _ => rfl
  · exact h.closes

lemma counted_enter (hi : t.cells[i]? = some c) (hreturned : c.returned = true)
    (hopen : c.reader.isClosed = false) (offset : Option ℤ) :
    ({ t with
      cells := t.cells.set i
        { c with reader := { c.reader with offset := offset.getD c.reader.offset } }
      calls := t.calls ++ [.checked i offset.isSome] } : ReaderTable).Counted := by
  have hcount : ∀ j, (t.calls ++ [IoCall.checked i offset.isSome]).countP (IoCall.inside j)
      = t.calls.countP (IoCall.inside j) := by
    intro j
    rw [count_join]
    rfl
  apply h.move hi hopen hreturned
  · exact hopen
  · rfl
  · exact forall_join (fun _ => .inl) (.inr (.inl rfl))
  · exact fun j _ => hcount j
  · rw [hcount]
    exact (h.fits i c hi).flight

/-- A call ends before it has begun its work. -/
lemma counted_giveUp {seek : Bool} (hk : t.calls[k]? = some (.checked i seek)) :
    ({ t with calls := t.calls.set k .returned } : ReaderTable).Counted where
  active := h.active
  fits j d hj := by
    have hcount := count_set (IoCall.inside j) hk (y := .returned)
    have hsame : (t.calls.set k .returned).countP (IoCall.inside j)
        = t.calls.countP (IoCall.inside j) := hcount
    rw [hsame]
    exact h.fits j d hj
  called call hcall j hon := by
    rcases mem_or_eq_of_mem_set hcall with hold | rfl
    · exact h.called call hold j hon
    · cases hon
  closes := h.closes

/-- A call on a reader moves with its reader. -/
lemma Counted.advance (hi : t.cells[i]? = some c) (hk : t.calls[k]? = some x) (hx : x.on = some i)
    (hy : y.on = some i ∨ y.on = none) {r : Reader} (hclosed : r.isClosed = c.reader.isClosed)
    {active : ℤ}
    (hactive : active + (c.reader.isUse.toNat : ℤ) = t.activeReaders + (r.isUse.toNat : ℤ))
    (hflight : r.inFlight + ((x.inside i).toNat : ℤ) = c.reader.inFlight + ((y.inside i).toNat : ℤ)) :
    ({ t with
      cells := t.cells.set i { c with reader := r }
      activeReaders := active
      calls := t.calls.set k y } : ReaderTable).Counted := by
  obtain ⟨d, hd, hopen, hreturned⟩ := h.called x (mem_of_getElem? hk) i hx
  cases hi.symm.trans hd
  have hcount : ∀ j, (t.calls.set k y).countP (IoCall.inside j) + (x.inside j).toNat
      = t.calls.countP (IoCall.inside j) + (y.inside j).toNat :=
    fun j => count_set _ hk
  apply h.move hi hopen hreturned
  · exact hclosed.trans hopen
  · exact hactive
  · intro call hcall
    rcases mem_or_eq_of_mem_set hcall with hold | rfl
    · exact .inl hold
    · exact .inr hy
  · intro j hji
    have hxj : x.inside j = false := by
      rw [← Bool.not_eq_true]
      intro hin
      exact hji (Option.some.inj ((on_of_inside hin).symm.trans hx))
    have hyj : y.inside j = false := by
      rw [← Bool.not_eq_true]
      intro hin
      have hon := on_of_inside hin
      rcases hy with hy | hy
      · exact hji (Option.some.inj (hon.symm.trans hy))
      · rw [hy] at hon
        cases hon
    have hj := hcount j
    rwa [hxj, hyj] at hj
  · have hi' := hcount i
    have hbefore := (h.fits i c hi).flight
    omega

/-- The sweep turns a registered reader on or off. -/
lemma Counted.sweep (hclosing : t.closing = none) (hi : t.cells[i]? = some c)
    (hreg : c.registered = true) {f : Reader → ℤ → Reader × ℤ}
    (hclosed : ∀ r active, (f r active).1.isClosed = r.isClosed)
    (hflight : ∀ r active, (f r active).1.inFlight = r.inFlight)
    (hcounts : ∀ r active, (f r active).2 + (r.isUse.toNat : ℤ)
      = active + ((f r active).1.isUse.toNat : ℤ)) : (t.apply i c f).Counted := by
  have hfits := h.fits i c hi
  obtain ⟨hopen, hreturned⟩ := (hclosing ▸ hfits).isOpen hreg
  apply h.move hi hopen hreturned
  · exact (hclosed _ _).trans hopen
  · exact hcounts _ _
  · exact fun call hcall => .inl hcall
  · exact fun _ _ => rfl
  · exact (hflight _ _).trans hfits.flight

/-- `CloseReader` of a reader that is closed already has nothing to switch off. -/
lemma counted_closeAgain (hclosing : t.closing = none) (hi : t.cells[i]? = some c)
    (hclosed : c.reader.isClosed = true) :
    ({ t with closing := some (i, .parked) } : ReaderTable).Counted where
  active := h.active
  fits j d hd := by
    apply (h.fits j d hd).elsewhere
    rw [hclosing]
    intro stage hstage
    cases hstage
  called := h.called
  closes j stage hstage := by
    cases hstage
    exact ⟨c, hi, hclosed⟩

lemma counted_closeMark (hclosing : t.closing = none) (hi : t.cells[i]? = some c)
    (hreturned : c.returned = true) (hquiet : ∀ call ∈ t.calls, call.on ≠ some i) :
    ({ t with
      cells := t.cells.set i { c with reader := { c.reader with isClosed := true } }
      closing := some (i, .marked) } : ReaderTable).Counted where
  active := by
    have hcount := count_set Cell.inUse hi
      (y := { c with reader := { c.reader with isClosed := true } })
    have hbefore := h.active
    simp only [Cell.inUse] at hcount hbefore ⊢
    omega
  fits j d hj := by
    rcases of_set hj with ⟨rfl, rfl⟩ | ⟨hji, hold⟩
    · constructor
      · exact (h.fits j c hi).flight
      · intro hnew
        rw [hreturned] at hnew
        cases hnew
      · intro _ hfalse
        cases hfalse
      · exact fun _ _ => rfl
      · exact fun _ _ => ⟨_, rfl⟩
      · exact fun _ => rfl
    · apply (h.fits j d hold).elsewhere
      rw [hclosing]
      intro stage hstage
      cases hstage
  called call hcall j hon := by
    obtain ⟨d, hd, hrest⟩ := h.called call hcall j hon
    have hji : j ≠ i := by
      rintro rfl
      exact hquiet call hcall hon
    exact ⟨d, set_other hd hji, hrest⟩
  closes j stage hstage := by
    cases hstage
    exact ⟨_, set_self hi, rfl⟩

/-- No call is on the reader that is being closed, so `readerOff` parks it. -/
lemma counted_closeOff (hclosing : t.closing = some (i, .marked)) (hi : t.cells[i]? = some c) :
    ({ t.apply i c Reader.readerOff with closing := some (i, .parked) } : ReaderTable).Counted := by
  obtain ⟨d, hd, hclosed⟩ := h.closes i .marked hclosing
  cases hi.symm.trans hd
  have hfits := h.fits i c hi
  have hzero : t.calls.countP (IoCall.inside i) = 0 :=
    inside_eq_zero (h.none_on_closed hi hclosed)
  have hidle : c.reader.inFlight = 0 := by
    rw [hfits.flight, hzero]
    rfl
  have hstill : (c.reader.readerOff t.activeReaders).1.isClosed = true :=
    (c.reader.isClosed_readerOff _).trans hclosed
  constructor
  · have hcount := count_set Cell.inUse hi
      (y := { c with reader := (c.reader.readerOff t.activeReaders).1 })
    have hswitch := c.reader.readerOff_counts t.activeReaders
    have hbefore := h.active
    simp only [apply, Cell.inUse] at hcount hbefore ⊢
    omega
  · intro j d hj
    rcases of_set hj with ⟨rfl, rfl⟩ | ⟨hji, hold⟩
    · constructor
      · exact (c.reader.inFlight_readerOff _).trans hfits.flight
      · intro hnew
        have hopen := (hfits.young hnew).2.1
        rw [hclosed] at hopen
        cases hopen
      · intro _ hopen
        rw [hstill] at hopen
        cases hopen
      · intro _ huse
        rw [c.reader.isUse_readerOff _ hidle] at huse
        cases huse
      · exact fun _ _ => ⟨_, rfl⟩
      · exact fun _ => hstill
    · apply (h.fits j d hold).elsewhere
      intro stage hstage
      exact hji (Prod.mk.inj (Option.some.inj (hstage.symm.trans hclosing))).1
  · intro call hcall j hon
    obtain ⟨d, hd, hrest⟩ := h.called call hcall j hon
    have hji : j ≠ i := by
      rintro rfl
      exact h.none_on_closed hi hclosed call hcall hon
    exact ⟨d, set_other hd hji, hrest⟩
  · intro j stage hstage
    cases hstage
    exact ⟨_, set_self hi, hstill⟩

lemma counted_closeDelete (hclosing : t.closing = some (i, .parked)) (hi : t.cells[i]? = some c) :
    ({ t with
      cells := t.cells.set i { c with registered := false }
      closing := none } : ReaderTable).Counted := by
  obtain ⟨d, hd, hclosed⟩ := h.closes i .parked hclosing
  cases hi.symm.trans hd
  have hfits := h.fits i c hi
  apply h.replace hi
  · constructor
    · exact hfits.flight
    · intro hnew
      have hopen := (hfits.young hnew).2.1
      rw [hclosed] at hopen
      cases hopen
    · intro _ hopen
      rw [hclosed] at hopen
      cases hopen
    · intro _ huse
      have hmarked := hfits.shut hclosed huse
      rw [hclosing] at hmarked
      cases hmarked
    · intro hfalse
      cases hfalse
    · exact fun _ => hclosed
  · intro j d hji hd
    apply (h.fits j d hd).elsewhere
    intro stage hstage
    exact hji (Prod.mk.inj (Option.some.inj (hstage.symm.trans hclosing))).1
  · exact id
  · intro j stage hstage
    cases hstage

lemma counted_closeCache (hclosing : t.closing = none)
    (hall : ∀ c ∈ t.cells, c.returned = true ∧ c.reader.isClosed = true) :
    ({ t with
      cells := t.cells.map fun c => { c with registered := false }
      readersNil := true } : ReaderTable).Counted where
  active := by
    rw [countP_map]
    exact h.active
  fits j d hj := by
    rw [getElem?_map] at hj
    obtain ⟨c, hc, rfl⟩ := map_eq_some_iff.mp hj
    obtain ⟨hreturned, hclosed⟩ := hall c (mem_of_getElem? hc)
    have hfits := h.fits j c hc
    constructor
    · exact hfits.flight
    · intro hnew
      rw [hreturned] at hnew
      cases hnew
    · intro _ hopen
      rw [hclosed] at hopen
      cases hopen
    · exact hfits.shut
    · intro hfalse
      cases hfalse
    · exact fun _ => hclosed
  called call hcall j hon := by
    obtain ⟨d, hd, hopen, -⟩ := h.called call hcall j hon
    rw [(hall d (mem_of_getElem? hd)).2] at hopen
    cases hopen
  closes j stage hstage := by
    rw [hclosing] at hstage
    cases hstage

lemma counted_of_enter {offset : Option ℤ} (hstep : t.enter i offset = some t') : t'.Counted := by
  unfold enter at hstep
  split at hstep
  · rename_i c hi
    split_ifs at hstep with hreturned hclosed
    · cases hstep
      exact h
    · cases hstep
      exact counted_enter h hi (by simpa using hreturned) (by simpa using hclosed) offset
  · cases hstep

lemma counted_step {l : ReaderLabel} (hquiet : t.Quiet l) (hstep : t.Step l t') : t'.Counted := by
  unfold Step step at hstep
  cases l with
  | newReader file =>
    cases hstep
    exact counted_newReader h hquiet file
  | register i =>
    dsimp only at hstep
    split at hstep
    · rename_i c hi hclosing
      split_ifs at hstep with hreturned
      cases hstep
      exact counted_register h hi (by simpa using hreturned)
    · cases hstep
  | read i => exact counted_of_enter h hstep
  | seek i offset => exact counted_of_enter h hstep
  | giveUp k =>
    dsimp only at hstep
    split at hstep <;> cases hstep
    rename_i i hk
    exact counted_giveUp h hk
  | beginIo k =>
    dsimp only at hstep
    split at hstep
    · rename_i i seek hk
      obtain ⟨c, hi, rfl⟩ := map_eq_some_iff.mp hstep
      apply h.advance hi hk rfl (.inl rfl)
      · exact c.reader.isClosed_resume _
      · exact c.reader.beginIo_counts _
      · have hsame := c.reader.inFlight_resume t.activeReaders
        simp [Reader.beginIo, IoCall.inside, hsame]
    · cases hstep
  | finish k n now =>
    dsimp only at hstep
    split at hstep
    · rename_i i seek hk
      obtain ⟨c, hi, rfl⟩ := map_eq_some_iff.mp hstep
      apply h.advance hi hk rfl (.inl rfl)
      · rfl
      · rfl
      · simp [IoCall.inside]
    · cases hstep
  | endIo k =>
    dsimp only at hstep
    split at hstep
    · rename_i i hk
      obtain ⟨c, hi, rfl⟩ := map_eq_some_iff.mp hstep
      apply h.advance hi hk rfl (.inr rfl)
      · rfl
      · rfl
      · simp [Reader.endIo, IoCall.inside]
    · cases hstep
  | readerOn i =>
    dsimp only at hstep
    split at hstep
    · rename_i c hi hclosing
      split_ifs at hstep with hreg
      cases hstep
      exact h.sweep hclosing hi hreg Reader.isClosed_resume Reader.inFlight_resume
        Reader.resume_counts
    · cases hstep
  | readerOff i =>
    dsimp only at hstep
    split at hstep
    · rename_i c hi hclosing
      split_ifs at hstep with hreg
      cases hstep
      exact h.sweep hclosing hi hreg Reader.isClosed_readerOff Reader.inFlight_readerOff
        Reader.readerOff_counts
    · cases hstep
  | closeReader i =>
    dsimp only at hstep
    split at hstep
    · rename_i c hi hclosing
      split_ifs at hstep with hreturned hnil hclosed
      · cases hstep
        exact h
      · cases hstep
        exact counted_closeAgain h hclosing hi hclosed
      · cases hstep
        exact counted_closeMark h hclosing hi (by simpa using hreturned) hquiet
    · cases hstep
  | closeOff =>
    dsimp only at hstep
    split at hstep
    · rename_i i hclosing
      obtain ⟨c, hi, rfl⟩ := map_eq_some_iff.mp hstep
      exact counted_closeOff h hclosing hi
    · cases hstep
  | closeDelete =>
    dsimp only at hstep
    split at hstep
    · rename_i i hclosing
      obtain ⟨c, hi, rfl⟩ := map_eq_some_iff.mp hstep
      exact counted_closeDelete h hclosing hi
    · cases hstep
  | closeCache =>
    dsimp only at hstep
    split at hstep <;> cases hstep
    rename_i hclosing
    exact counted_closeCache h hclosing hquiet

end

lemma counted_start : start.Counted where
  active := rfl
  fits i c hi := by simp [start] at hi
  called call hcall := by simp [start] at hcall
  closes i stage hstage := by cases hstage

lemma counted_of_run {ls : List ReaderLabel} (hrun : Run (Guarded Quiet Step) start ls t) :
    t.Counted :=
  hrun.invariant (I := Counted) (fun _ _ _ h hst => counted_step h hst.1 hst.2) counted_start

lemma Counted.openInUse_iff (h : t.Counted) (hclosing : t.closing = none)
    (hreturned : ∀ c ∈ t.cells, c.returned = true) (hc : c ∈ t.cells) :
    c.inUse = true ↔ c.openInUse = true := by
  obtain ⟨i, hi⟩ := mem_iff_getElem?.mp hc
  have hfits := h.fits i c hi
  constructor
  · intro huse
    have hopen : c.reader.isClosed = false := by
      rw [← Bool.not_eq_true]
      intro hclosed
      have hmarked := hfits.shut hclosed huse
      rw [hclosing] at hmarked
      cases hmarked
    have huse' : c.reader.isUse = true := huse
    rw [Cell.openInUse, hfits.kept (hreturned c hc) hopen, hopen, huse']
    rfl
  · intro hactive
    have hparts : (c.registered = true ∧ c.reader.isClosed = false) ∧ c.reader.isUse = true := by
      simpa [Cell.openInUse] using hactive
    exact hparts.2

end ReaderTable

/-! ### The counter -/

open ReaderTable

/-- Between the calls of `newReader` and `CloseReader` the counter is the number
of registered, open readers in use. -/
theorem activeReaders_counts_readers_in_use {ls : List ReaderLabel} {t : ReaderTable}
    (hrun : Run (Guarded Quiet Step) start ls t)
    (hreturned : ∀ c ∈ t.cells, c.returned = true) (hclosing : t.closing = none) :
    t.activeReaders = t.cells.countP Cell.openInUse ∧
      ((∀ c ∈ t.cells, c.reader.isClosed = true) → t.activeReaders = 0) := by
  have hcounted := counted_of_run hrun
  have hcount : t.cells.countP Cell.inUse = t.cells.countP Cell.openInUse :=
    countP_congr fun c hc => hcounted.openInUse_iff hclosing hreturned hc
  have hactive : t.activeReaders = t.cells.countP Cell.openInUse := by
    rw [hcounted.active, hcount]
  refine ⟨hactive, fun hall => ?_⟩
  have hzero : t.cells.countP Cell.openInUse = 0 := by
    rw [countP_eq_zero]
    intro c hc hc'
    have hparts : (c.registered = true ∧ c.reader.isClosed = false) ∧ c.reader.isUse = true := by
      simpa [Cell.openInUse] using hc'
    rw [hall c hc] at hparts
    cases hparts.1.2
  rw [hactive, hzero]
  rfl

/-- A read, then the sweep, then `CloseReader`. -/
def quietLabels : List ReaderLabel :=
  [.newReader ⟨0, 8⟩, .register 0, .read 0, .beginIo 0, .finish 0 4 100, .endIo 0, .readerOff 0,
    .readerOn 0, .closeReader 0, .closeOff, .closeDelete]

theorem closed_reader_leaves_counter_zero :
    ∃ t, Run (Guarded Quiet Step) start quietLabels t ∧ t.cells.length = 1 ∧
      (∀ c ∈ t.cells, c.returned = true ∧ c.reader.isClosed = true) ∧ t.activeReaders = 0 := by
  obtain ⟨t, ht, hlength, hall, hclosing⟩ : ∃ t ∈ quietLabels.foldlM (fun (t : ReaderTable) l =>
      if t.Quiet l then t.step l else none) start, t.cells.length = 1 ∧
        (∀ c ∈ t.cells, c.returned = true ∧ c.reader.isClosed = true) ∧ t.closing = none := by
    decide
  have hrun : Run (Guarded Quiet Step) start quietLabels t := guarded_run_of_foldlM ht
  have hcounter := activeReaders_counts_readers_in_use hrun (fun c hc => (hall c hc).1) hclosing
  exact ⟨t, hrun, hlength, hall, hcounter.2 fun c hc => (hall c hc).2⟩

/-- `CloseReader` under a read in flight: the reader stays in use for ever. -/
theorem close_under_read_leaves_counter_one :
    ∃ t, Run Step start [.newReader ⟨0, 8⟩, .register 0, .read 0, .beginIo 0, .closeReader 0,
        .closeOff, .closeDelete, .finish 0 0 100, .endIo 0] t ∧
      t.closing = none ∧ t.calls = [.returned] ∧ t.cells.countP Cell.openInUse = 0 ∧
      (∀ c ∈ t.cells, c.returned = true ∧ c.reader.isClosed = true) ∧ t.activeReaders = 1 := by
  apply exists_run_of_foldlM (f := step)
  decide

end Tiramisu.Torrstor
