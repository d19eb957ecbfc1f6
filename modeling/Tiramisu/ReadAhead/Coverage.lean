import Tiramisu.ReadAhead.Accounting

/-!
# What the read-ahead cache answers

If every `Put` stores the true bytes of its range, every entry of the cache
holds true bytes of the file its key names: keys determine their path, and an
array is never written while an entry owns it.  The three lookups then agree
on which ranges are covered, and the bytes they return are the file's.
-/

namespace Tiramisu.ReadAhead

open Buffers Go Transition List Option

/-- The bytes of a file at `[start, last]`. -/
def fileBytes (file : String → ℤ → UInt8) (p : String) (start last : ℤ) : List UInt8 :=
  (List.range (last - start + 1).toNat).map fun n : ℕ => file p (start + (n : ℤ))

section FileBytes

variable {file : String → ℤ → UInt8} {p : String} {start last off : ℤ}

@[simp] lemma length_fileBytes : (fileBytes file p start last).length = (last - start + 1).toNat := by
  simp [fileBytes]

/-- A part of the bytes of a range. -/
lemma drop_take_fileBytes {stop : ℤ} (hoff : start ≤ off) (hstop : stop ≤ last) :
    ((fileBytes file p start last).drop (off - start).toNat).take (stop + 1 - off).toNat
      = fileBytes file p off stop := by
  refine ext_getElem ?_ fun n h1 h2 => ?_
  · simp
    omega
  · simp only [fileBytes, getElem_take, getElem_drop, getElem_map,
      getElem_range, Nat.cast_add]
    congr 1
    omega

/-- Two ranges that meet. -/
lemma fileBytes_append {mid : ℤ} (h1 : start ≤ mid + 1) (h2 : mid ≤ last) :
    fileBytes file p start mid ++ fileBytes file p (mid + 1) last = fileBytes file p start last := by
  refine ext_getElem ?_ fun n h1 h2 => ?_
  · simp
    omega
  rw [getElem_append]
  split_ifs with hn
  · simp [fileBytes]
  simp only [length_fileBytes, not_lt] at hn
  simp only [fileBytes, getElem_map, getElem_range, length_map,
    length_range]
  congr 1
  omega

end FileBytes

namespace Cache

/-! ### Keys -/

lemma colon_not_mem_toString (n : ℤ) : ':' ∉ (toString n).toList := by
  have hnat : ∀ m : ℕ, ':' ∉ m.repr.toList := by
    intro m hmem
    rw [Nat.toList_repr] at hmem
    exact absurd (Nat.isDigit_of_mem_toDigits (by decide) (by decide) hmem) (by decide)
  rw [Int.toString_eq_repr, Int.repr_eq_if]
  split_ifs
  · exact hnat _
  · rw [String.toList_append, mem_append, not_or]
    exact ⟨by decide, hnat _⟩

/-- A key names one path, whatever colons the path has. -/
lemma keyText_inj {p q : String} {m n : ℤ} (h : keyText p m = keyText q n) : p = q := by
  -- read from the right, the path begins after the first colon
  have hcut : ∀ (p : String) (m : ℤ), (((keyText p m).toList.reverse.dropWhile (· ≠ ':')).drop 1)
      = p.toList.reverse := by
    intro p m
    have hdigits : (toString m).toList.reverse.dropWhile (· ≠ ':') = [] := by
      rw [dropWhile_eq_nil_iff]
      intro c hc
      have hne : c ≠ ':' := by
        rintro rfl
        exact colon_not_mem_toString m (mem_reverse.mp hc)
      simpa using hne
    simp only [keyText, String.toList_append, reverse_append]
    rw [dropWhile_append, hdigits]
    simp
  have hrev : p.toList.reverse = q.toList.reverse := by rw [← hcut p m, h, hcut q n]
  exact String.toList_injective (reverse_injective hrev)

/-! ### True entries -/

section Truth

variable (file : String → ℤ → UInt8) (shardOf : String → Fin 32)

/-- The entry of a key holds the bytes of its range, in the file the key names. -/
structure TrueEntry (h : Heap UInt8) (i : Fin 32) (key : String) (b : RaBuffer) : Prop where
  fits : b.data.len ≤ h.cap b.data.buf
  bytes : ∃ p n, key = keyText p n ∧ shardOf p = i ∧ h.read b.data = fileBytes file p b.start b.last

def Truthful (c : Cache) : Prop :=
  ∀ i key b, (c.shards i).buffers.lookup key = some b → TrueEntry file shardOf c.heap i key b

variable {file shardOf} {c c' c'' : Cache} {i : Fin 32} {key : String} {b : RaBuffer} (cfg : Config)

/-- What evictions and lookups do: entries go, or only their times change. -/
structure Shrinks (c c' : Cache) : Prop where
  heap : c'.heap = c.heap
  entry : ∀ i key b', (c'.shards i).buffers.lookup key = some b' →
    ∃ b, (c.shards i).buffers.lookup key = some b ∧
      b'.start = b.start ∧ b'.last = b.last ∧ b'.data = b.data

lemma Shrinks.refl (c : Cache) : Shrinks c c := ⟨rfl, fun _ _ b hb => ⟨b, hb, rfl, rfl, rfl⟩⟩

lemma Shrinks.trans (h : Shrinks c c') (h' : Shrinks c' c'') : Shrinks c c'' := by
  refine ⟨h'.heap.trans h.heap, fun i key b hb => ?_⟩
  obtain ⟨b1, hb1, hstart1, hlast1, hdata1⟩ := h'.entry i key b hb
  obtain ⟨b2, hb2, hstart2, hlast2, hdata2⟩ := h.entry i key b1 hb1
  exact ⟨b2, hb2, hstart1.trans hstart2, hlast1.trans hlast2, hdata1.trans hdata2⟩

lemma Truthful.shrinks (ht : Truthful file shardOf c) (h : Shrinks c c') :
    Truthful file shardOf c' := by
  intro i key b' hb'
  obtain ⟨b, hb, hstart, hlast, hdata⟩ := h.entry i key b' hb'
  obtain ⟨hfits, hbytes⟩ := ht i key b hb
  rw [← hdata, ← h.heap] at hfits
  rw [← hdata, ← h.heap, ← hstart, ← hlast] at hbytes
  exact ⟨hfits, hbytes⟩

/-- A change of one shard that loses entries or only their times. -/
lemma shrinks_modify {f : RaShard → RaShard} (hs : c'.shards = (c.modifyShard i f).shards)
    (hh : c'.heap = c.heap)
    (hf : ∀ key b', (f (c.shards i)).buffers.lookup key = some b' →
      ∃ b, (c.shards i).buffers.lookup key = some b ∧
        b'.start = b.start ∧ b'.last = b.last ∧ b'.data = b.data) : Shrinks c c' := by
  refine ⟨hh, fun j key b' hb' => ?_⟩
  rw [hs] at hb'
  by_cases hj : j = i
  · subst hj
    rw [shards_modifyShard_self] at hb'
    exact hf key b' hb'
  · rw [shards_modifyShard_ne hj] at hb'
    exact ⟨b', hb', rfl, rfl, rfl⟩

lemma shrinks_discard : Shrinks c (c.discard cfg i key b) :=
  shrinks_modify (discard_shards cfg) (by simp [discard, modifyShard])
    fun _ b' hb' => ⟨b', (Writes.of_erase hb').2, rfl, rfl, rfl⟩

lemma shrinks_order (f : RaShard → List String) :
    Shrinks c (c.modifyShard i fun s => { s with order := f s }) :=
  shrinks_modify rfl rfl fun _ b' hb' => ⟨b', hb', rfl, rfl, rfl⟩

lemma shrinks_touch {now : ℤ} : Shrinks c (c.touch i key now) := by
  unfold touch
  cases hb : (c.shards i).buffers.lookup key with
  | none => exact .refl c
  | some b =>
    refine shrinks_modify rfl rfl fun k b' hb' => ?_
    rcases Writes.of_insert hb' with ⟨rfl, rfl⟩ | ⟨-, hb'⟩
    · exact ⟨b, hb, rfl, rfl, rfl⟩
    · exact ⟨b', hb', rfl, rfl, rfl⟩

lemma shrinks_evictFirst : Shrinks c (c.evictFirst cfg i) := by
  unfold evictFirst
  cases (c.shards i).order with
  | nil => exact .refl c
  | cons key order =>
    dsimp only
    cases (c.shards i).buffers.lookup key with
    | none => exact shrinks_order fun _ => order
    | some old => exact (shrinks_order fun _ => order).trans (shrinks_discard cfg)

lemma shrinks_evictOver (rounds : ℕ) : Shrinks c (c.evictOver cfg i rounds) := by
  induction rounds generalizing c with
  | zero => exact .refl c
  | succ rounds ih =>
    unfold evictOver
    split_ifs
    · exact (shrinks_evictFirst cfg).trans ih
    · exact .refl c

lemma shrinks_compact : Shrinks c (c.compact i) := by
  refine shrinks_modify rfl rfl fun key b' hb' => ⟨b', ?_, rfl, rfl, rfl⟩
  split_ifs at hb' <;> exact hb'

section Sweeps

variable {now activeSessionID : ℤ} {activePath : String}

lemma shrinks_sweep (order : List String) :
    Shrinks c (c.sweep cfg now activePath activeSessionID i order).1 := by
  induction order generalizing c with
  | nil => exact .refl c
  | cons key order ih =>
    unfold sweep
    cases (c.shards i).buffers.lookup key with
    | none => exact ih
    | some b =>
      dsimp only
      split_ifs
      · exact (shrinks_discard cfg).trans ih
      · exact ih

lemma shrinks_evictShard : Shrinks c (c.evictShard cfg now activePath activeSessionID i) :=
  (shrinks_sweep cfg _).trans (shrinks_order fun _ =>
    (c.sweep cfg now activePath activeSessionID i (c.shards i).order).2)

lemma shrinks_triggerGlobalEviction {busy : Fin 32 → Bool} :
    Shrinks c (c.triggerGlobalEviction cfg now activePath activeSessionID busy) := by
  have hfold : ∀ (is : List (Fin 32)) (c : Cache),
      Shrinks c (is.foldl (fun c i => c.evictShard cfg now activePath activeSessionID i) c) := by
    intro is
    induction is with
    | nil => exact .refl
    | cons i is ih => exact fun c => (shrinks_evictShard cfg).trans (ih _)
  unfold triggerGlobalEviction
  split_ifs
  · exact shrinks_evictShard cfg
  · exact hfold _ _

end Sweeps

/-! ### Entering a chunk -/

/-- A buffer is taken without touching what the others hold. -/
lemma takeBuffer_heap (size : ℕ) :
    (∀ buf, buf < c.heap.arrays.length → (c.takeBuffer cfg size).2.heap.array buf = c.heap.array buf) ∧
      size ≤ (c.takeBuffer cfg size).2.heap.cap (c.takeBuffer cfg size).1.buf := by
  have halloc : ∀ c1 : Cache, c1.heap = c.heap →
      (∀ buf, buf < c.heap.arrays.length →
        (c1.allocChunk cfg size).2.heap.array buf = c.heap.array buf) ∧
      size ≤ (c1.allocChunk cfg size).2.heap.cap (c1.allocChunk cfg size).1.buf := by
    intro c1 hc1
    refine ⟨fun buf hbuf => ?_, ?_⟩
    · rw [← hc1] at hbuf ⊢
      exact Heap.array_alloc_of_lt hbuf
    · have hnew : (c1.allocChunk cfg size).2.heap.array (c1.allocChunk cfg size).1.buf
          = List.replicate (max size cfg.base.toNat) 0 := Heap.array_alloc_self
      rw [Heap.cap, hnew, length_replicate]
      exact le_max_left _ _
  unfold takeBuffer
  split
  · split_ifs with hcap
    · exact ⟨fun _ _ => rfl, hcap⟩
    · exact halloc _ rfl
  · exact halloc _ rfl

/-- The data is copied into an array that no entry reads. -/
lemma dataCopy_heap (h : Owned c) (d : List UInt8) :
    (∀ x buf, c.owner x = some buf → (c.dataCopy cfg d).2.heap.array buf = c.heap.array buf) ∧
      d.length ≤ (c.dataCopy cfg d).2.heap.cap (c.dataCopy cfg d).1.buf ∧
      (c.dataCopy cfg d).2.heap.read (c.dataCopy cfg d).1 = d := by
  obtain ⟨hold, htaken⟩ := takeBuffer_heap cfg (c := c) d.length
  have hcap : d.length ≤ (c.takeBuffer cfg d.length).2.heap.cap (c.dataCopy cfg d).1.buf := htaken
  have hloose := (dataCopy_spec cfg h d).2
  have hlen := dataCopy_len cfg (c := c) d
  have hbound : (c.dataCopy cfg d).1.buf < (c.takeBuffer cfg d.length).2.heap.arrays.length :=
    (takeBuffer_spec cfg h d.length).2.bound
  have hheap : (c.dataCopy cfg d).2.heap
      = (c.takeBuffer cfg d.length).2.heap.store (c.dataCopy cfg d).1.buf d := rfl
  have hown : (c.dataCopy cfg d).2.owner = c.owner := by
    funext x
    rw [owner, owner, (dataCopy_shards cfg d).1]
  refine ⟨fun x buf hx => ?_, ?_, ?_⟩
  · have hne : buf ≠ (c.dataCopy cfg d).1.buf := by
      rintro rfl
      exact hloose.unowned x (hown ▸ hx)
    rw [hheap, Heap.array_store_ne hne, hold buf (h.bound hx)]
  · rw [hheap, Heap.cap_store hcap]
    exact hcap
  · have hslice : (c.dataCopy cfg d).1 = ⟨(c.dataCopy cfg d).1.buf, d.length⟩ := by rw [← hlen]
    rw [hheap, hslice]
    exact Heap.read_store_self hbound

section Put

variable {now : ℤ} {p : String} {start last : ℤ} {d : List UInt8}

lemma TrueEntry.congr {h h' : Heap UInt8} (ht : TrueEntry file shardOf h i key b)
    (harray : h'.array b.data.buf = h.array b.data.buf) : TrueEntry file shardOf h' i key b := by
  refine ⟨?_, ?_⟩
  · rw [Heap.cap, harray]
    exact ht.fits
  · rw [Heap.read, harray]
    exact ht.bytes

lemma heap_overwrite :
    ((c.accountOverwrite cfg i key).addChunk i key b).heap = c.heap := by
  unfold accountOverwrite
  cases (c.shards i).buffers.lookup key <;> simp [addChunk, modifyShard]

lemma Truthful.enterChunk (ht : Truthful file shardOf c) (h : Books c)
    (hd : d = fileBytes file p start last) :
    Truthful file shardOf (c.enterChunk cfg shardOf now p start last d) := by
  obtain ⟨hold, hcap, hread⟩ := dataCopy_heap cfg h.owned d
  have hshards := (dataCopy_shards cfg (c := c) d).1
  have hord : ((c.dataCopy cfg d).2.shards (shardOf p)).Ordered := by
    rw [hshards]
    exact h.ordered (shardOf p)
  have hkept : ∀ j k b, (c.shards j).buffers.lookup k = some b →
      TrueEntry file shardOf (c.dataCopy cfg d).2.heap j k b := fun j k b hb =>
    (ht j k b hb).congr (hold (j, k) _ (owner_eq_some.mpr ⟨b, hb, rfl⟩))
  intro j k b hb
  unfold Cache.enterChunk at hb ⊢
  rw [heap_overwrite]
  rw [overwrite_shards cfg hord] at hb
  by_cases hj : j = shardOf p
  · subst hj
    rw [shards_modifyShard_self] at hb
    rcases Writes.of_insert hb with ⟨rfl, rfl⟩ | ⟨-, hb⟩
    · refine ⟨?_, p, _, rfl, rfl, hread.trans hd⟩
      rw [dataCopy_len]
      exact hcap
    · rw [hshards] at hb
      exact hkept _ k b hb
  · rw [shards_modifyShard_ne hj, hshards] at hb
    exact hkept j k b hb

theorem Truthful.put (ht : Truthful file shardOf c) (h : Books c)
    (hd : d = fileBytes file p start last) :
    Truthful file shardOf (c.put cfg shardOf now p start last d) :=
  ((ht.enterChunk cfg h hd).shrinks (shrinks_evictOver cfg _)).shrinks shrinks_compact

end Put

end Truth

/-! ### The three lookups -/

section Lookups

variable {file : String → ℤ → UInt8} {shardOf : String → Fin 32} {c : Cache} (cfg : Config)
  {p : String} {off last : ℤ}

/-- One chunk holds the range, or the chunk of its start and the next one do. -/
inductive Found (c : Cache) (shardOf : String → Fin 32) (p : String) (off last : ℤ) : Prop
  | one (b : RaBuffer) (h : (c.shards (shardOf p)).buffers.lookup (c.chunkKey cfg p off) = some b)
      (hoff : b.start ≤ off ∧ off ≤ b.last) (hlast : last ≤ b.last)
  | two (b b₂ : RaBuffer)
      (h : (c.shards (shardOf p)).buffers.lookup (c.chunkKey cfg p off) = some b)
      (h₂ : (c.shards (shardOf p)).buffers.lookup (c.chunkKey cfg p last) = some b₂)
      (hoff : b.start ≤ off ∧ off ≤ b.last) (hlast : ¬ last ≤ b.last)
      (hnext : b₂.start = b.last + 1 ∧ last ≤ b₂.last)

/-- The length of a true entry is that of its range. -/
lemma Truthful.len (ht : Truthful file shardOf c) {i : Fin 32} {key : String} {b : RaBuffer}
    (h : (c.shards i).buffers.lookup key = some b) :
    b.data.len = (b.last - b.start + 1).toNat := by
  obtain ⟨hfits, q, m, -, -, hread⟩ := ht _ _ _ h
  rw [← Heap.length_read hfits, hread, length_fileBytes]

/-- A chunk's window shows the bytes of the file. -/
lemma Truthful.window (ht : Truthful file shardOf c) {b : RaBuffer} {stop n : ℤ}
    (h : (c.shards (shardOf p)).buffers.lookup (keyText p n) = some b)
    (hoff : b.start ≤ off) (hle : off ≤ stop + 1) (hstop : stop ≤ b.last) :
    c.heap.window b.data (off - b.start) (stop - b.start + 1) = some (fileBytes file p off stop) := by
  have hlen := ht.len h
  obtain ⟨hfits, q, m, hkey, -, hread⟩ := ht _ _ _ h
  obtain rfl := keyText_inj hkey
  rw [Heap.window_eq_some (by omega) (by omega) (by omega) hfits, hread,
    ← drop_take_fileBytes hoff hstop]
  congr 3
  omega

/-- The rest of a chunk, from an offset in it. -/
lemma Truthful.window_rest (ht : Truthful file shardOf c) {b : RaBuffer} {n : ℤ}
    (h : (c.shards (shardOf p)).buffers.lookup (keyText p n) = some b)
    (hoff : b.start ≤ off ∧ off ≤ b.last) :
    c.heap.window b.data (off - b.start) b.data.len = some (fileBytes file p off b.last) := by
  have hlen : (b.data.len : ℤ) = b.last - b.start + 1 := by
    have := ht.len h
    omega
  rw [hlen]
  exact ht.window h hoff.1 (by omega) le_rfl

/-- The first bytes of a chunk. -/
lemma Truthful.window_first (ht : Truthful file shardOf c) {b : RaBuffer} {n : ℤ}
    (h : (c.shards (shardOf p)).buffers.lookup (keyText p n) = some b)
    (hle : b.start ≤ last) (hlast : last ≤ b.last) :
    c.heap.window b.data 0 (last - b.start + 1) = some (fileBytes file p b.start last) := by
  rw [← ht.window h le_rfl (by omega) hlast, sub_self]

lemma covered_iff {now : ℤ} :
    (c.covered cfg shardOf now p off last).1 = true ↔ Found cfg c shardOf p off last := by
  unfold covered
  dsimp only
  constructor
  · intro h
    cases hb : (c.shards (shardOf p)).buffers.lookup (c.chunkKey cfg p off) with
    | none => simp [hb] at h
    | some b =>
      rw [hb] at h
      dsimp only at h
      split_ifs at h with hoff hlast
      · exact .one b hb hoff hlast
      cases hb2 : (c.shards (shardOf p)).buffers.lookup (c.chunkKey cfg p last) with
      | none => simp [hb2] at h
      | some b2 =>
        rw [hb2] at h
        dsimp only at h
        split_ifs at h with hnext
        exact .two b b2 hb hb2 hoff hlast hnext
  · rintro (⟨b, hb, hoff, hlast⟩ | ⟨b, b2, hb, hb2, hoff, hlast, hnext⟩)
    · rw [hb]
      simp only [if_pos hoff, if_pos hlast]
    · rw [hb]
      simp only [if_pos hoff, if_neg hlast, hb2, if_pos hnext]

/-! ### Copying -/

section Copying

lemma goCopy_of_length_eq {dst src : List UInt8} (h : dst.length = src.length) :
    (goCopy dst src).2 = src := by
  simp [goCopy, h]

/-- Two copies in a row are one copy of both sources. -/
lemma goCopy_append (dst src src2 : List UInt8) :
    ((goCopy dst src).1 + (goCopy ((goCopy dst src).2.drop (goCopy dst src).1) src2).1,
      (goCopy dst src).2.take (goCopy dst src).1
        ++ (goCopy ((goCopy dst src).2.drop (goCopy dst src).1) src2).2)
      = goCopy dst (src ++ src2) := by
  have hhead : (src.take (min dst.length src.length)).length = min dst.length src.length := by
    rw [length_take]
    omega
  have hdrop : (goCopy dst src).2.drop (goCopy dst src).1 = dst.drop (min dst.length src.length) := by
    exact drop_left' hhead
  have htake : (goCopy dst src).2.take (goCopy dst src).1 = src.take (min dst.length src.length) := by
    simp only [goCopy]
    exact take_left' hhead
  rw [hdrop, htake]
  rcases Nat.le_total dst.length src.length with hle | hle
  · simp [goCopy, Nat.min_eq_left hle, take_append_of_le_length hle,
      Nat.min_eq_left (Nat.le_add_right_of_le hle)]
  have hsum : src.length + min (dst.length - src.length) src2.length
      = min dst.length (src.length + src2.length) := by omega
  have hmin : min dst.length (src.length + src2.length) - src.length
      = min (dst.length - src.length) src2.length := by omega
  simp only [goCopy, Nat.min_eq_right hle, length_drop, length_append, take_length,
    drop_drop, hsum, take_append, append_assoc, hmin]
  rw [take_of_length_le (l := src) (by omega)]

end Copying

/-! ### What `Get` and `CopyTo` answer -/

section Answers

variable (now : ℤ) (dest : List UInt8)

section Shared

variable {β : Type} {miss : β} {one : List UInt8 → β} {two : List UInt8 → List UInt8 → β}

lemma lookUp_of_found (ht : Truthful file shardOf c) (hle : off ≤ last + 1)
    (h : Found cfg c shardOf p off last) {answer : β}
    (hone : one (fileBytes file p off last) = answer)
    (htwo : ∀ src src2, src ++ src2 = fileBytes file p off last → two src src2 = answer) :
    (c.lookUp cfg shardOf miss one two now p off last).map Prod.fst = some answer := by
  unfold lookUp
  dsimp only
  rcases h with ⟨b, hb, hoff, hlast⟩ | ⟨b, b2, hb, hb2, hoff, hlast, hnext⟩
  · have hwin := ht.window hb hoff.1 hle hlast
    rw [hb]
    simp only [if_pos hoff, if_pos hlast, hwin, map_some, hone]
  · have hwin := ht.window_rest hb hoff
    have hwin2 := ht.window_first hb2 (by omega) hnext.2
    have hwhole : fileBytes file p off b.last ++ fileBytes file p b2.start last
        = fileBytes file p off last := by
      rw [hnext.1]
      exact fileBytes_append (by omega) (by omega)
    rw [hb]
    simp only [if_pos hoff, if_neg hlast, hb2, if_pos hnext, hwin, hwin2, bind_some, map_some,
      htwo _ _ hwhole]

/-- Without its chunks a range is a miss. -/
lemma miss_of_not_found (h : ¬ Found cfg c shardOf p off last) :
    (c.lookUp cfg shardOf miss one two now p off last).map Prod.fst = some miss := by
  unfold lookUp
  dsimp only
  cases hb : (c.shards (shardOf p)).buffers.lookup (c.chunkKey cfg p off) with
  | none => rfl
  | some b =>
    dsimp only
    split_ifs with hoff hlast
    · exact absurd (.one b hb hoff hlast) h
    · cases hb2 : (c.shards (shardOf p)).buffers.lookup (c.chunkKey cfg p last) with
      | none => rfl
      | some b2 =>
        dsimp only
        split_ifs with hnext
        · exact absurd (.two b b2 hb hb2 hoff hlast hnext) h
        · rfl
    · rfl

/-- A range that ends before it starts is found in no chunk, or the call fails. -/
lemma backwards_of_found (hlt : last + 1 < off) (h : Found cfg c shardOf p off last) :
    c.lookUp cfg shardOf miss one two now p off last = none := by
  rcases h with ⟨b, hb, hoff, hlast⟩ | ⟨b, b2, hb, hb2, hoff, hlast, hnext⟩
  · have hwin : c.heap.window b.data (off - b.start) (last - b.start + 1) = none :=
      if_neg fun hwin => by omega
    unfold lookUp
    simp only [hb, if_pos hoff, if_pos hlast, hwin, map_none]
  · omega

end Shared

section

variable (ht : Truthful file shardOf c)

include ht

lemma get_of_found (hle : off ≤ last + 1) (h : Found cfg c shardOf p off last) :
    (c.get cfg shardOf now p off last).map Prod.fst = some (some (fileBytes file p off last)) := by
  refine lookUp_of_found cfg now ht hle h ?_ fun src src2 hwhole => ?_
  · rw [goCopy_of_length_eq (by simp)]
  · have hcopy := congrArg Prod.snd (goCopy_append (List.replicate (last - off + 1).toNat 0) src src2)
    have hfull : (goCopy (List.replicate (last - off + 1).toNat 0) (src ++ src2)).2 = src ++ src2 :=
      goCopy_of_length_eq (by simp [hwhole, -length_append])
    rw [← hwhole]
    exact congrArg some (hcopy.trans hfull)

lemma copyTo_of_found (hle : off ≤ last + 1) (h : Found cfg c shardOf p off last) :
    (c.copyTo cfg shardOf now p off last dest).map Prod.fst
      = some (goCopy dest (fileBytes file p off last)) := by
  refine lookUp_of_found cfg now ht hle h rfl fun src src2 hwhole => ?_
  rw [← hwhole, ← goCopy_append]

/-- Whatever data `Get` returns, it is the file's. -/
lemma Truthful.get_eq {data : List UInt8} {c' : Cache}
    (hget : c.get cfg shardOf now p off last = some (some data, c')) :
    data = fileBytes file p off last := by
  by_cases hf : Found cfg c shardOf p off last
  · rcases le_or_gt off (last + 1) with hle | hlt
    · have hfound := get_of_found cfg now ht hle hf
      rw [hget] at hfound
      simpa using hfound
    · cases (backwards_of_found cfg now hlt hf).symm.trans hget
  · have hmiss : (c.get cfg shardOf now p off last).map Prod.fst = some none :=
      miss_of_not_found cfg now hf
    rw [hget] at hmiss
    cases hmiss

/-- Whatever `CopyTo` copies is a start of the range's bytes. -/
lemma Truthful.copyTo_eq {n : ℕ} {dest' : List UInt8} {c' : Cache}
    (hcopy : c.copyTo cfg shardOf now p off last dest = some ((n, dest'), c')) :
    n ≤ dest.length ∧ n ≤ (fileBytes file p off last).length ∧
      dest' = (fileBytes file p off last).take n ++ dest.drop n := by
  by_cases hf : Found cfg c shardOf p off last
  · rcases le_or_gt off (last + 1) with hle | hlt
    · have hfound := copyTo_of_found cfg now dest ht hle hf
      rw [hcopy] at hfound
      cases hfound
      exact ⟨min_le_left _ _, min_le_right _ _, rfl⟩
    · cases (backwards_of_found cfg now hlt hf).symm.trans hcopy
  · have hmiss : (c.copyTo cfg shardOf now p off last dest).map Prod.fst = some (0, dest) :=
      miss_of_not_found cfg now hf
    rw [hcopy] at hmiss
    cases hmiss
    exact ⟨Nat.zero_le _, Nat.zero_le _, by simp⟩

/-- On a range that is not empty the lookups agree. -/
lemma Truthful.agree (hle : off ≤ last) (hdest : last - off + 1 ≤ dest.length) :
    ∃ r n dest' c1 c2, c.get cfg shardOf now p off last = some (r, c1) ∧
      c.copyTo cfg shardOf now p off last dest = some ((n, dest'), c2) ∧
      (r ≠ none ↔ Found cfg c shardOf p off last) ∧
      ((n : ℤ) = last - off + 1 ↔ Found cfg c shardOf p off last) := by
  by_cases hf : Found cfg c shardOf p off last
  · obtain ⟨⟨r, c1⟩, hget, hr⟩ := map_eq_some_iff.mp
      (get_of_found cfg now ht (by omega) hf)
    obtain ⟨⟨⟨n, dest'⟩, c2⟩, hcopy, hn⟩ := map_eq_some_iff.mp
      (copyTo_of_found cfg now dest ht (by omega) hf)
    obtain rfl : r = some _ := hr
    refine ⟨_, n, dest', c1, c2, hget, hcopy, by simpa using hf, iff_of_true ?_ hf⟩
    have hcount : n = min dest.length (last - off + 1).toNat := by
      rw [← length_fileBytes (p := p)]
      exact congrArg Prod.fst hn
    omega
  · obtain ⟨⟨_, c1⟩, hget, rfl⟩ := map_eq_some_iff.mp (miss_of_not_found cfg now hf)
    obtain ⟨⟨_, c2⟩, hcopy, rfl⟩ := map_eq_some_iff.mp (miss_of_not_found cfg now hf)
    exact ⟨none, 0, _, c1, c2, hget, hcopy, by simpa using hf, iff_of_false (by omega) hf⟩

end

end Answers

end Lookups

/-! ### Every run -/

section Runs

variable {file : String → ℤ → UInt8} {shardOf : String → Fin 32} {c c' : Cache} {l : Call}

/-- What a `Put` stores is what the file has there. -/
def PutsTrue (file : String → ℤ → UInt8) (_ : Cache) (l : Call) : Prop :=
  match l.op with
  | .put p start last d => d = fileBytes file p start last
  | _ => True

instance (c : Cache) (l : Call) : Decidable (PutsTrue file c l) := by
  unfold PutsTrue
  split <;> infer_instance

lemma Truthful.step (ht : Truthful file shardOf c) (h : Books c) (hput : PutsTrue file c l)
    (hstep : Step shardOf c l c') : Truthful file shardOf c' := by
  obtain ⟨cfg, now, op⟩ := l
  cases op with
  | put p start last d =>
    cases hstep
    exact ht.put cfg h hput
  | setPieceLen p pl =>
    cases hstep
    unfold setPieceLen
    dsimp only
    split_ifs <;> exact ht
  | switchContext newPath =>
    cases hstep
    unfold switchContext
    split_ifs <;> exact ht
  | triggerGlobalEviction activePath activeSessionID busy =>
    cases hstep
    exact ht.shrinks (shrinks_triggerGlobalEviction cfg)
  | anchorPoolToConfig =>
    cases hstep
    unfold anchorPoolToConfig
    dsimp only
    split <;> exact ht
  | covered p off last =>
    cases hstep
    exact covered_preserves cfg (fun _ _ _ _ hc => hc.shrinks shrinks_touch) ht
  | get p off last =>
    obtain ⟨⟨r, c1⟩, hget, rfl⟩ := map_eq_some_iff.mp hstep
    exact lookUp_preserves cfg (fun _ _ _ _ hc => hc.shrinks shrinks_touch) ht hget
  | copyTo p off last dest =>
    obtain ⟨⟨r, c1⟩, hcopy, rfl⟩ := map_eq_some_iff.mp hstep
    exact lookUp_preserves cfg (fun _ _ _ _ hc => hc.shrinks shrinks_touch) ht hcopy

lemma truthful_of_run {ls : List Call}
    (hrun : Run (Guarded (PutsTrue file) (Step shardOf)) newReadAheadCache ls c) :
    Truthful file shardOf c := by
  have hempty : Truthful file shardOf newReadAheadCache := fun i key b hb => by
    simp [newReadAheadCache] at hb
  exact (hrun.invariant (I := fun c => Books c ∧ Truthful file shardOf c)
    (fun _ _ _ hc hstep => ⟨hc.1.step hstep.2, hc.2.step hc.1 hstep.1 hstep.2⟩)
    ⟨books_newReadAheadCache, hempty⟩).2

/-- After every run whose `Put`s store the files' own bytes, whatever `Get`
returns and `CopyTo` copies are the bytes of the requested file and range, and
on ranges that are not empty the three lookups agree and none of them fails. -/
theorem lookups_answer_with_file_bytes {ls : List Call}
    (hrun : Run (Guarded (PutsTrue file) (Step shardOf)) newReadAheadCache ls c) (cfg : Config)
    (now : ℤ) (p : String) (off last : ℤ) :
    (∀ data c', c.get cfg shardOf now p off last = some (some data, c') →
      data = fileBytes file p off last) ∧
    (∀ dest n dest' c', c.copyTo cfg shardOf now p off last dest = some ((n, dest'), c') →
      n ≤ dest.length ∧ (n : ℤ) ≤ max 0 (last - off + 1) ∧
      dest' = (fileBytes file p off last).take n ++ dest.drop n) ∧
    (off ≤ last → ∀ dest : List UInt8, last - off + 1 ≤ dest.length →
      (c.get cfg shardOf now p off last).isSome ∧
      (c.copyTo cfg shardOf now p off last dest).isSome ∧
      ((c.covered cfg shardOf now p off last).1 = true ↔
        ∃ data c', c.get cfg shardOf now p off last = some (some data, c')) ∧
      ((c.covered cfg shardOf now p off last).1 = true ↔
        ∃ n dest' c', c.copyTo cfg shardOf now p off last dest = some ((n, dest'), c') ∧
          (n : ℤ) = last - off + 1)) := by
  have ht := truthful_of_run hrun
  refine ⟨fun data c' hget => ht.get_eq cfg now hget, fun dest n dest' c' hcopy => ?_,
    fun hle dest hdest => ?_⟩
  · obtain ⟨hdest, hn, heq⟩ := ht.copyTo_eq cfg now dest hcopy
    rw [length_fileBytes] at hn
    exact ⟨hdest, by omega, heq⟩
  obtain ⟨r, n, dest', c₁, c₂, hget, hcopy, hr, hn⟩ := ht.agree cfg now dest hle hdest (p := p)
  rw [hget, hcopy, covered_iff]
  refine ⟨rfl, rfl, ?_, ?_⟩
  · rw [← hr, ne_none_iff_exists']
    simp
  · rw [← hn]
    simp

/-- Two chunks of a file of consecutive bytes, under a piece length that changes. -/
def countingRun : List Call :=
  [⟨⟨4, 64⟩, 0, .put "/tv/a.mkv" 0 3 [0, 1, 2, 3]⟩, ⟨⟨4, 64⟩, 1, .put "/tv/a.mkv" 4 7 [4, 5, 6, 7]⟩,
   ⟨⟨4, 64⟩, 2, .setPieceLen "/tv/b:0.mkv" 3⟩, ⟨⟨4, 64⟩, 3, .put "/tv/b:0.mkv" 0 2 [0, 1, 2]⟩]

def countingFile (_ : String) (n : ℤ) : UInt8 := UInt8.ofNat n.toNat

def countingStep (c : Cache) (l : Call) : Option Cache :=
  if PutsTrue countingFile c l then step (fun _ => 0) c l else none

theorem lookups_answer_with_counting_bytes :
    ∃ c, countingRun.foldlM countingStep newReadAheadCache = some c ∧
      (c.get ⟨4, 64⟩ (fun _ => 0) 4 "/tv/a.mkv" 2 5).map Prod.fst
        = some (some (fileBytes countingFile "/tv/a.mkv" 2 5)) ∧
      (c.covered ⟨4, 64⟩ (fun _ => 0) 4 "/tv/a.mkv" 2 5).1 = true := by
  obtain ⟨c, hc, hcovered⟩ : ∃ c ∈ countingRun.foldlM countingStep newReadAheadCache,
      (c.covered ⟨4, 64⟩ (fun _ => 0) 4 "/tv/a.mkv" 2 5).1 = true := by decide +kernel
  have hrun : Run (Guarded (PutsTrue countingFile) (Step fun _ => 0)) newReadAheadCache countingRun c :=
    (run_of_foldlM hc).mono fun c l c' h => by
      unfold countingStep at h
      split_ifs at h with hput
      exact ⟨hput, h⟩
  obtain ⟨hget, -, hagree⟩ := lookups_answer_with_file_bytes hrun ⟨4, 64⟩ 4 "/tv/a.mkv" 2 5
  obtain ⟨-, -, hiff, -⟩ := hagree (by decide) [0, 0, 0, 0] (by decide)
  obtain ⟨data, c', hdata⟩ := hiff.mp hcovered
  refine ⟨c, hc, ?_, hcovered⟩
  rw [hdata, ← hget data c' hdata, map_some]

end Runs

end Cache

end Tiramisu.ReadAhead
