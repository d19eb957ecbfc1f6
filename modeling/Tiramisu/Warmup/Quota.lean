import Tiramisu.Warmup.Tails

/-!
# The account of the bytes on disk

`totalSize` is meant to be the number of bytes in the cache directory.  Head
writes add to it, `RemoveHash`, the reaper and evictions subtract from it, but
tail writes do not add what `RemoveHash` later subtracts, a corrupt file is
removed without being subtracted, and a system call that fails half way leaves
bytes that were not counted.  Without those the account is exact, and a new
head file is only started when it fits the quota or nothing is left to evict.
-/

namespace Tiramisu.Warmup

open Protocol Extents Transition Go List AList Program

variable {cfg : Config} {w u v : World} {path : String}
variable {e : SizeEntry}

/-! ### Bytes on disk -/

/-- The files of the cache directory. -/
def World.files (w : World) : Finset String := w.names.keys.toFinset

/-- The bytes of the files in the cache directory. -/
def World.diskBytes (w : World) : ℤ := ∑ p ∈ w.files, w.sizeAt p

lemma mem_files : path ∈ w.files ↔ path ∈ w.names := by
  rw [World.files, mem_toFinset, ← AList.mem_keys]

lemma sizeAt_of_not_mem (h : path ∉ w.names) : w.sizeAt path = 0 :=
  sizeAt_of_not_named (lookup_eq_none.mpr h)

lemma SameFiles.diskBytes (h : SameFiles w u) : u.diskBytes = w.diskBytes := by
  have hfiles : u.files = w.files := by rw [World.files, World.files, h.names]
  rw [World.diskBytes, World.diskBytes, hfiles]
  exact Finset.sum_congr rfl fun p _ => h.sizeAt p

lemma diskBytes_erase (hn : u.names = w.names.erase path) (hi : u.inodes = w.inodes) :
    u.diskBytes = w.diskBytes - w.sizeAt path := by
  have hfiles : u.files = w.files.erase path := by
    ext p
    rw [Finset.mem_erase, mem_files, mem_files, hn, mem_erase]
  have hsum : u.diskBytes = ∑ p ∈ w.files.erase path, w.sizeAt p := by
    rw [World.diskBytes, hfiles]
    apply Finset.sum_congr rfl
    intro p hp
    exact sizeAt_erase hn hi (Finset.ne_of_mem_erase hp)
  by_cases hmem : path ∈ w.files
  · have hadd := Finset.add_sum_erase w.files w.sizeAt hmem
    rw [hsum, World.diskBytes]
    omega
  · rw [hsum, Finset.erase_eq_of_notMem hmem, sizeAt_of_not_mem (mem_files.not.mp hmem), sub_zero]
    rfl

/-- One file changes its size. -/
lemma diskBytes_of_one (hmem : path ∈ w.names) (hn : u.names = w.names)
    (hother : ∀ p, p ≠ path → u.sizeAt p = w.sizeAt p) :
    u.diskBytes = w.diskBytes + (u.sizeAt path - w.sizeAt path) := by
  have hfiles : u.files = w.files := by rw [World.files, World.files, hn]
  have hrest : ∑ p ∈ w.files.erase path, u.sizeAt p = ∑ p ∈ w.files.erase path, w.sizeAt p :=
    Finset.sum_congr rfl fun p hp => hother p (Finset.ne_of_mem_erase hp)
  have hw := Finset.add_sum_erase w.files w.sizeAt (mem_files.mpr hmem)
  have hu := Finset.add_sum_erase w.files u.sizeAt (mem_files.mpr hmem)
  rw [World.diskBytes, World.diskBytes, hfiles]
  omega

/-- A new file is empty. -/
lemma diskBytes_create (hw : Numbered w) (hn : w.names.lookup path = none) (now : ℤ) :
    (w.create path now).2.diskBytes = w.diskBytes := by
  have hfiles : (w.create path now).2.files = insert path w.files := by
    ext p
    rw [create_eq hn]
    simp only [World.newHandle, Finset.mem_insert, mem_files, mem_insert]
  have hnot : path ∉ w.files := mem_files.not.mpr (lookup_eq_none.mp hn)
  rw [World.diskBytes, hfiles, Finset.sum_insert hnot, hw.sizeAt_create hn, sizeAt_of_not_named hn,
    zero_add]
  exact Finset.sum_congr rfl fun p _ => hw.sizeAt_create hn now p

/-! ### An account without disturbances -/

/-- No tail is written, and no chunk is long enough to make a head look corrupt. -/
def Call.Accounted : Call → Prop
  | .writeTail _ _ _ _ _ => False
  | .processWrite _ _ data _ => data.length ≤ 16 * 1024 * 1024
  | _ => True

instance (call : Call) : Decidable call.Accounted := by
  unfold Call.Accounted
  split <;> infer_instance

/-- No system call fails, and a listing names every file once. -/
def Undisturbed (cfg : Config) : Op → Choice → World → Prop
  | .readDir, c, w => c.listing.Nodup ∧ ∀ p ∈ w.names.keys, p ∈ c.listing.map cfg.join
  | _, c, _ => c.fails = false

instance (o : Op) (c : Choice) (w : World) : Decidable (Undisturbed cfg o c w) := by
  unfold Undisturbed
  split <;> infer_instance

/-- Cached sizes are exact, all files are warmup files, and none looks corrupt. -/
structure Filed (cfg : Config) (w : World) : Prop where
  sizes : ∀ {path e}, w.sizeCache.lookup path = some e → e.size = w.sizeAt path
  warm : ∀ {path}, path ∈ w.names → ∃ name, path = cfg.join name ∧ isWarmupName name = true
  small : ∀ path, w.sizeAt path ≤ max 0 (cfg.fileSize + 16 * 1024 * 1024)

structure Balanced (cfg : Config) (w : World) : Prop extends Filed cfg w where
  total : w.totalSize = w.diskBytes

/-- Files, cached sizes and the account are untouched. -/
structure SameBooks (w u : World) : Prop where
  files : SameFiles w u
  sizes : u.sizeCache = w.sizeCache
  total : u.totalSize = w.totalSize

lemma SameBooks.refl (w : World) : SameBooks w w := ⟨⟨rfl, rfl⟩, rfl, rfl⟩

lemma SameBooks.trans (h : SameBooks w u) (h' : SameBooks u v) : SameBooks w v :=
  ⟨h.files.trans h'.files, h'.sizes.trans h.sizes, h'.total.trans h.total⟩

namespace Filed

lemma sameFiles (h : Filed cfg w) (hf : SameFiles w u)
    (hs : ∀ p e, u.sizeCache.lookup p = some e → e.size = w.sizeAt p) : Filed cfg u where
  sizes he := (hs _ _ he).trans (hf.sizeAt _).symm
  warm hp := h.warm (hf.names ▸ hp)
  small p := (hf.sizeAt p).le.trans (h.small p)

lemma same (h : Filed cfg w) (hf : SameFiles w u) (hs : u.sizeCache = w.sizeCache) : Filed cfg u :=
  h.sameFiles hf fun _ _ he => h.sizes (hs ▸ he)

lemma storeSize (h : Filed cfg w) (he : e.size = w.sizeAt path) :
    Filed cfg { w with sizeCache := w.sizeCache.insert path e } := by
  refine h.sameFiles ⟨rfl, rfl⟩ fun p e' he' => ?_
  rcases Writes.of_insert he' with ⟨rfl, rfl⟩ | ⟨-, he'⟩
  · exact he
  · exact h.sizes he'

/-- A file goes together with its cached size. -/
lemma drop (h : Filed cfg w) (hn : u.names = w.names.erase path) (hi : u.inodes = w.inodes)
    (hs : u.sizeCache = w.sizeCache.erase path) : Filed cfg u where
  sizes {p e} he := by
    rw [hs] at he
    obtain ⟨hp, he⟩ := Writes.of_erase he
    rw [sizeAt_erase hn hi hp]
    exact h.sizes he
  warm hp := by
    rw [hn, mem_erase] at hp
    exact h.warm hp.2
  small p := by
    by_cases hp : p = path
    · subst hp
      rw [sizeAt_of_not_named (w := u) (by rw [hn]; exact lookup_erase _ _)]
      exact le_max_left _ _
    · rw [sizeAt_erase hn hi hp]
      exact h.small p

end Filed

lemma Balanced.same (h : Balanced cfg w) (hb : SameBooks w u) : Balanced cfg u :=
  ⟨h.toFiled.same hb.files hb.sizes, by rw [hb.total, hb.files.diskBytes, h.total]⟩

lemma Balanced.storeSize (h : Balanced cfg w) (he : e.size = w.sizeAt path) :
    Balanced cfg { w with sizeCache := w.sizeCache.insert path e } :=
  ⟨h.toFiled.storeSize he, h.total⟩

/-! ### Rules -/

/-- If a file comes into being, a whole head fits the quota beside what is on disk, or
there was nothing to evict. -/
def Fits (cfg : Config) (w u : World) : Prop :=
  ∀ path, path ∉ w.names → path ∈ u.names →
    w.diskBytes + cfg.fileSize ≤ cfg.quota ∨ w.names = ∅

lemma fits_of_subset (h : ∀ p, p ∈ u.names → p ∈ w.names) : Fits cfg w u :=
  fun p hp hp' => absurd (h p hp') hp

/-- A call that runs alone and undisturbed starts files only when they fit. -/
abbrev QuotaSpec (cfg : Config) {α : Type} (p : Prog α) (w : World) (Q : α → World → Prop) : Prop :=
  wp (machine cfg) (.solo (fun _ => True) (fun o c w => Sound cfg w ∧ Undisturbed cfg o c w)
    (Fits cfg)) Q p w

/-- Operations that change neither files nor cached sizes nor the account. -/
def Op.Still : Op → Prop
  | .storeSize _ _ | .deleteSize _ | .storeTotal _ | .addTotal _ | .createFile _ | .writeAt _ _ _ _
  | .remove _ | .restart => False
  | _ => True

lemma sameBooks_of_still {o : Op} {c : Choice} {r : o.Res} (ho : o.Still)
    (hex : exec cfg o c w = some (r, u)) : SameBooks w u := by
  cases o with
  | loadOrStoreHandle path h | loadOrStoreTail path | openFile path =>
    dsimp only [exec] at hex
    split at hex <;> cases hex <;> exact ⟨⟨rfl, rfl⟩, rfl, rfl⟩
  | lock =>
    dsimp only [exec] at hex
    split_ifs at hex
    cases hex
    exact ⟨⟨rfl, rfl⟩, rfl, rfl⟩
  | storeSize | deleteSize | storeTotal | addTotal | createFile | writeAt | remove | restart =>
    exact absurd ho id
  | _ =>
    cases hex
    exact ⟨⟨rfl, rfl⟩, rfl, rfl⟩

section Rules

variable {α : Type} {Q Q' : α → World → Prop}

lemma quota_perform {o : Op} {k : o.Res → Prog α}
    (h : Sound cfg w → ∀ c, Undisturbed cfg o c w → ∀ r u, exec cfg o c w = some (r, u) →
      Fits cfg w u ∧ QuotaSpec cfg (k r) u Q) : QuotaSpec cfg (.perform o k) w Q := by
  apply wp_solo_perform
  intro c hok r u hex
  obtain ⟨hfits, hk⟩ := h hok.1 c hok.2 r u hex
  exact ⟨trivial, hfits, hk⟩

lemma quota_still {o : Op} {k : o.Res → Prog α} (ho : o.Still)
    (h : ∀ c r u, exec cfg o c w = some (r, u) → SameBooks w u → QuotaSpec cfg (k r) u Q) :
    QuotaSpec cfg (.perform o k) w Q := by
  apply quota_perform
  intro _ c _ r u hex
  have hsame := sameBooks_of_still ho hex
  exact ⟨fits_of_subset fun p hp => hsame.files.names ▸ hp, h c r u hex hsame⟩

lemma quota_of_uses {p : Prog α} {R : α → Prop} (hp : p.Uses Op.Still R) :
    QuotaSpec cfg p w fun a v => R a ∧ SameBooks w v := by
  apply wp_of_uses hp
  · rintro v _ hv rfl -
    exact hv
  · intro o c v r u ho _ _ hv hex
    have hsame := sameBooks_of_still ho hex
    exact ⟨trivial, fits_of_subset fun p hp => hsame.files.names ▸ hp, hv.trans hsame⟩
  · exact .refl w

lemma quota_with {p : Prog α} (h : Spec cfg (fun _ => True) p w Q) (h' : QuotaSpec cfg p w Q') :
    QuotaSpec cfg p w fun a v => Q' a v ∧ (Sound cfg v → Q a v) :=
  wp_mono (fun _ _ h => ⟨h.1, fun hsound => h.2 ⟨hsound, trivial⟩⟩)
    (wp_solo_with (fun _ _ _ hok => ⟨trivial, hok.1, trivial⟩) h h')

/-- `os.Stat` tells the truth. -/
lemma quota_stat {k : StatResult → Prog α}
    (hsize : path ∈ w.names → QuotaSpec cfg (k (.size (w.sizeAt path))) w Q)
    (hnone : w.names.lookup path = none → QuotaSpec cfg (k .notExist) w Q) :
    QuotaSpec cfg (.perform (.stat path) k) w Q := by
  apply quota_perform
  intro hw c hc r u hex
  cases hex
  refine ⟨fits_of_subset fun p hp => hp, ?_⟩
  have hfails : c.fails = false := hc
  rw [if_neg (by simp [hfails])]
  rcases hw.numbered.statPath path with ⟨hmem, hstat⟩ | ⟨hn, hstat⟩
  · rw [hstat]
    exact hsize hmem
  · rw [hstat]
    exact hnone hn

/-- The size of an entry of a listing, unless it is gone by now. -/
lemma quota_info {k : Option (ℤ × ℤ) → Prog α}
    (hsome : path ∈ w.names → ∀ modTime, QuotaSpec cfg (k (some (w.sizeAt path, modTime))) w Q)
    (hnone : w.names.lookup path = none → QuotaSpec cfg (k none) w Q) :
    QuotaSpec cfg (.perform (.info path) k) w Q := by
  apply quota_perform
  intro hw c hc r u hex
  cases hex
  refine ⟨fits_of_subset fun p hp => hp, ?_⟩
  have hfails : c.fails = false := hc
  rw [if_neg (by simp [hfails])]
  cases hn : w.names.lookup path with
  | none => exact hnone hn
  | some ino =>
    have hf : w.inodes[ino]? = some _ := getElem?_eq_getElem (hw.named hn)
    have hmem : path ∈ w.names := Writes.mem_iff.mpr ⟨_, hn⟩
    have hk := hsome hmem
    rw [sizeAt_of_lookup hn hf] at hk
    rw [Option.bind_some, hf]
    exact hk _

lemma quota_remove {k : Bool → Prog α}
    (h : QuotaSpec cfg (k (w.names.lookup path).isSome)
      { w with names := w.names.erase path } Q) : QuotaSpec cfg (.perform (.remove path) k) w Q := by
  apply quota_perform
  intro _ c hc r u hex
  have hfails : c.fails = false := hc
  dsimp only [exec] at hex
  rw [if_neg (by simp [hfails])] at hex
  cases hex
  exact ⟨fits_of_subset fun p hp => (mem_erase.mp hp).2, h⟩

/-- Steps that leave the files alone. -/
lemma quota_step {o : Op} {k : o.Res → Prog α} {r : o.Res}
    (hex : ∀ c, exec cfg o c w = some (r, u)) (hn : u.names = w.names)
    (h : QuotaSpec cfg (k r) u Q) : QuotaSpec cfg (.perform o k) w Q := by
  apply quota_perform
  intro _ c _ r' u' hex'
  cases (hex c).symm.trans hex'
  exact ⟨fits_of_subset fun p hp => hn ▸ hp, h⟩

lemma quota_now {k : ℤ → Prog α} (h : ∀ t, QuotaSpec cfg (k t) w Q) :
    QuotaSpec cfg (.perform .now k) w Q := by
  refine quota_still trivial fun c t u hex _ => ?_
  cases hex
  exact h _

lemma quota_loadSize {k : Option SizeEntry → Prog α}
    (h : QuotaSpec cfg (k (w.sizeCache.lookup path)) w Q) :
    QuotaSpec cfg (.perform (.loadSize path) k) w Q :=
  quota_step (fun _ => rfl) rfl h

lemma quota_loadTotal {k : ℤ → Prog α} (h : QuotaSpec cfg (k w.totalSize) w Q) :
    QuotaSpec cfg (.perform .loadTotal k) w Q :=
  quota_step (fun _ => rfl) rfl h

lemma quota_storeSize {k : Unit → Prog α}
    (h : QuotaSpec cfg (k ()) { w with sizeCache := w.sizeCache.insert path e } Q) :
    QuotaSpec cfg (.perform (.storeSize path e) k) w Q :=
  quota_step (fun _ => rfl) rfl h

lemma quota_deleteSize {k : Unit → Prog α}
    (h : QuotaSpec cfg (k ()) { w with sizeCache := w.sizeCache.erase path } Q) :
    QuotaSpec cfg (.perform (.deleteSize path) k) w Q :=
  quota_step (fun _ => rfl) rfl h

lemma quota_storeTotal {n : ℤ} {k : Unit → Prog α}
    (h : QuotaSpec cfg (k ()) { w with totalSize := n } Q) :
    QuotaSpec cfg (.perform (.storeTotal n) k) w Q :=
  quota_step (fun _ => rfl) rfl h

lemma quota_restart {k : Unit → Prog α} (h : QuotaSpec cfg (k ()) w.rebooted Q) :
    QuotaSpec cfg (.perform .restart k) w Q :=
  quota_step (fun _ => rfl) rfl h

lemma quota_addTotal {n : ℤ} {k : Unit → Prog α}
    (h : QuotaSpec cfg (k ()) { w with totalSize := w.totalSize + n } Q) :
    QuotaSpec cfg (.perform (.addTotal n) k) w Q :=
  quota_step (fun _ => rfl) rfl h

end Rules

/-! ### Evictions -/

lemma Op.OnHandles.still {o : Op} (h : o.OnHandles) : o.Still := by
  cases o <;> first | exact trivial | exact absurd h id

lemma still_getHandle : (getHandle path).Only Op.Still :=
  uses_getHandle.mono (fun _ ho => ho.still) fun _ h => h

lemma still_closeHandle : (closeHandle path).Only Op.Still :=
  uses_closeHandle.mono (fun _ ho => ho.still) fun _ h => h

/-- A file is gone with its cached size. -/
structure Dropped (path : String) (w v : World) : Prop where
  names : v.names = w.names.erase path
  inodes : v.inodes = w.inodes
  sizes : v.sizeCache = w.sizeCache.erase path
  total : v.totalSize = w.totalSize

lemma Dropped.filed (h : Dropped path w v) (hw : Filed cfg w) : Filed cfg v :=
  hw.drop h.names h.inodes h.sizes

lemma Dropped.diskBytes (h : Dropped path w v) : v.diskBytes = w.diskBytes - w.sizeAt path :=
  diskBytes_erase h.names h.inodes

lemma quota_dropFile : QuotaSpec cfg (dropFile path) w fun _ v => Dropped path w v := by
  refine wp_then (quota_of_uses still_closeHandle) fun _ u hu => ?_
  obtain ⟨-, hsame⟩ := hu
  apply quota_deleteSize
  refine quota_still trivial fun c r u1 _ hsame1 => ?_
  apply quota_remove
  apply wp_solo_ret
  constructor
  · show u1.names.erase path = _
    rw [hsame1.files.names, hsame.files.names]
  · exact hsame1.files.inodes.trans hsame.files.inodes
  · show u1.sizeCache = _
    rw [hsame1.sizes, hsame.sizes]
  · exact hsame1.total.trans hsame.total

/-- A scan finds every warmup file of the listing, with its size. -/
lemma quota_scanFiles (names : List String) :
    QuotaSpec cfg (scanFiles cfg names) w fun files v => SameBooks w v ∧
      (∀ f ∈ files, f.size = w.sizeAt f.path) ∧
      files.map (·.path) = (names.filter fun name =>
        isWarmupName name && decide (cfg.join name ∈ w.names)).map cfg.join := by
  induction names generalizing w with
  | nil => exact wp_solo_ret ⟨.refl w, by simp, rfl⟩
  | cons name names ih =>
    simp only [scanFiles, op, op_bind, filter_cons]
    split_ifs with hwarm hkeep hkeep
    · rw [hwarm, Bool.true_and, decide_eq_true_eq] at hkeep
      apply quota_info
      · intro _ modTime
        refine wp_then ih fun files v hv => wp_solo_ret ?_
        obtain ⟨hsame, hsize, hpaths⟩ := hv
        refine ⟨hsame, fun f hmem => ?_, ?_⟩
        · rcases mem_cons.mp hmem with rfl | hmem
          · rfl
          · exact hsize f hmem
        · show cfg.join name :: files.map (·.path) = _
          rw [hpaths, map_cons]
      · intro hnone
        exact absurd hkeep (lookup_eq_none.mp hnone)
    · rw [hwarm, Bool.true_and, decide_eq_true_eq] at hkeep
      apply quota_info
      · exact fun hmem => absurd hmem hkeep
      · exact fun _ => wp_then ih fun files v hv => wp_solo_ret hv
    · rw [Bool.and_eq_true] at hkeep
      exact absurd hkeep.1 hwarm
    · exact ih

lemma eq_empty_of_forall_not_mem {names : GoMap String ℕ} (h : ∀ p, p ∉ names) : names = ∅ := by
  apply ext
  have hkeys : names.keys = [] := eq_nil_iff_forall_not_mem.mpr h
  exact map_eq_nil_iff.mp hkeys

/-- The oldest files go until the rest fits or none is left. -/
lemma quota_evictFiles (needed diskTotal : ℤ) (files : List WFile) (hw : Filed cfg w)
    (hnodup : (files.map (·.path)).Nodup) (hall : ∀ p ∈ w.names, p ∈ files.map (·.path))
    (hsize : ∀ f ∈ files, f.size = w.sizeAt f.path) (htotal : diskTotal = w.diskBytes) :
    QuotaSpec cfg (evictFiles cfg needed diskTotal files) w fun n v => Filed cfg v ∧
      n = v.diskBytes ∧ (n + needed ≤ cfg.quota ∨ v.names = ∅) := by
  induction files generalizing w diskTotal with
  | nil =>
    apply wp_solo_ret
    refine ⟨hw, htotal, .inr ?_⟩
    apply eq_empty_of_forall_not_mem
    exact fun p hp => absurd (hall p hp) not_mem_nil
  | cons f files ih =>
    unfold evictFiles
    split_ifs with hfits
    · exact wp_solo_ret ⟨hw, htotal, .inl hfits⟩
    refine wp_then quota_dropFile fun _ v hv => ?_
    rw [map_cons, nodup_cons] at hnodup
    have hrest : ∀ p, p ∈ v.names → p ≠ f.path ∧ p ∈ w.names := by
      intro p hp
      rw [hv.names, mem_erase] at hp
      exact hp
    apply ih _ (hv.filed hw) hnodup.2
    · intro p hp
      obtain ⟨hne, hmem⟩ := hrest p hp
      exact (mem_cons.mp (hall p hmem)).resolve_left hne
    · intro g hg
      have hne : g.path ≠ f.path := by
        intro heq
        exact hnodup.1 (heq ▸ mem_map_of_mem hg)
      rw [sizeAt_erase hv.names hv.inodes hne]
      exact hsize g (mem_cons_of_mem f hg)
    · rw [hv.diskBytes, htotal, hsize f mem_cons_self]

lemma join_injective (cfg : Config) : Function.Injective cfg.join := by
  intro a b h
  have hlist := congrArg String.toList h
  simp only [Config.join, String.toList_append, append_cancel_left_eq] at hlist
  exact String.toList_inj.mp hlist

/-- What a complete listing leaves of the directory is all of it. -/
lemma paths_of_listing (hw : Filed cfg w) {c : Choice} (hc : Undisturbed cfg .readDir c w) :
    let names := (c.listing.filter fun name => cfg.join name ∈ w.names).filter fun name =>
      isWarmupName name && decide (cfg.join name ∈ w.names)
    (names.map cfg.join).Nodup ∧ (names.map cfg.join).toFinset = w.files := by
  intro names
  obtain ⟨hnodup, hlisted⟩ := hc
  constructor
  · exact ((hnodup.filter _).filter _).map (join_injective cfg)
  ext p
  rw [mem_toFinset, mem_files, mem_map]
  constructor
  · rintro ⟨name, hname, rfl⟩
    have hmem := (mem_filter.mp hname).2
    rw [Bool.and_eq_true, decide_eq_true_eq] at hmem
    exact hmem.2
  · intro hp
    obtain ⟨name, hname, rfl⟩ := mem_map.mp (hlisted p (AList.mem_keys.mp hp))
    obtain ⟨name', heq, hwarm⟩ := hw.warm hp
    obtain rfl := join_injective cfg heq
    refine ⟨name, ?_, rfl⟩
    simp [names, hname, hp, hwarm]

lemma quota_enforceQuotaLocked (needed : ℤ) (hw : Balanced cfg w) :
    QuotaSpec cfg (enforceQuotaLocked cfg needed) w fun _ v => Balanced cfg v ∧
      (v.diskBytes + needed ≤ cfg.quota ∨ v.names = ∅) := by
  simp only [enforceQuotaLocked, op, op_bind]
  apply quota_loadTotal
  split_ifs with hfits
  · apply wp_solo_ret
    refine ⟨hw, .inl ?_⟩
    rw [← hw.total]
    exact hfits
  · apply quota_perform
    intro _ c hc names u hex
    cases hex
    refine ⟨fits_of_subset fun p hp => hp, ?_⟩
    obtain ⟨hnodup, hfiles⟩ := paths_of_listing hw.toFiled hc
    refine wp_then (quota_scanFiles _) fun files u hu => ?_
    obtain ⟨hsame, hsize, hpaths⟩ := hu
    rw [← hpaths] at hnodup hfiles
    have hdisk : (files.map (·.size)).sum = w.diskBytes := by
      have hmap : files.map (·.size) = (files.map (·.path)).map w.sizeAt := by
        rw [map_map]
        exact map_congr_left hsize
      rw [hmap, World.diskBytes, ← hfiles, sum_toFinset _ hnodup]
    have hu : Filed cfg { u with totalSize := (files.map (·.size)).sum } :=
      hw.toFiled.same ⟨hsame.files.names, hsame.files.inodes⟩ hsame.sizes
    have hbytes : World.diskBytes { u with totalSize := (files.map (·.size)).sum } = w.diskBytes :=
      SameFiles.diskBytes ⟨hsame.files.names, hsame.files.inodes⟩
    apply quota_storeTotal
    split_ifs with hfits'
    · apply wp_solo_ret
      refine ⟨⟨hu, hdisk.trans hbytes.symm⟩, .inl ?_⟩
      rw [hbytes, ← hdisk]
      exact hfits'
    · have hperm := perm_insertionSort (fun a b : WFile => a.modTime ≤ b.modTime) files
      refine wp_bind (wp_mono (fun left v hv => ?_) (quota_evictFiles _ _ _ hu
        ((hperm.map _).nodup_iff.mpr hnodup) (fun p hp => ?_) (fun f hf => ?_)
        (hdisk.trans hbytes.symm)))
      · obtain ⟨hfiled, hleft, hquota⟩ := hv
        apply quota_storeTotal
        apply wp_solo_ret
        have hv' : World.diskBytes { v with totalSize := left } = v.diskBytes :=
          SameFiles.diskBytes ⟨rfl, rfl⟩
        refine ⟨⟨hfiled.same ⟨rfl, rfl⟩ rfl, hleft.trans hv'.symm⟩, ?_⟩
        rw [hv', ← hleft]
        exact hquota
      · rw [(hperm.map _).mem_iff, ← mem_toFinset, hfiles, mem_files]
        exact hsame.files.names ▸ hp
      · rw [hsize f (hperm.mem_iff.mp hf)]
        exact (SameFiles.sizeAt ⟨hsame.files.names, hsame.files.inodes⟩ f.path).symm

/-! ### Head files -/

namespace Balanced

/-- One file grows, and the growth is counted. -/
lemma grow (h : Balanced cfg w) (hmem : path ∈ w.names) (hn : u.names = w.names)
    (hother : ∀ p, p ≠ path → u.sizeAt p = w.sizeAt p)
    (hs : u.sizeCache = w.sizeCache.insert path e) (he : e.size = u.sizeAt path)
    (hsmall : u.sizeAt path ≤ max 0 (cfg.fileSize + 16 * 1024 * 1024))
    (htotal : u.totalSize = w.totalSize + (u.sizeAt path - w.sizeAt path)) : Balanced cfg u where
  sizes {p e'} he' := by
    rw [hs] at he'
    rcases Writes.of_insert he' with ⟨rfl, rfl⟩ | ⟨hp, he'⟩
    · exact he
    · rw [hother p hp]
      exact h.sizes he'
  warm hp := h.warm (hn ▸ hp)
  small p := by
    by_cases hp : p = path
    · subst hp
      exact hsmall
    · rw [hother p hp]
      exact h.small p
  total := by rw [htotal, h.total, diskBytes_of_one hmem hn hother]

/-- A file goes, and its bytes with it. -/
lemma gone (h : Balanced cfg w) (path : String) (hn : u.names = w.names.erase path)
    (hi : u.inodes = w.inodes) (hs : u.sizeCache = w.sizeCache.erase path)
    (htotal : u.totalSize = w.totalSize - w.sizeAt path) : Balanced cfg u :=
  ⟨h.toFiled.drop hn hi hs, by rw [htotal, h.total, diskBytes_erase hn hi]⟩

lemma create (h : Balanced cfg w) (hw : Numbered w) (hn : w.names.lookup path = none) (now : ℤ)
    (hwarm : ∃ name, path = cfg.join name ∧ isWarmupName name = true) :
    Balanced cfg (w.create path now).2 := by
  have hsize := hw.sizeAt_create hn now
  refine ⟨⟨fun {p e} he => ?_, fun {p} hp => ?_, fun p => ?_⟩, ?_⟩
  · rw [hsize]
    rw [create_eq hn] at he
    exact h.sizes he
  · obtain ⟨ino, hino⟩ := Writes.mem_iff.mp hp
    rcases of_create hn hino with ⟨rfl, -⟩ | hino
    · exact hwarm
    · exact h.warm (Writes.mem_iff.mpr ⟨ino, hino⟩)
  · rw [hsize]
    exact h.small p
  · rw [diskBytes_create hw hn, ← h.total, create_eq hn]
    rfl

end Balanced

lemma quota_headSize (hw : Balanced cfg w) :
    QuotaSpec cfg (headSize path) w fun n v => v = w ∧ n = w.sizeAt path := by
  apply quota_loadSize
  cases hs : w.sizeCache.lookup path with
  | some e => exact wp_solo_ret ⟨rfl, hw.sizes hs⟩
  | none =>
    apply quota_stat
    · exact fun _ => wp_solo_ret ⟨rfl, rfl⟩
    · exact fun hn => wp_solo_ret ⟨rfl, (sizeAt_of_not_named hn).symm⟩

lemma quota_overgrown (hw : Balanced cfg w) :
    QuotaSpec cfg (overgrown cfg path) w fun _ v => Balanced cfg v := by
  simp only [overgrown, op, op_bind]
  apply quota_loadSize
  cases w.sizeCache.lookup path with
  | some e => exact wp_solo_ret hw
  | none =>
    apply quota_stat
    · intro _
      dsimp only
      split_ifs
      · apply quota_now
        intro t
        apply quota_storeSize
        exact wp_solo_ret (hw.storeSize rfl)
      · exact wp_solo_ret hw
    · exact fun _ => wp_solo_ret hw

/-- An undisturbed write inside the file or at its end. -/
lemma writeFile_exact (hw : Sound cfg w) (c : Choice) (hc : c.fails = false) (writer : Writer)
    {k : ℕ} (data : List UInt8) {off : ℤ} (hk : w.handles.lookup path = some k)
    (hoff : off ≤ w.sizeAt path) :
    w.writeFile c writer k data off = ((0, true), w) ∨ ∃ u : World,
      w.writeFile c writer k data off = ((data.length, false), u) ∧ u.names = w.names ∧
      u.sizeCache = w.sizeCache ∧ u.totalSize = w.totalSize ∧
      (∀ p, p ≠ path → u.sizeAt p = w.sizeAt p) ∧
      u.sizeAt path = max (w.sizeAt path) (off + data.length) := by
  obtain ⟨ino, f, hino, hf, hinode, -⟩ := hw.inodeOf hk
  have hsize := sizeAt_of_lookup hino hf
  have hsent : World.sent c data = data := by simp [World.sent, hc]
  unfold World.writeFile
  rw [hinode, hsent, hc]
  split_ifs with hneg
  · exact .inl rfl
  obtain ⟨hnew, hother⟩ := hw.numbered.sizeAt_set hino
    ⟨f.file.write 0 writer off.toNat data, c.now⟩
  refine .inr ⟨_, rfl, rfl, rfl, rfl, hother, ?_⟩
  rw [hnew, hsize]
  have hlen : (f.file.write 0 writer off.toNat data).bytes.length
      = max f.file.bytes.length (off.toNat + data.length) :=
    File.length_write (.inr (by omega))
  dsimp only
  omega

lemma quota_writeChunk {prevSize off : ℤ} (data : List UInt8) (hw : Balanced cfg w)
    (hprev : prevSize = w.sizeAt path) (hoff : off ≤ prevSize)
    (hlen : off + data.length ≤ max 0 (cfg.fileSize + 16 * 1024 * 1024)) :
    QuotaSpec cfg (writeChunk path prevSize data off) w fun _ v => Balanced cfg v := by
  simp only [writeChunk, op, op_bind]
  refine wp_then (quota_with spec_getHandle (quota_of_uses still_getHandle)) fun r u hu => ?_
  obtain ⟨⟨-, hsame⟩, hspec⟩ := hu
  have hu := hw.same hsame
  rw [← hsame.files.sizeAt path] at hprev
  cases r with
  | none => exact wp_solo_ret hu
  | some h =>
    refine quota_still trivial fun c closed u1 hex _ => ?_
    cases hex
    split_ifs
    · exact wp_solo_ret hu
    apply quota_perform
    intro hsound c hc r v hex
    have hhandle : u.handles.lookup path = some h := (hspec hsound).2.2 h rfl
    obtain ⟨-, -, -, -, -, hmem⟩ := hsound.inodeOf hhandle
    obtain ⟨n, err⟩ := r
    have hwrite : u.writeFile c .processWrite h data off = ((n, err), v) := Option.some.inj hex
    rcases writeFile_exact hsound c hc .processWrite data hhandle (hoff.trans hprev.le) with
      hfail | ⟨v', hdone, hnames, hsizes, htotal, hother, hsize⟩
    · obtain ⟨hr, rfl⟩ := Prod.mk.inj (hwrite.symm.trans hfail)
      cases hr
      exact ⟨fits_of_subset fun p hp => hp, wp_solo_ret hu⟩
    obtain ⟨hr, rfl⟩ := Prod.mk.inj (hwrite.symm.trans hdone)
    cases hr
    refine ⟨fits_of_subset fun p hp => hnames ▸ hp, ?_⟩
    have hsmall := hu.small path
    rw [if_neg (by simp)]
    refine quota_still trivial fun c r v1 hex _ => ?_
    cases hex
    split_ifs with hgrow
    · apply quota_addTotal
      apply quota_now
      intro t
      apply quota_storeSize
      apply wp_solo_ret
      refine hu.grow (u := { v with
        sizeCache := v.sizeCache.insert path ⟨off + data.length, t⟩
        totalSize := v.totalSize + (off + data.length - prevSize)
        missing := v.missing.erase path }) (e := ⟨off + data.length, t⟩) hmem hnames hother ?_ ?_ ?_ ?_
      · show v.sizeCache.insert path _ = _
        rw [hsizes]
      · show off + (data.length : ℤ) = v.sizeAt path
        omega
      · show v.sizeAt path ≤ _
        omega
      · show v.totalSize + _ = u.totalSize + (v.sizeAt path - _)
        omega
    · apply quota_now
      intro t
      apply quota_storeSize
      apply wp_solo_ret
      refine hu.grow (u := { v with
        sizeCache := v.sizeCache.insert path ⟨prevSize, t⟩
        missing := v.missing.erase path }) (e := ⟨prevSize, t⟩) hmem hnames hother ?_ ?_ ?_ ?_
      · show v.sizeCache.insert path _ = _
        rw [hsizes]
      · show prevSize = v.sizeAt path
        omega
      · show v.sizeAt path ≤ _
        omega
      · show v.totalSize = u.totalSize + (v.sizeAt path - _)
        omega

lemma isWarmupName_head (hash : String) (fileID : ℤ) :
    ∃ name, cfg.filePath hash fileID = cfg.join name ∧ isWarmupName name = true := by
  refine ⟨_, rfl, ?_⟩
  unfold isWarmupName
  rw [hasSuffix_append, Bool.true_or]

/-- A new head is started once it fits, or once nothing is left to evict. -/
lemma quota_startFile (hw : Balanced cfg w) (hn : w.names.lookup path = none)
    (hwarm : ∃ name, path = cfg.join name ∧ isWarmupName name = true) :
    QuotaSpec cfg (startFile cfg path) w fun _ v => Balanced cfg v ∧ v.sizeAt path = 0 := by
  simp only [startFile, op, op_bind]
  refine quota_still trivial fun c r u _ hsame => ?_
  refine wp_bind (wp_mono (fun _ u1 hu1 => ?_)
    (quota_with (spec_enforceQuotaLocked _) (quota_enforceQuotaLocked _ (hw.same hsame))))
  obtain ⟨⟨hu1, hfits⟩, hevicted⟩ := hu1
  apply quota_perform
  intro hsound c hc r u2 hex
  cases hex
  have hnone : u1.names.lookup path = none :=
    (hevicted hsound).names path ((congrArg _ hsame.files.names).trans hn)
  refine ⟨fits_of_subset fun p hp => hp, ?_⟩
  refine quota_still trivial fun c r u3 _ hsame3 => ?_
  replace hsame3 : SameBooks u1 u3 :=
    ⟨⟨hsame3.files.names, hsame3.files.inodes⟩, hsame3.sizes, hsame3.total⟩
  have hu3 := hu1.same hsame3
  have hnone3 : u3.names.lookup path = none := (congrArg _ hsame3.files.names).trans hnone
  apply quota_perform
  intro hsound c hc r u4 hex
  have hfails : c.fails = false := hc
  dsimp only [exec] at hex
  rw [if_neg (by simp [hfails])] at hex
  cases hex
  constructor
  · intro p _ _
    rw [hsame3.files.diskBytes, hsame3.files.names]
    exact hfits
  refine quota_still trivial fun c t u5 _ hsame5 => quota_still trivial fun c r u6 _ hsame6 => ?_
  refine quota_still trivial fun c r u7 _ hsame7 => wp_solo_ret ?_
  have hsame7 := (hsame5.trans hsame6).trans hsame7
  refine ⟨(hu3.create hsound.numbered hnone3 _ hwarm).same hsame7, ?_⟩
  rw [hsame7.files.sizeAt, hsound.numbered.sizeAt_create hnone3, sizeAt_of_not_named hnone3]

lemma length_clip {off : ℤ} {data : List UInt8} (hoff : off ≤ cfg.fileSize)
    (hdata : data.length ≤ 16 * 1024 * 1024) :
    off + (clip cfg data off).length ≤ max 0 (cfg.fileSize + 16 * 1024 * 1024) := by
  unfold clip
  split_ifs
  · rw [length_take]
    omega
  · omega

lemma quota_processWrite (hash : String) (fileID : ℤ) (data : List UInt8) (off : ℤ)
    (hdata : data.length ≤ 16 * 1024 * 1024) (hw : Balanced cfg w) :
    QuotaSpec cfg (processWrite cfg hash fileID data off) w fun _ v => Balanced cfg v := by
  unfold processWrite
  split_ifs with hcap
  · exact wp_solo_ret hw
  refine wp_then (quota_overgrown hw) fun grown u hu => ?_
  split_ifs
  · exact wp_solo_ret hu
  refine wp_then (quota_headSize hu) fun prevSize u1 hu1 => ?_
  obtain ⟨rfl, hprev⟩ := hu1
  split_ifs with hoff
  · exact wp_solo_ret hu
  have hlen := length_clip (not_lt.mp hcap) hdata
  simp only [op, op_bind]
  apply quota_stat
  · exact fun _ => quota_writeChunk _ hu hprev (not_lt.mp hoff) hlen
  intro hnone
  refine wp_then (quota_startFile hu hnone (isWarmupName_head hash fileID))
    fun started v hv => ?_
  obtain ⟨hv, hsize⟩ := hv
  split_ifs
  · rw [sizeAt_of_not_named hnone] at hprev
    exact quota_writeChunk _ hv (hprev.trans hsize.symm) (not_lt.mp hoff) hlen
  · exact wp_solo_ret hv

/-! ### Reads and removals -/

section

variable (hash : String)

include hash

lemma quota_measure (hw : Balanced cfg w) :
    QuotaSpec cfg (measure cfg hash path) w fun _ v => Balanced cfg v := by
  have hmissing : ∀ {v : World}, Balanced cfg v → QuotaSpec cfg (do
      op (.storeMissing path (← op .now))
      pure (some 0)) v fun _ v => Balanced cfg v := by
    intro v hv
    apply quota_now
    intro t
    exact quota_still trivial fun c r u _ hsame => wp_solo_ret (hv.same hsame)
  simp only [measure, op, op_bind]
  apply quota_stat
  · intro _
    dsimp only
    split_ifs with hbig
    · exact wp_solo_ret hw
    · -- only an empty file can be this long
      have hzero : w.sizeAt path = 0 := by
        have hsmall := hw.small path
        have hpos : 0 ≤ w.sizeAt path := sizeAt_nonneg
        omega
      refine wp_then (quota_of_uses still_closeHandle) fun _ u hu => ?_
      obtain ⟨-, hsame⟩ := hu
      apply quota_deleteSize
      apply quota_remove
      apply hmissing
      refine (hw.same hsame).gone path ?_ ?_ ?_ ?_
      · rfl
      · rfl
      · rfl
      · rw [hsame.files.sizeAt, hzero, sub_zero]
    · apply quota_now
      intro t
      apply quota_storeSize
      exact wp_solo_ret (hw.storeSize rfl)
  · exact fun _ => hmissing hw

lemma quota_cachedRange (hw : Balanced cfg w) :
    QuotaSpec cfg (cachedRange cfg hash path) w fun _ v => Balanced cfg v := by
  simp only [cachedRange, op, op_bind]
  apply quota_loadSize
  cases w.sizeCache.lookup path with
  | none => exact quota_measure hash hw
  | some e =>
    apply quota_now
    intro t
    split_ifs
    · exact wp_solo_ret hw
    · exact quota_measure hash hw

lemma quota_getAvailableRange (fileID : ℤ) (hw : Balanced cfg w) :
    QuotaSpec cfg (getAvailableRange cfg hash fileID) w fun _ v => Balanced cfg v := by
  simp only [getAvailableRange, op, op_bind]
  refine quota_still trivial fun c r u _ hsame => ?_
  cases r with
  | none => exact quota_cachedRange hash (hw.same hsame)
  | some since =>
    apply quota_now
    intro t
    split_ifs
    · exact wp_solo_ret (hw.same hsame)
    · exact quota_still trivial fun c r v _ hsame' =>
        quota_cachedRange hash (hw.same (hsame.trans hsame'))

lemma quota_readAt (fileID : ℤ) (len : ℕ) (off : ℤ) (hw : Balanced cfg w) :
    QuotaSpec cfg (readAt cfg hash fileID len off) w fun _ v => Balanced cfg v := by
  unfold readAt
  split_ifs
  · exact wp_solo_ret hw
  refine wp_then (quota_of_uses still_getHandle) fun r u hu => ?_
  cases r with
  | none => exact wp_solo_ret (hw.same hu.2)
  | some h =>
    refine wp_then (quota_getAvailableRange hash fileID (hw.same hu.2)) fun r v hv => ?_
    cases r with
    | none => exact wp_solo_ret hv
    | some availSize =>
      dsimp only
      split_ifs
      · exact wp_solo_ret hv
      · exact quota_still trivial fun c r u _ hsame => wp_solo_ret (hv.same hsame)

lemma still_readTail (fileID : ℤ) (len : ℕ) (absoluteOffset fileSize : ℤ) :
    (readTail cfg hash fileID len absoluteOffset fileSize).Only Op.Still := by
  simp only [readTail, op, op_bind]
  split_ifs
  · exact trivial
  refine ⟨trivial, fun r => ?_⟩
  cases r with
  | none => exact trivial
  | some tr =>
    refine ⟨trivial, fun spans => ?_⟩
    dsimp only
    split_ifs
    · refine still_getHandle.bind fun r _ => ?_
      cases r with
      | none => exact trivial
      | some h => exact ⟨trivial, fun _ => trivial⟩
    · exact trivial

lemma quota_removeEntries (names : List String) (hw : Balanced cfg w) :
    QuotaSpec cfg (removeEntries cfg hash names) w fun _ v => Balanced cfg v := by
  induction names generalizing w with
  | nil => exact wp_solo_ret hw
  | cons name names ih =>
    simp only [removeEntries, op, op_bind]
    split_ifs
    · -- the bytes are taken off the account before the file goes
      have hdrop : ∀ {v : World}, SameFiles w v → v.sizeCache = w.sizeCache →
          v.totalSize = w.totalSize - w.sizeAt (cfg.join name) → QuotaSpec cfg (do
            let _ ← dropFile (cfg.join name)
            removeEntries cfg hash names) v fun _ v => Balanced cfg v := by
        intro v hfiles hsizes htotal
        refine wp_then quota_dropFile fun _ t ht => ?_
        apply ih
        apply hw.gone (cfg.join name)
        · rw [ht.names, hfiles.names]
        · rw [ht.inodes, hfiles.inodes]
        · rw [ht.sizes, hsizes]
        · rw [ht.total, htotal]
      apply quota_info
      · intro _ _
        apply quota_addTotal
        apply hdrop
        · exact ⟨rfl, rfl⟩
        · rfl
        · exact Int.sub_eq_add_neg.symm
      · intro hnone
        apply hdrop ⟨rfl, rfl⟩ rfl
        rw [sizeAt_of_not_named hnone, sub_zero]
    · exact ih hw

end

lemma quota_dropResidue (hw : Balanced cfg w) :
    QuotaSpec cfg (dropResidue path) w fun _ v => Balanced cfg v := by
  simp only [dropResidue, op, op_bind]
  split_ifs
  · refine quota_still trivial fun c r u hex _ => ?_
    cases hex
    cases w.handles.lookup path with
    | some h => exact wp_solo_ret hw
    | none =>
      apply quota_stat
      · intro hmem
        dsimp only
        split_ifs
        · exact wp_solo_ret hw
        apply quota_deleteSize
        apply quota_remove
        have hsome : (w.names.lookup path).isSome = true := lookup_isSome.mpr hmem
        rw [if_pos hsome]
        apply quota_addTotal
        apply quota_now
        intro t
        refine quota_still trivial fun c r u hex hsame => wp_solo_ret ?_
        apply hw.gone path
        · exact hsame.files.names
        · exact hsame.files.inodes
        · exact hsame.sizes
        · exact hsame.total.trans Int.sub_eq_add_neg.symm
      · exact fun _ => wp_solo_ret hw
  · exact wp_solo_ret hw

lemma quota_reapHandle (now max : ℤ) (h : ℕ) (hw : Balanced cfg w) :
    QuotaSpec cfg (reapHandle now max path h) w fun _ v => Balanced cfg v := by
  simp only [reapHandle, op, op_bind]
  refine quota_still trivial fun c used u _ hsame => ?_
  split_ifs
  · exact wp_solo_ret (hw.same hsame)
  refine quota_still trivial fun c r u1 _ hsame1 => ?_
  have hsame1 := hsame.trans hsame1
  cases r with
  | none => exact wp_solo_ret (hw.same hsame1)
  | some actual =>
    refine quota_still trivial fun c used u2 _ hsame2 => ?_
    have hsame2 := hsame1.trans hsame2
    split_ifs
    · exact quota_still trivial fun c r u3 _ hsame3 => wp_solo_ret (hw.same (hsame2.trans hsame3))
    · refine quota_still trivial fun c r u3 _ hsame3 => quota_still trivial fun c r u4 _ hsame4 => ?_
      exact quota_dropResidue (hw.same ((hsame2.trans hsame3).trans hsame4))

lemma quota_reapHandles (now max : ℤ) (hs : List (String × ℕ)) (hw : Balanced cfg w) :
    QuotaSpec cfg (reapHandles now max hs) w fun _ v => Balanced cfg v := by
  induction hs generalizing w with
  | nil => exact wp_solo_ret hw
  | cons x hs ih =>
    exact wp_then (quota_reapHandle now max x.2 hw) fun _ _ hv => ih hv

/-! ### A new process -/

/-- The bytes of the files that are not on a list of names. -/
def World.unlisted (w : World) (cfg : Config) (names : List String) : ℤ :=
  ∑ p ∈ w.files.filter (· ∉ names.map cfg.join), w.sizeAt p

section Unlisted

variable {name : String} {names : List String}

lemma ne_join_of_mem (hmem : cfg.join name ∉ w.names) {p : String} (hp : p ∈ w.files) :
    p ≠ cfg.join name := by
  rintro rfl
  exact hmem (mem_files.mp hp)

lemma unlisted_of_not_mem (hmem : cfg.join name ∉ w.names) :
    w.unlisted cfg (name :: names) = w.unlisted cfg names := by
  rw [World.unlisted, World.unlisted]
  congr 1
  apply Finset.filter_congr
  intro p hp
  rw [map_cons, mem_cons, not_or]
  exact and_iff_right (ne_join_of_mem hmem hp)

lemma unlisted_erase (hn : u.names = w.names.erase (cfg.join name)) (hi : u.inodes = w.inodes) :
    u.unlisted cfg names = w.unlisted cfg (name :: names) := by
  have hfilter : u.files.filter (· ∉ names.map cfg.join)
      = w.files.filter (· ∉ (name :: names).map cfg.join) := by
    ext p
    rw [Finset.mem_filter, Finset.mem_filter, mem_files, mem_files, hn, mem_erase,
      map_cons, mem_cons, not_or]
    tauto
  rw [World.unlisted, World.unlisted, hfilter]
  apply Finset.sum_congr rfl
  intro p hp
  apply sizeAt_erase hn hi
  rintro rfl
  exact (Finset.mem_filter.mp hp).2 mem_cons_self

lemma unlisted_cons (hmem : cfg.join name ∈ w.names) (hname : name ∉ names) :
    w.unlisted cfg names = w.sizeAt (cfg.join name) + w.unlisted cfg (name :: names) := by
  have hnot : cfg.join name ∉ names.map cfg.join := by
    rw [mem_map_of_injective (join_injective cfg)]
    exact hname
  have hfilter : w.files.filter (· ∉ names.map cfg.join)
      = insert (cfg.join name) (w.files.filter (· ∉ (name :: names).map cfg.join)) := by
    ext p
    rw [Finset.mem_insert, Finset.mem_filter, Finset.mem_filter, map_cons, mem_cons,
      not_or]
    by_cases hp : p = cfg.join name
    · subst hp
      simp [mem_files.mpr hmem, hnot]
    · simp [hp]
  rw [World.unlisted, hfilter, Finset.sum_insert (by simp)]
  rfl

end Unlisted

/-- The files that stay are counted, one after the other. -/
lemma quota_scanExisting (dropHeads : Bool) (names : List String) (hnodup : names.Nodup)
    (hw : Filed cfg w) (hs : w.sizeCache = ∅) :
    QuotaSpec cfg (scanExisting cfg dropHeads names) w fun n v => Filed cfg v ∧
      n + w.unlisted cfg names = v.diskBytes := by
  induction names generalizing w with
  | nil =>
    apply wp_solo_ret
    refine ⟨hw, ?_⟩
    rw [World.unlisted, zero_add, Finset.filter_true_of_mem (by simp)]
    rfl
  | cons name names ih =>
    rw [nodup_cons] at hnodup
    have hremove : QuotaSpec cfg (.perform (.remove (cfg.join name)) fun _ =>
        scanExisting cfg dropHeads names) w fun n v => Filed cfg v ∧
          n + w.unlisted cfg (name :: names) = v.diskBytes := by
      apply quota_remove
      have hsizes : w.sizeCache = w.sizeCache.erase (cfg.join name) := by
        rw [hs]
        rfl
      have hgone : Dropped (cfg.join name) w { w with names := w.names.erase (cfg.join name) } :=
        ⟨rfl, rfl, hsizes, rfl⟩
      refine wp_mono (fun n v hv => ?_) (ih hnodup.2 (hgone.filed hw) hs)
      rwa [unlisted_erase (u := { w with names := w.names.erase (cfg.join name) }) rfl rfl] at hv
    simp only [scanExisting, op, op_bind]
    split_ifs with hdrop hhead
    · exact hremove
    · apply quota_info
      · intro hmem modTime
        dsimp only
        split_ifs
        · exact hremove
        · refine wp_then (ih hnodup.2 hw hs) fun n v hv => wp_solo_ret ⟨hv.1, ?_⟩
          have hcount := hv.2
          rw [unlisted_cons hmem hnodup.1] at hcount
          omega
      · intro hnone
        rw [unlisted_of_not_mem (lookup_eq_none.mp hnone)]
        exact ih hnodup.2 hw hs
    · -- all files of the directory are warmup files
      have hmem : cfg.join name ∉ w.names := by
        intro hmem
        obtain ⟨name', heq, hwarm⟩ := hw.warm hmem
        obtain rfl := join_injective cfg heq
        rw [Bool.or_eq_true, not_or] at hdrop
        rw [isWarmupName, Bool.or_eq_true] at hwarm
        exact hwarm.elim hhead hdrop.1
      rw [unlisted_of_not_mem hmem]
      exact ih hnodup.2 hw hs

lemma quota_initDiskWarmup (dropHeads : Bool) (hw : Balanced cfg w) :
    QuotaSpec cfg (initDiskWarmup cfg dropHeads) w fun _ v => Balanced cfg v := by
  simp only [initDiskWarmup, op, op_bind]
  apply quota_restart
  have hfiled : Filed cfg w.rebooted :=
    hw.toFiled.sameFiles ⟨rfl, rfl⟩ fun p e he => absurd he (by simp [World.rebooted, World.fresh])
  apply quota_perform
  intro _ c hc names u hex
  obtain ⟨hnodup, hlisted⟩ := hc
  cases hex
  refine ⟨fits_of_subset fun p hp => hp, ?_⟩
  refine wp_then (quota_scanExisting dropHeads _ (hnodup.filter _) hfiled rfl) fun n v hv => ?_
  obtain ⟨hv, hcount⟩ := hv
  have hall : w.rebooted.unlisted cfg
      (c.listing.filter fun name => cfg.join name ∈ w.rebooted.names) = 0 := by
    rw [World.unlisted, Finset.filter_false_of_mem, Finset.sum_empty]
    intro p hp
    rw [mem_files] at hp
    obtain ⟨name, hname, rfl⟩ := mem_map.mp (hlisted p (AList.mem_keys.mp hp))
    rw [not_not, mem_map]
    exact ⟨name, by simp [hname, hp], rfl⟩
  rw [hall, add_zero] at hcount
  apply quota_storeTotal
  apply wp_solo_ret
  exact ⟨hv.same ⟨rfl, rfl⟩ rfl, hcount.trans (SameFiles.diskBytes ⟨rfl, rfl⟩).symm⟩

/-! ### Every run -/

lemma quota_program (call : Call) (hcall : call.Accounted) (hw : Balanced cfg w) :
    QuotaSpec cfg (call.program cfg) w fun _ v => Balanced cfg v := by
  have hdone : ∀ {p : Prog Unit}, QuotaSpec cfg p w (fun _ v => Balanced cfg v) →
      QuotaSpec cfg (p >>= fun _ => pure Answer.done) w fun _ v => Balanced cfg v :=
    fun h => wp_then h fun _ _ hv => wp_solo_ret hv
  cases call with
  | processWrite hash fileID data off =>
    exact hdone (quota_processWrite hash fileID data off hcall hw)
  | getAvailableRange hash fileID =>
    refine wp_then (quota_getAvailableRange hash fileID hw) fun r v hv => ?_
    cases r <;> exact wp_solo_ret hv
  | readAt hash fileID len off =>
    refine wp_then (quota_readAt hash fileID len off hw) fun r v hv => ?_
    cases r <;> exact wp_solo_ret hv
  | writeTail hash fileID data absoluteOffset fileSize => exact absurd hcall id
  | readTail hash fileID len absoluteOffset fileSize =>
    exact wp_then (quota_of_uses (still_readTail hash fileID len absoluteOffset fileSize))
      fun _ _ hv => wp_solo_ret (hw.same hv.2)
  | removeHash hash =>
    apply hdone
    exact quota_still trivial fun c names u _ hsame => quota_removeEntries hash names (hw.same hsame)
  | reapIdle max =>
    apply hdone
    refine quota_still trivial fun c t u _ hsame => quota_still trivial fun c hs u1 _ hsame1 => ?_
    exact quota_reapHandles t max hs (hw.same (hsame.trans hsame1))
  | enforceQuota needed =>
    refine quota_still trivial fun c r u _ hsame => ?_
    refine wp_bind (p := enforceQuotaLocked cfg needed) (wp_mono (fun _ v hv => ?_)
      (quota_enforceQuotaLocked needed (hw.same hsame)))
    exact quota_still trivial fun c r u1 _ hsame1 => wp_solo_ret (hv.1.same hsame1)
  | initDiskWarmup dropHeads => exact hdone (quota_initDiskWarmup dropHeads hw)

lemma balanced_fresh : Balanced cfg World.fresh := by
  refine ⟨⟨?_, ?_, fun path => ?_⟩, rfl⟩
  · simp [World.fresh]
  · simp [World.fresh]
  · rw [sizeAt_of_not_named rfl]
    exact le_max_left _ _

/-- A call that runs to its end alone and undisturbed. -/
def ServesUndisturbed (cfg : Config) (w : World) (l : Call × Answer) (w' : World) : Prop :=
  Steps (machine cfg) (Undisturbed cfg) (l.1.program cfg) w (.ret l.2) w'

lemma quotaSteps {call : Call} {q : Prog Answer} (hw : Sound cfg w)
    (h : Steps (machine cfg) (Undisturbed cfg) (call.program cfg) w q v) :
    Sound cfg v ∧ Steps (machine cfg) (fun o c w => Sound cfg w ∧ Undisturbed cfg o c w)
      (call.program cfg) w q v := by
  constructor
  · have hsteps : Steps (machine cfg) (fun _ _ _ => True) (call.program cfg) w q v :=
      h.guarded (spec_call call) ⟨hw, trivial⟩ (fun _ _ _ _ => trivial) fun _ _ _ _ _ => trivial
    exact (hsteps.sound (spec_call call) ⟨hw, trivial⟩).1.1
  · exact h.guarded (spec_call call) ⟨hw, trivial⟩ (fun _ _ _ _ => trivial)
      fun _ _ _ hc hsound => ⟨hsound.1, hc⟩

lemma balanced_of_run {ls : List (Call × Answer)}
    (hrun : Run (Guarded (fun _ l => l.1.Accounted) (ServesUndisturbed cfg)) World.fresh ls w) :
    Sound cfg w ∧ Balanced cfg w := by
  refine hrun.invariant (I := fun w => Sound cfg w ∧ Balanced cfg w) (fun s l t hs hst => ?_)
    ⟨sound_fresh, balanced_fresh⟩
  obtain ⟨hsound, hbalanced⟩ := hs
  obtain ⟨hcall, hserve⟩ := hst
  obtain ⟨hsound', hsteps⟩ := quotaSteps hsound hserve
  exact ⟨hsound', (hsteps.solo (quota_program l.1 hcall hbalanced) trivial).2 t rfl trivial⟩

/-- Without tail writes, overlong chunks and disturbances, the account is the
number of bytes on disk after every run of calls, and at any step of a head
write that brings a file into being a whole head fits the quota beside them,
or no file is left that could be evicted. -/
theorem account_is_exact_and_heads_fit {ls : List (Call × Answer)}
    (hrun : Run (Guarded (fun _ l => l.1.Accounted) (ServesUndisturbed cfg)) World.fresh ls w) :
    w.totalSize = w.diskBytes ∧
    ∀ hash fileID data off, data.length ≤ 16 * 1024 * 1024 →
      ∀ (o : Op) (k : o.Res → Prog Answer) (v : World),
        Steps (machine cfg) (Undisturbed cfg) (Call.program cfg (.processWrite hash fileID data off)) w
          (.perform o k) v →
        ∀ c r u, Undisturbed cfg o c v → exec cfg o c v = some (r, u) →
          ∀ path, path ∉ v.names → path ∈ u.names →
            v.diskBytes + cfg.fileSize ≤ cfg.quota ∨ v.names = ∅ := by
  obtain ⟨hsound, hbalanced⟩ := balanced_of_run hrun
  refine ⟨hbalanced.total, ?_⟩
  intro hash fileID data off hdata o k v hsteps c r u hc hex path hpath hpath'
  obtain ⟨hsound', hsteps⟩ := quotaSteps hsound hsteps
  have hnext := (hsteps.solo (quota_program _ hdata hbalanced) trivial).2
  obtain ⟨-, hfits, -⟩ := hnext v rfl trivial c ⟨hsound', hc⟩ r u hex
  exact hfits path hpath hpath'

/-- A head takes the whole quota. -/
def wholeQuota : Config := ⟨"/warm", 32 * 1024 * 1024 * 1024, 0⟩

def serveUndisturbed (cfg : Config) (w : World) (l : Call × List Choice) : Option (Answer × World) :=
  let r := runAlone (machine cfg) (Undisturbed cfg) l.2 (l.1.program cfg) w
  r.1.result?.map (·, r.2)

lemma serves_of_serveUndisturbed {l : Call × List Choice} {answer : Answer}
    (h : serveUndisturbed cfg w l = some (answer, v)) : ServesUndisturbed cfg w (l.1, answer) v := by
  obtain ⟨a, ha, heq⟩ := Option.map_eq_some_iff.mp h
  cases heq
  have hsteps := steps_runAlone (machine cfg) (Undisturbed cfg) l.2 (l.1.program cfg) w
  rwa [eq_ret_of_result? ha] at hsteps

def listing (names : List String) : List Choice := List.replicate 40 ⟨0, false, 0, names⟩

/-- The second head evicts the first. -/
theorem account_is_exact_after_eviction :
    ∃ u w, serveUndisturbed wholeQuota .fresh (.processWrite "abc" 1 [1, 2, 3, 4] 0, listing [])
        = some (.done, u) ∧
      serveUndisturbed wholeQuota u (.processWrite "def" 1 [5, 6, 7] 0, listing ["abc-1.warmup"])
        = some (.done, w) ∧ w.totalSize = 3 ∧ w.diskBytes = 3 := by
  obtain ⟨⟨_, u⟩, hu, rfl, ⟨_, w⟩, hw, rfl, htotal⟩ : ∃ x ∈ serveUndisturbed wholeQuota .fresh
      (.processWrite "abc" 1 [1, 2, 3, 4] 0, listing []), x.1 = .done ∧
      ∃ y ∈ serveUndisturbed wholeQuota x.2
        (.processWrite "def" 1 [5, 6, 7] 0, listing ["abc-1.warmup"]),
        y.1 = .done ∧ y.2.totalSize = 3 := by decide +kernel
  have habc : (Call.processWrite "abc" 1 [1, 2, 3, 4] 0).Accounted := by decide
  have hdef : (Call.processWrite "def" 1 [5, 6, 7] 0).Accounted := by decide
  have hrun : Run (Guarded (fun _ l => l.1.Accounted) (ServesUndisturbed wholeQuota)) World.fresh
      [(.processWrite "abc" 1 [1, 2, 3, 4] 0, .done), (.processWrite "def" 1 [5, 6, 7] 0, .done)] w :=
    .cons ⟨habc, serves_of_serveUndisturbed hu⟩
      (.cons ⟨hdef, serves_of_serveUndisturbed hw⟩ (.nil w))
  obtain ⟨hexact, -⟩ := account_is_exact_and_heads_fit hrun
  exact ⟨u, w, hu, hw, htotal, hexact ▸ htotal⟩

/-- A tail byte is not counted when it is written, but taken off when it is removed. -/
theorem tail_bytes_are_not_accounted :
    ∃ calls w calls' v, Run (Serves smallHeads) World.fresh calls w ∧ w.totalSize = 0 ∧
      w.diskBytes = 1 ∧ Run (Serves smallHeads) w calls' v ∧ v.totalSize = -1 ∧ v.diskBytes = 0 := by
  obtain ⟨⟨calls, w⟩, hw, htotal, hdisk, ⟨calls', v⟩, hv, hafter⟩ : ∃ x ∈ serveAll smallHeads .fresh
      [(.writeTail "abc" 1 [5] 0 1, smooth)], x.2.totalSize = 0 ∧ x.2.diskBytes = 1 ∧
      ∃ y ∈ serveAll smallHeads x.2 [(.removeHash "abc", listing ["abc-1.warmup-tail"])],
        y.2.totalSize = -1 ∧ y.2.diskBytes = 0 := by decide +kernel
  exact ⟨calls, w, calls', v, run_of_serveAll hw, htotal, hdisk, run_of_serveAll hv, hafter⟩

end Tiramisu.Warmup
