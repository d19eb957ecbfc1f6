import Tiramisu.Lib.Places
import Tiramisu.Warmup.Cache

/-!
# Head warmup files have no gaps

The size a head file is believed to have lives in the size cache, in open
handles and in the file itself.  `Sound` ties them together: a handle kept for
a path is open on the file of that path, a cached size never exceeds the file's,
and head files are dense.  Every operation of every method keeps it.
-/

namespace Tiramisu.Warmup

open Protocol Extents Transition Go List Option AList Writes Program

variable {cfg : Config} {w u v : World} {path : String}
variable {ino h : ℕ} {p : String}

/-- The path of a head file. -/
def Config.IsHead (cfg : Config) (path : String) : Prop := ∃ hash fileID, path = cfg.filePath hash fileID

def Config.IsTail (cfg : Config) (path : String) : Prop :=
  ∃ hash fileID, path = cfg.tailPath hash fileID

def World.Open (w : World) (h ino : ℕ) : Prop :=
  ∃ ch, w.cachedHandles[h]? = some ch ∧ ch.opened = true ∧ ch.ino = ino

structure Sound (cfg : Config) (w : World) : Prop where
  handle : ∀ {path h}, w.handles.lookup path = some h →
    ∃ ino, w.names.lookup path = some ino ∧ w.Open h ino
  named : ∀ {path ino}, w.names.lookup path = some ino → ino < w.inodes.length
  single : ∀ {path path' ino}, w.names.lookup path = some ino → w.names.lookup path' = some ino →
    path = path'
  size : ∀ {path e}, w.sizeCache.lookup path = some e →
    path ∈ w.names ∧ e.size ≤ w.sizeAt path
  dense : ∀ {path ino f}, cfg.IsHead path → w.names.lookup path = some ino →
    w.inodes[ino]? = some f → f.file.Dense .processWrite

lemma sizeAt_nonneg : 0 ≤ w.sizeAt path := by
  unfold World.sizeAt
  cases (w.names.lookup path).bind (w.inodes[·]?) with
  | none => exact le_rfl
  | some f => exact Int.natCast_nonneg _

lemma sizeAt_of_lookup {f : Inode} (hn : w.names.lookup path = some ino)
    (hf : w.inodes[ino]? = some f) : w.sizeAt path = f.file.bytes.length := by
  simp [World.sizeAt, hn, hf]

lemma sizeAt_of_not_named (hn : w.names.lookup path = none) : w.sizeAt path = 0 := by
  simp [World.sizeAt, hn]

/-! ### What the single changes keep -/

/-- Every name has a file of its own. -/
structure Numbered (w : World) : Prop where
  named : ∀ {path ino}, w.names.lookup path = some ino → ino < w.inodes.length
  single : ∀ {path path' ino}, w.names.lookup path = some ino → w.names.lookup path' = some ino →
    path = path'

section

variable (hn : w.names.lookup path = none)

include hn

lemma create_eq (now : ℤ) :
    w.create path now = World.newHandle { w with
      names := w.names.insert path w.inodes.length
      inodes := w.inodes ++ [⟨.empty, now⟩] } w.inodes.length := by
  simp only [World.create, hn]

lemma create_new (now : ℤ) :
    (w.create path now).2.names.lookup path = some w.inodes.length ∧
      (w.create path now).2.inodes[w.inodes.length]? = some ⟨.empty, now⟩ := by
  rw [create_eq hn]
  exact ⟨lookup_insert _, by simp [World.newHandle]⟩

lemma of_create {now : ℤ} (hp : (w.create path now).2.names.lookup p = some ino) :
    p = path ∧ w.inodes.length = ino ∨ w.names.lookup p = some ino := by
  rw [create_eq hn] at hp
  exact (of_insert hp).imp_right And.right

end

lemma sizeAt_erase (hn : u.names = w.names.erase path) (hi : u.inodes = w.inodes)
    (hp : p ≠ path) : u.sizeAt p = w.sizeAt p := by
  rw [World.sizeAt, World.sizeAt, hn, hi, lookup_erase_ne hp]

namespace Numbered

lemma create_old (h : Numbered w) (hn : w.names.lookup path = none) (now : ℤ)
    (hp : w.names.lookup p = some ino) : (w.create path now).2.names.lookup p = some ino ∧
      (w.create path now).2.inodes[ino]? = w.inodes[ino]? := by
  rw [create_eq hn]
  refine ⟨(lookup_insert_ne ?_).trans hp, getElem?_append_left (h.named hp)⟩
  rintro rfl
  cases hn.symm.trans hp

lemma create (h : Numbered w) (hn : w.names.lookup path = none) (now : ℤ) :
    Numbered (w.create path now).2 := by
  refine ⟨fun {p ino} hp => ?_, fun {p p' ino} hp hp' => ?_⟩
  · have hlen : (w.create path now).2.inodes.length = w.inodes.length + 1 := by
      rw [create_eq hn]
      simp [World.newHandle]
    rcases of_create hn hp with ⟨-, rfl⟩ | hp
    · omega
    · have := h.named hp
      omega
  · rcases of_create hn hp with ⟨rfl, rfl⟩ | hp <;> rcases of_create hn hp' with ⟨hpp', hino⟩ | hp'
    · exact hpp'.symm
    · exact absurd (h.named hp') (lt_irrefl _)
    · subst hino
      exact absurd (h.named hp) (lt_irrefl _)
    · exact h.single hp hp'

/-- A new file is empty, and the others are as long as they were. -/
lemma sizeAt_create (h : Numbered w) (hn : w.names.lookup path = none) (now : ℤ) (p : String) :
    (w.create path now).2.sizeAt p = w.sizeAt p := by
  cases hp : w.names.lookup p with
  | some ino =>
    obtain ⟨hname, hfile⟩ := h.create_old hn now hp
    rw [World.sizeAt, World.sizeAt, hname, hp, bind_some, bind_some, hfile]
  | none =>
    rw [sizeAt_of_not_named hp]
    cases hp' : (w.create path now).2.names.lookup p with
    | none => exact sizeAt_of_not_named hp'
    | some ino =>
      rcases of_create hn hp' with ⟨-, rfl⟩ | hp'
      · rw [sizeAt_of_lookup hp' (create_new hn now).2]
        rfl
      · cases hp.symm.trans hp'

/-- One file is replaced. -/
lemma sizeAt_set (h : Numbered w) (hino : w.names.lookup path = some ino) (g : Inode) :
    World.sizeAt { w with inodes := w.inodes.set ino g } path = g.file.bytes.length ∧
      ∀ p, p ≠ path → World.sizeAt { w with inodes := w.inodes.set ino g } p = w.sizeAt p := by
  refine ⟨sizeAt_of_lookup (w := { w with inodes := _ }) hino
    (getElem?_set_self (h.named hino)), fun p hp => ?_⟩
  cases hn : w.names.lookup p with
  | none => simp [World.sizeAt, hn]
  | some ino' =>
    have hne : ino ≠ ino' := by
      rintro rfl
      exact hp (h.single hn hino)
    rw [World.sizeAt, World.sizeAt, hn, bind_some, bind_some,
      getElem?_set_ne hne]

lemma statPath (h : Numbered w) (path : String) :
    path ∈ w.names ∧ w.statPath path = .size (w.sizeAt path) ∨
      w.names.lookup path = none ∧ w.statPath path = .notExist := by
  unfold World.statPath
  cases hn : w.names.lookup path with
  | none => exact .inr ⟨rfl, rfl⟩
  | some ino =>
    have hf : w.inodes[ino]? = some _ := getElem?_eq_getElem (h.named hn)
    rw [sizeAt_of_lookup hn hf, bind_some, hf]
    exact .inl ⟨mem_iff.mpr ⟨ino, hn⟩, rfl⟩

lemma lookup_of_notExist (h : Numbered w) {path : String} (hn : w.statPath path = .notExist) :
    w.names.lookup path = none := by
  rcases h.statPath path with ⟨-, hsize⟩ | ⟨hnone, -⟩
  · cases hn.symm.trans hsize
  · exact hnone

end Numbered

lemma open_newHandle {ino' : ℕ} (ho : w.Open h ino) : (w.newHandle ino').2.Open h ino := by
  obtain ⟨ch, hch, hopen⟩ := ho
  exact ⟨ch, Places.join hch, hopen⟩

namespace Sound

lemma numbered (h : Sound cfg w) : Numbered w := ⟨h.named, h.single⟩

/-- Handles or cached sizes go, or nothing that is looked at changes. -/
lemma shrinks (h : Sound cfg w) (hn : u.names = w.names) (hi : u.inodes = w.inodes)
    (hs : ∀ p e, u.sizeCache.lookup p = some e → w.sizeCache.lookup p = some e)
    (hh : ∀ p k, u.handles.lookup p = some k → w.handles.lookup p = some k ∧
      ∀ ino, w.Open k ino → u.Open k ino) : Sound cfg u := by
  refine ⟨fun {p k} hk => ?_, ?_, ?_, fun {p e} he => ?_, ?_⟩
  · obtain ⟨hk', hopen⟩ := hh p k hk
    obtain ⟨ino, hino, ho⟩ := h.handle hk'
    exact ⟨ino, hn ▸ hino, hopen ino ho⟩
  · rw [hn, hi]
    exact h.named
  · rw [hn]
    exact h.single
  · have hsize : u.sizeAt p = w.sizeAt p := by rw [World.sizeAt, World.sizeAt, hn, hi]
    rw [hn, hsize]
    exact h.size (hs p e he)
  · rw [hn, hi]
    exact h.dense

/-- No two paths share a handle. -/
lemma handle_inj (h : Sound cfg w) {p' : String} {k : ℕ} (hp : w.handles.lookup p = some k)
    (hp' : w.handles.lookup p' = some k) : p = p' := by
  obtain ⟨ino, hino, ch, hch, -, rfl⟩ := h.handle hp
  obtain ⟨ino', hino', ch', hch', -, rfl⟩ := h.handle hp'
  cases hch.symm.trans hch'
  exact h.single hino hino'

lemma storeSize (h : Sound cfg w) {e : SizeEntry} (hmem : path ∈ w.names)
    (hle : e.size ≤ w.sizeAt path) :
    Sound cfg { w with sizeCache := w.sizeCache.insert path e } := by
  refine ⟨h.handle, h.named, h.single, fun {p e'} he' => ?_, h.dense⟩
  rcases of_insert he' with ⟨rfl, rfl⟩ | ⟨-, he'⟩
  · exact ⟨hmem, hle⟩
  · exact h.size he'

lemma storeHandle (h : Sound cfg w) {k : ℕ} (hn : w.names.lookup path = some ino)
    (hk : w.Open k ino) : Sound cfg { w with handles := w.handles.insert path k } := by
  refine ⟨fun {p k'} hk' => ?_, h.named, h.single, h.size, h.dense⟩
  rcases of_insert hk' with ⟨rfl, rfl⟩ | ⟨-, hk'⟩
  · exact ⟨ino, hn, hk⟩
  · exact h.handle hk'

/-- A file goes once nothing is kept about it. -/
lemma remove (h : Sound cfg w) (hh : w.handles.lookup path = none)
    (hs : w.sizeCache.lookup path = none) :
    Sound cfg { w with names := w.names.erase path } := by
  have hname : ∀ {p ino}, (w.names.erase path).lookup p = some ino → w.names.lookup p = some ino :=
    fun hp => (of_erase hp).2
  refine ⟨fun {p k} hk => ?_, fun hp => h.named (hname hp),
    fun hp hp' => h.single (hname hp) (hname hp'), fun {p e} he => ?_,
    fun hhead hp => h.dense hhead (hname hp)⟩
  · have hne : p ≠ path := by
      rintro rfl
      cases hh.symm.trans hk
    obtain ⟨ino, hino, hopen⟩ := h.handle hk
    exact ⟨ino, (lookup_erase_ne hne).trans hino, hopen⟩
  · have hne : p ≠ path := by
      rintro rfl
      cases hs.symm.trans he
    obtain ⟨hmem, hle⟩ := h.size he
    refine ⟨mem_erase.mpr ⟨hne, hmem⟩, ?_⟩
    exact hle.trans (sizeAt_erase (u := { w with names := _ }) rfl rfl hne).ge

/-- A new file is empty, and nothing was known about its path. -/
lemma create (h : Sound cfg w) (hn : w.names.lookup path = none) (now : ℤ) :
    Sound cfg (w.create path now).2 ∧
      (w.create path now).2.names.lookup path = some w.inodes.length ∧
      (w.create path now).2.Open (w.create path now).1 w.inodes.length ∧
      (w.create path now).2.sizeAt path = 0 := by
  have hnum := h.numbered
  obtain ⟨hself, hnew⟩ := create_new hn now
  refine ⟨⟨fun {p k} hk => ?_, (hnum.create hn now).named, (hnum.create hn now).single,
    fun {p e} he => ?_, fun {p ino f} hhead hp hf => ?_⟩, hself, ?_,
    (hnum.sizeAt_create hn now path).trans (sizeAt_of_not_named hn)⟩
  · rw [create_eq hn] at hk
    obtain ⟨ino, hino, hopen⟩ := h.handle hk
    refine ⟨ino, (hnum.create_old hn now hino).1, ?_⟩
    rw [create_eq hn]
    exact open_newHandle hopen
  · rw [create_eq hn] at he
    obtain ⟨hmem, hle⟩ := h.size he
    obtain ⟨ino, hino⟩ := mem_iff.mp hmem
    exact ⟨mem_iff.mpr ⟨ino, (hnum.create_old hn now hino).1⟩,
      hle.trans (hnum.sizeAt_create hn now p).ge⟩
  · rcases of_create hn hp with ⟨-, rfl⟩ | hp
    · cases hnew.symm.trans hf
      exact File.dense_empty
    · exact h.dense hhead hp ((hnum.create_old hn now hp).2.symm.trans hf)
  · rw [create_eq hn]
    exact ⟨⟨w.inodes.length, 0, false, true⟩, by simp [World.newHandle], rfl, rfl⟩

/-- The file of a path grows, and stays dense if it is a head file. -/
lemma setInode (h : Sound cfg w) {f g : Inode} (hino : w.names.lookup path = some ino)
    (hf : w.inodes[ino]? = some f) (hgrow : f.file.bytes.length ≤ g.file.bytes.length)
    (hdense : cfg.IsHead path → g.file.Dense .processWrite) :
    Sound cfg { w with inodes := w.inodes.set ino g } ∧
      World.sizeAt { w with inodes := w.inodes.set ino g } path = g.file.bytes.length := by
  obtain ⟨hsize, hother⟩ := h.numbered.sizeAt_set hino g
  refine ⟨⟨h.handle, fun hp => ?_, h.single, fun {p e} he => ?_, fun {p ino' f'} hhead hp hf' => ?_⟩,
    hsize⟩
  · rw [length_set]
    exact h.named hp
  · obtain ⟨hmem, hle⟩ := h.size he
    refine ⟨hmem, hle.trans ?_⟩
    by_cases hp : p = path
    · subst hp
      rw [hsize, sizeAt_of_lookup hino hf]
      exact Int.ofNat_le.mpr hgrow
    · exact (hother p hp).ge
  · rcases Places.of_set hf' with ⟨rfl, rfl⟩ | ⟨-, hf'⟩
    · obtain rfl := h.single hino hp
      exact hdense hhead
    · exact h.dense hhead hp hf'

lemma inodeOf (h : Sound cfg w) {k : ℕ} (hk : w.handles.lookup path = some k) :
    ∃ ino f, w.names.lookup path = some ino ∧ w.inodes[ino]? = some f ∧
      w.inodeOf k = some (ino, f) ∧ path ∈ w.names := by
  obtain ⟨ino, hino, ch, hch, hopen, rfl⟩ := h.handle hk
  have hf : w.inodes[ch.ino]? = some _ := getElem?_eq_getElem (h.named hino)
  exact ⟨ch.ino, _, hino, hf, by simp [World.inodeOf, hch, hopen, hf],
    mem_iff.mpr ⟨_, hino⟩⟩

/-- A write through the handle of a path.  Head files are written by
`processWrite`, inside the file or at its end. -/
lemma writeFile (h : Sound cfg w) (c : Choice) (writer : Writer) {k : ℕ} (data : List UInt8)
    (off : ℤ) (hk : w.handles.lookup path = some k)
    (hhead : cfg.IsHead path → writer = .processWrite ∧ off ≤ w.sizeAt path) :
    Sound cfg (w.writeFile c writer k data off).2 ∧
      path ∈ (w.writeFile c writer k data off).2.names ∧
      w.sizeAt path ≤ (w.writeFile c writer k data off).2.sizeAt path ∧
      ((w.writeFile c writer k data off).1.1 ≠ 0 ∨ off ≤ w.sizeAt path →
        off + (w.writeFile c writer k data off).1.1
          ≤ (w.writeFile c writer k data off).2.sizeAt path) := by
  obtain ⟨ino, f, hino, hf, hinode, hmem⟩ := h.inodeOf hk
  have hsize := sizeAt_of_lookup hino hf
  unfold World.writeFile
  rw [hinode]
  split_ifs with hneg
  · refine ⟨h, hmem, le_rfl, fun _ => ?_⟩
    simp only [Nat.cast_zero]
    omega
  · have hdense : cfg.IsHead path →
        (f.file.write 0 writer off.toNat (World.sent c data)).Dense .processWrite := by
      intro hp
      obtain ⟨rfl, hoff⟩ := hhead hp
      exact (h.dense hp hino hf).write (by omega)
    obtain ⟨hsound, hsize'⟩ := h.setInode
      (g := ⟨f.file.write 0 writer off.toNat (World.sent c data), c.now⟩) hino hf
      File.length_write_le hdense
    refine ⟨hsound, hmem, ?_, fun hor => ?_⟩
    · exact (hsize.le.trans (Int.ofNat_le.mpr File.length_write_le)).trans hsize'.ge
    apply le_trans _ hsize'.ge
    have hle : off.toNat + (World.sent c data).length
        ≤ (f.file.write 0 writer off.toNat (World.sent c data)).bytes.length :=
      File.le_length_write (hor.imp (by simp) (by omega))
    dsimp only
    omega

end Sound

/-! ### Rules -/

/-- The files are untouched. -/
structure SameFiles (w v : World) : Prop where
  names : v.names = w.names
  inodes : v.inodes = w.inodes

lemma SameFiles.sizeAt (h : SameFiles w v) (path : String) : v.sizeAt path = w.sizeAt path := by
  rw [World.sizeAt, World.sizeAt, h.names, h.inodes]

lemma SameFiles.trans (h : SameFiles w u) (h' : SameFiles u v) : SameFiles w v :=
  ⟨h'.names.trans h.names, h'.inodes.trans h.inodes⟩

/-- Coverage and tail files are untouched. -/
structure TailFrame (cfg : Config) (w u : World) : Prop where
  coverage : u.tailCoverage = w.tailCoverage
  ranges : u.tailRanges = w.tailRanges
  names : ∀ {p}, cfg.IsTail p → u.names.lookup p = w.names.lookup p
  inodes : ∀ {p ino}, cfg.IsTail p → w.names.lookup p = some ino → u.inodes[ino]? = w.inodes[ino]?

lemma TailFrame.refl (cfg : Config) (w : World) : TailFrame cfg w w :=
  ⟨rfl, rfl, fun _ => rfl, fun _ _ => rfl⟩

lemma SameFiles.tailFrame (h : SameFiles w u) (hc : u.tailCoverage = w.tailCoverage)
    (hr : u.tailRanges = w.tailRanges) : TailFrame cfg w u where
  coverage := hc
  ranges := hr
  names _ := congrArg _ h.names
  inodes _ _ := congrArg (·[_]?) h.inodes

/-- Operations that leave coverage and tail files alone. -/
def Op.OffTails : Op → Prop
  | .loadOrStoreTail _ | .deleteTail _ | .addSpan _ _ _ | .createFile _ | .writeAt _ _ _ _
  | .remove _ | .restart => False
  | _ => True

lemma lookup_insert_of_not_isTail {names : GoMap String ℕ} {ino : ℕ} {p : String}
    (hpath : ¬ cfg.IsTail path) (hp : cfg.IsTail p) :
    (names.insert path ino).lookup p = names.lookup p := by
  apply lookup_insert_ne
  rintro rfl
  exact hpath hp

/-- A file that is not a tail is created or truncated. -/
lemma tailFrame_create (hw : Sound cfg w) (hpath : ¬ cfg.IsTail path) (now : ℤ) :
    TailFrame cfg w (w.create path now).2 := by
  unfold World.create
  cases hn : w.names.lookup path with
  | some ino =>
    refine ⟨rfl, rfl, fun _ => rfl, fun {p ino'} hp hino' => ?_⟩
    apply getElem?_set_ne
    rintro rfl
    obtain rfl := hw.single hn hino'
    exact hpath hp
  | none =>
    exact ⟨rfl, rfl, lookup_insert_of_not_isTail hpath, fun _ hino' =>
      getElem?_append_left (hw.named hino')⟩

lemma tailFrame_remove (hpath : ¬ cfg.IsTail path) :
    TailFrame cfg w { w with names := w.names.erase path } := by
  refine ⟨rfl, rfl, fun {p} hp => ?_, fun _ _ => rfl⟩
  apply lookup_erase_ne
  rintro rfl
  exact hpath hp

lemma frame_of_offTails {o : Op} {c : Choice} {r : o.Res} (ho : o.OffTails)
    (hex : exec cfg o c w = some (r, u)) : TailFrame cfg w u := by
  cases o with
  | loadOrStoreHandle path h | openFile path =>
    dsimp only [exec] at hex
    split at hex <;> cases hex <;> exact SameFiles.tailFrame ⟨rfl, rfl⟩ rfl rfl
  | lock =>
    dsimp only [exec] at hex
    split_ifs at hex
    cases hex
    exact SameFiles.tailFrame ⟨rfl, rfl⟩ rfl rfl
  | loadOrStoreTail | deleteTail | addSpan | createFile | writeAt | remove | restart =>
    exact absurd ho id
  | _ =>
    cases hex
    exact SameFiles.tailFrame ⟨rfl, rfl⟩ rfl rfl

/-- A write to a file that is not a tail. -/
lemma tailFrame_writeFile (hw : Sound cfg w) (c : Choice) (writer : Writer) {k : ℕ}
    (data : List UInt8) (off : ℤ) (hpath : ¬ cfg.IsTail path) (hk : w.handles.lookup path = some k) :
    TailFrame cfg w (w.writeFile c writer k data off).2 := by
  obtain ⟨ino, f, hino, hf, hinode, -⟩ := hw.inodeOf hk
  unfold World.writeFile
  rw [hinode]
  split_ifs
  · exact .refl cfg w
  refine ⟨rfl, rfl, fun _ => rfl, fun {p ino'} hp hino' => ?_⟩
  apply getElem?_set_ne
  rintro rfl
  obtain rfl := hw.single hino hino'
  exact hpath hp

lemma not_isTail_of_hasSuffix (h : hasSuffix path warmupSuffix = true) : ¬ cfg.IsTail path := by
  rintro ⟨hash, fileID, rfl⟩
  obtain ⟨start, heq⟩ := isSuffixOf_iff_suffix.mp h
  have hlast := congrArg (fun s : List Char => s.reverse.head?) heq
  simp [Config.tailPath, Config.join, String.toList_append, tailSuffix, warmupSuffix] at hlast

lemma hasSuffix_filePath (cfg : Config) (hash : String) (fileID : ℤ) :
    hasSuffix (cfg.filePath hash fileID) warmupSuffix = true := by
  unfold Config.filePath Config.join
  rw [← String.append_assoc]
  exact hasSuffix_append _ _

lemma not_isTail_filePath (hash : String) (fileID : ℤ) : ¬ cfg.IsTail (cfg.filePath hash fileID) :=
  not_isTail_of_hasSuffix (hasSuffix_filePath cfg hash fileID)

/-- Nothing that `Sound` looks at has changed, nor what is covered. -/
structure Frame (w v : World) : Prop where
  files : SameFiles w v
  handles : v.handles = w.handles
  sizes : v.sizeCache = w.sizeCache
  coverage : v.tailCoverage = w.tailCoverage
  opened : ∀ h ino, w.Open h ino → v.Open h ino

lemma Frame.refl (w : World) : Frame w w := ⟨⟨rfl, rfl⟩, rfl, rfl, rfl, fun _ _ h => h⟩

lemma Frame.trans (h : Frame w u) (h' : Frame u v) : Frame w v :=
  ⟨h.files.trans h'.files, h'.handles.trans h.handles, h'.sizes.trans h.sizes,
    h'.coverage.trans h.coverage, fun k ino hk => h'.opened k ino (h.opened k ino hk)⟩

lemma Sound.frame (h : Sound cfg w) (hf : Frame w v) : Sound cfg v :=
  h.shrinks hf.files.names hf.files.inodes (fun _ _ he => hf.sizes ▸ he)
    fun _ k hk => ⟨hf.handles ▸ hk, hf.opened k⟩

/-- Operations that touch neither files nor handles, cached sizes or coverage. -/
def Op.Mild : Op → Prop
  | .now | .loadSize _ | .loadMissing _ | .storeMissing _ _ | .deleteMissing _ | .loadHandle _
  | .rangeHandles | .loadTail _ | .spans _ | .touch _ _ | .lastUsed _ | .markClosed _ | .isClosed _
  | .loadTotal | .storeTotal _ | .addTotal _ | .lock | .unlock | .stat _ | .readAt _ _ _ | .readDir
  | .info _ => True
  | _ => False

lemma Op.Mild.offTails {o : Op} (h : o.Mild) : o.OffTails := by
  cases o <;> first | exact trivial | exact absurd h id

lemma open_modifyHandle {f : CachedHandle → CachedHandle} (hino : ∀ ch, (f ch).ino = ch.ino)
    (hopen : ∀ ch, (f ch).opened = ch.opened) {k : ℕ} (ho : w.Open h ino) :
    (w.modifyHandle k f).Open h ino := by
  obtain ⟨ch, hch, hopened, rfl⟩ := ho
  by_cases hk : k = h
  · subst hk
    exact ⟨f ch, by simp [World.modifyHandle, hch], (hopen ch).trans hopened, hino ch⟩
  · exact ⟨ch, by simp [World.modifyHandle, hk, hch], hopened, rfl⟩

lemma frame_of_mild {o : Op} {c : Choice} {r : o.Res} (ho : o.Mild)
    (hex : exec cfg o c w = some (r, u)) : Frame w u := by
  cases o with
  | touch h time =>
    cases hex
    exact ⟨⟨rfl, rfl⟩, rfl, rfl, rfl, fun _ _ =>
      open_modifyHandle (f := ({ · with lastUsedNano := time })) (fun _ => rfl) fun _ => rfl⟩
  | markClosed h =>
    cases hex
    exact ⟨⟨rfl, rfl⟩, rfl, rfl, rfl, fun _ _ =>
      open_modifyHandle (f := ({ · with closed := true })) (fun _ => rfl) fun _ => rfl⟩
  | lock =>
    dsimp only [exec] at hex
    split at hex <;> cases hex
    exact ⟨⟨rfl, rfl⟩, rfl, rfl, rfl, fun _ _ h => h⟩
  | storeSize | deleteSize | storeHandle | loadOrStoreHandle | takeHandle | loadOrStoreTail
  | deleteTail | addSpan | openFile | createFile | close | writeAt | remove | restart =>
    exact absurd ho id
  | _ =>
    cases hex
    exact ⟨⟨rfl, rfl⟩, rfl, rfl, rfl, fun _ _ h => h⟩

/-- What may be kept along with `Sound` by a call that does not write tails. -/
class Companion (cfg : Config) (J : World → Prop) : Prop where
  frame : ∀ {w u}, TailFrame cfg w u → J w → J u
  deleteTail : ∀ {w path}, J w → J { w with tailCoverage := w.tailCoverage.erase path }
  remove : ∀ {w path}, w.tailCoverage.lookup path = none → J w →
    J { w with names := w.names.erase path }
  restart : ∀ {w}, J w → J w.rebooted

instance companion_true : Companion cfg fun _ => True :=
  ⟨fun _ _ => trivial, fun _ => trivial, fun _ _ => trivial, fun _ => trivial⟩

/-- A call that runs alone keeps `Sound` and `J` at every operation and ends in `Q`. -/
abbrev Spec (cfg : Config) (J : World → Prop) {α : Type} (p : Prog α) (w : World)
    (Q : α → World → Prop) : Prop :=
  wp (machine cfg) (.alone (fun w => Sound cfg w ∧ J w) fun _ _ _ => True) Q p w

variable {J : World → Prop}

section Rules

variable {α β : Type} {Q Q' : α → World → Prop}

lemma spec_perform {o : Op} {k : o.Res → Prog α} (h : Sound cfg w → J w → ∀ c r u,
    exec cfg o c w = some (r, u) → (Sound cfg u ∧ J u) ∧ Spec cfg J (k r) u Q) :
    Spec cfg J (.perform o k) w Q := by
  rintro v rfl ⟨hw, hj⟩ c - r u hex
  obtain ⟨hu, hk⟩ := h hw hj c r u hex
  exact ⟨hu, trivial, hk⟩

lemma spec_of_sound {p : Prog α} (h : Sound cfg w → Spec cfg J p w Q) : Spec cfg J p w Q :=
  wp_of_rely fun v hv hi => by
    obtain rfl : w = v := hv
    exact h hi.1

/-- A new file, where there was none. -/
lemma spec_createFile {k : Option ℕ → Prog α} (hn : w.names.lookup path = none)
    (hJ : Sound cfg w → J w → ∀ now, J (w.create path now).2)
    (hnone : Spec cfg J (k none) w Q)
    (hsome : ∀ h ino u, u.names.lookup path = some ino → u.Open h ino → u.sizeAt path = 0 →
      Spec cfg J (k (some h)) u Q) : Spec cfg J (.perform (.createFile path) k) w Q :=
  spec_perform fun hw hj c r u hex => by
    dsimp only [exec] at hex
    split_ifs at hex
    · cases hex
      exact ⟨⟨hw, hj⟩, hnone⟩
    · cases hex
      obtain ⟨hsound, hino, hopen, hsize⟩ := hw.create hn c.now
      exact ⟨⟨hsound, hJ hw hj _⟩, hsome _ _ _ hino hopen hsize⟩

variable [Companion cfg J]

lemma spec_off {o : Op} {k : o.Res → Prog α} (ho : o.OffTails)
    (h : Sound cfg w → ∀ c r u, exec cfg o c w = some (r, u) →
      Sound cfg u ∧ Spec cfg J (k r) u Q) : Spec cfg J (.perform o k) w Q :=
  spec_perform fun hw hj c r u hex => by
    obtain ⟨hu, hk⟩ := h hw c r u hex
    exact ⟨⟨hu, Companion.frame (frame_of_offTails ho hex) hj⟩, hk⟩

lemma spec_mild {o : Op} {k : o.Res → Prog α} (ho : o.Mild)
    (h : ∀ c r u, exec cfg o c w = some (r, u) → Frame w u → Spec cfg J (k r) u Q) :
    Spec cfg J (.perform o k) w Q :=
  spec_off ho.offTails fun hw c r u hex =>
    ⟨hw.frame (frame_of_mild ho hex), h c r u hex (frame_of_mild ho hex)⟩

lemma spec_of_uses {p : Prog α} (hp : p.Only Op.Mild) :
    Spec cfg J p w fun _ v => Frame w v := by
  refine wp_mono (fun _ _ h => h.2) (wp_of_uses (I := Frame w) hp ?_ ?_ (Frame.refl w))
  · rintro v _ hv rfl -
    exact hv
  · intro o c v r u ho _ hsound hv hex
    have hf := frame_of_mild ho hex
    exact ⟨⟨hsound.1.frame hf, Companion.frame (frame_of_offTails ho.offTails hex) hsound.2⟩,
      trivial, hv.trans hf⟩

lemma spec_now {k : ℤ → Prog α} (h : ∀ t, Spec cfg J (k t) w Q) : Spec cfg J (.perform .now k) w Q :=
  spec_off trivial fun hw c r u hex => by
    cases hex
    exact ⟨hw, h _⟩

lemma spec_loadSize {k : Option SizeEntry → Prog α}
    (h : Spec cfg J (k (w.sizeCache.lookup path)) w Q) :
    Spec cfg J (.perform (.loadSize path) k) w Q :=
  spec_off trivial fun hw c r u hex => by
    cases hex
    exact ⟨hw, h⟩

lemma spec_loadHandle {k : Option ℕ → Prog α} (h : Spec cfg J (k (w.handles.lookup path)) w Q) :
    Spec cfg J (.perform (.loadHandle path) k) w Q :=
  spec_off trivial fun hw c r u hex => by
    cases hex
    exact ⟨hw, h⟩

/-- `os.Stat` fails or tells the truth. -/
lemma spec_stat {k : StatResult → Prog α}
    (hsize : path ∈ w.names → Spec cfg J (k (.size (w.sizeAt path))) w Q)
    (hnone : w.names.lookup path = none → Spec cfg J (k .notExist) w Q)
    (hfail : Spec cfg J (k .failed) w Q) : Spec cfg J (.perform (.stat path) k) w Q :=
  spec_off trivial fun hw c r u hex => by
    cases hex
    refine ⟨hw, ?_⟩
    split_ifs
    · exact hfail
    rcases hw.numbered.statPath path with ⟨hmem, hstat⟩ | ⟨hn, hstat⟩
    · rw [hstat]
      exact hsize hmem
    · rw [hstat]
      exact hnone hn

lemma spec_storeSize {e : SizeEntry} {k : Unit → Prog α} (hmem : path ∈ w.names)
    (hle : e.size ≤ w.sizeAt path)
    (h : Spec cfg J (k ()) { w with sizeCache := w.sizeCache.insert path e } Q) :
    Spec cfg J (.perform (.storeSize path e) k) w Q :=
  spec_off trivial fun hw c r u hex => by
    cases hex
    exact ⟨hw.storeSize hmem hle, h⟩

lemma spec_deleteSize {k : Unit → Prog α}
    (h : Spec cfg J (k ()) { w with sizeCache := w.sizeCache.erase path } Q) :
    Spec cfg J (.perform (.deleteSize path) k) w Q :=
  spec_off trivial fun hw c r u hex => by
    cases hex
    exact ⟨hw.shrinks rfl rfl (fun p e he => (of_erase he).2) fun p k hk =>
      ⟨hk, fun _ ho => ho⟩, h⟩

lemma spec_deleteTail {k : Unit → Prog α}
    (h : Spec cfg J (k ()) { w with tailCoverage := w.tailCoverage.erase path } Q) :
    Spec cfg J (.perform (.deleteTail path) k) w Q :=
  spec_perform fun hw hj c r u hex => by
    cases hex
    exact ⟨⟨⟨hw.handle, hw.named, hw.single, hw.size, hw.dense⟩, Companion.deleteTail cfg hj⟩, h⟩

/-- A path whose handle, size and coverage are gone may be removed; the files stay as
they are otherwise. -/
lemma spec_remove {k : Bool → Prog α} (hh : w.handles.lookup path = none)
    (hs : w.sizeCache.lookup path = none)
    (hc : ¬ cfg.IsTail path ∨ w.tailCoverage.lookup path = none)
    (h : ∀ r u, u.handles = w.handles → u.sizeCache = w.sizeCache →
      u.tailCoverage = w.tailCoverage → u.inodes = w.inodes →
      (∀ p, w.names.lookup p = none → u.names.lookup p = none) → Spec cfg J (k r) u Q) :
    Spec cfg J (.perform (.remove path) k) w Q :=
  spec_perform fun hw hj c r u hex => by
    dsimp only [exec] at hex
    split_ifs at hex with hfail
    · cases hex
      exact ⟨⟨hw, hj⟩, h _ _ rfl rfl rfl rfl fun _ hp => hp⟩
    cases hex
    refine ⟨⟨hw.remove hh hs, ?_⟩, h _ _ rfl rfl rfl rfl fun p hp => ?_⟩
    · rcases hc with hpath | hnone
      · exact Companion.frame (tailFrame_remove hpath) hj
      · exact Companion.remove cfg hnone hj
    by_cases hpp : p = path
    · subst hpp
      exact lookup_erase _ _
    · exact (lookup_erase_ne hpp).trans hp

lemma frame_newHandle : Frame w (w.newHandle ino).2 :=
  ⟨⟨rfl, rfl⟩, rfl, rfl, rfl, fun _ _ => open_newHandle⟩

lemma spec_openFile {k : Option ℕ → Prog α} (hnone : Spec cfg J (k none) w Q)
    (hsome : ∀ h ino u, Frame w u → w.names.lookup path = some ino → u.Open h ino →
      Spec cfg J (k (some h)) u Q) : Spec cfg J (.perform (.openFile path) k) w Q :=
  spec_off trivial fun hw c r u hex => by
    dsimp only [exec] at hex
    cases hino : (if c.fails then none else w.names.lookup path) with
    | none =>
      rw [hino] at hex
      cases hex
      exact ⟨hw, hnone⟩
    | some ino =>
      rw [hino] at hex
      cases hex
      split_ifs at hino
      exact ⟨hw.frame frame_newHandle, hsome _ ino _ frame_newHandle hino
        ⟨⟨ino, 0, false, true⟩, by simp [World.newHandle], rfl, rfl⟩⟩

lemma spec_storeHandle {k : Unit → Prog α} (hino : w.names.lookup path = some ino)
    (ho : w.Open h ino) (hk : Spec cfg J (k ()) { w with handles := w.handles.insert path h } Q) :
    Spec cfg J (.perform (.storeHandle path h) k) w Q :=
  spec_off trivial fun hw c r u hex => by
    cases hex
    exact ⟨hw.storeHandle hino ho, hk⟩

lemma spec_loadOrStoreHandle {k : Option ℕ → Prog α}
    (hn : w.handles.lookup path = none) (hino : w.names.lookup path = some ino) (ho : w.Open h ino)
    (hk : Spec cfg J (k none) { w with handles := w.handles.insert path h } Q) :
    Spec cfg J (.perform (.loadOrStoreHandle path h) k) w Q :=
  spec_off trivial fun hw c r u hex => by
    dsimp only [exec] at hex
    rw [hn] at hex
    cases hex
    exact ⟨hw.storeHandle hino ho, hk⟩

/-- The handle of a path is taken out of the map; nobody else has it. -/
lemma spec_takeHandle {k : Option ℕ → Prog α}
    (h : ∀ u, SameFiles w u → u.sizeCache = w.sizeCache → u.handles.lookup path = none →
      (∀ p, p ≠ path → u.handles.lookup p = w.handles.lookup p) →
      (∀ k, w.handles.lookup path = some k → (∀ p, u.handles.lookup p ≠ some k) ∧
        ∃ ino, w.names.lookup path = some ino ∧ u.Open k ino) →
      Spec cfg J (k (w.handles.lookup path)) u Q) :
    Spec cfg J (.perform (.takeHandle path) k) w Q :=
  spec_off trivial fun hw c r u hex => by
    cases hex
    have hother : ∀ p, p ≠ path → (w.handles.erase path).lookup p = w.handles.lookup p :=
      fun p hp => lookup_erase_ne hp
    refine ⟨hw.shrinks rfl rfl (fun _ _ he => he) fun p k hk =>
        ⟨(of_erase hk).2, fun _ ho => ho⟩,
      h _ ⟨rfl, rfl⟩ rfl (lookup_erase _ _) hother fun k hk => ⟨fun p hp => ?_, hw.handle hk⟩⟩
    obtain ⟨hne, hp⟩ := of_erase hp
    exact hne (hw.handle_inj hp hk)

/-- A handle that is kept nowhere is closed. -/
lemma spec_close {k : Unit → Prog α} (hfree : ∀ p, w.handles.lookup p ≠ some h)
    (hk : Spec cfg J (k ()) (w.modifyHandle h ({ · with opened := false })) Q) :
    Spec cfg J (.perform (.close h) k) w Q :=
  spec_off trivial fun hw c r u hex => by
    cases hex
    refine ⟨hw.shrinks rfl rfl (fun _ _ he => he) fun p k hp => ⟨hp, ?_⟩, hk⟩
    rintro ino ⟨ch, hch, hopen⟩
    have hne : h ≠ k := by
      rintro rfl
      exact hfree p hp
    exact ⟨ch, by simp [World.modifyHandle, hne, hch], hopen⟩

end Rules

variable [Companion cfg J]

/-! ### The methods -/

/-- The handle of a path, opened if there was none. -/
lemma spec_getHandle : Spec cfg J (getHandle path) w fun r v =>
    SameFiles w v ∧ v.sizeCache = w.sizeCache ∧ ∀ h, r = some h → v.handles.lookup path = some h := by
  refine spec_loadHandle ?_
  cases hh : w.handles.lookup path with
  | some h =>
    refine spec_now fun t => spec_mild trivial fun c r u _ hf => wp_alone_ret ⟨hf.files, hf.sizes, ?_⟩
    intro h' heq
    rw [hf.handles, hh, heq]
  | none =>
    refine spec_openFile (wp_alone_ret ⟨⟨rfl, rfl⟩, rfl, by simp⟩) fun h ino u hf hino ho => ?_
    refine spec_now fun t => spec_mild trivial fun c r v _ hf' => ?_
    have hf := hf.trans hf'
    refine spec_loadOrStoreHandle ((congrArg _ hf.handles).trans hh)
      ((congrArg _ hf.files.names).trans hino)
      (hf'.opened h ino ho) (wp_alone_ret ⟨⟨hf.files.names, hf.files.inodes⟩, hf.sizes, ?_⟩)
    intro h' heq
    rw [← heq]
    exact lookup_insert _

lemma spec_closeHandle : Spec cfg J (closeHandle path) w fun _ v =>
    SameFiles w v ∧ v.sizeCache = w.sizeCache ∧ v.handles.lookup path = none := by
  refine spec_takeHandle fun u hfiles hsizes hnone _ hown => ?_
  cases hh : w.handles.lookup path with
  | none => exact wp_alone_ret ⟨hfiles, hsizes, hnone⟩
  | some h =>
    refine spec_mild trivial fun c r v _ hf => spec_close (fun p => ?_) (wp_alone_ret ⟨?_, ?_, ?_⟩)
    · rw [hf.handles]
      exact (hown h hh).1 p
    · exact ⟨hf.files.names.trans hfiles.names, hf.files.inodes.trans hfiles.inodes⟩
    · exact hf.sizes.trans hsizes
    · exact (congrArg _ hf.handles).trans hnone

/-- Files may have gone, none has come or changed. -/
structure Evicted (w v : World) : Prop where
  inodes : v.inodes = w.inodes
  names : ∀ p, w.names.lookup p = none → v.names.lookup p = none

lemma Evicted.trans (h : Evicted w u) (h' : Evicted u v) : Evicted w v :=
  ⟨h'.inodes.trans h.inodes, fun p hp => h'.names p (h.names p hp)⟩

lemma SameFiles.evicted (h : SameFiles w v) : Evicted w v :=
  ⟨h.inodes, fun _ hp => (congrArg _ h.names).trans hp⟩

lemma spec_dropFile : Spec cfg J (dropFile path) w fun _ v => Evicted w v := by
  refine wp_then spec_closeHandle fun _ v hv => ?_
  obtain ⟨hfiles, hsizes, hnone⟩ := hv
  refine spec_deleteSize (spec_deleteTail ?_)
  refine spec_remove hnone (lookup_erase _ _) (.inr (lookup_erase _ _))
    fun r t _ _ _ hinodes hnames => wp_alone_ret ⟨hinodes.trans hfiles.inodes, fun p hp => ?_⟩
  exact hnames p ((congrArg _ hfiles.names).trans hp)

lemma uses_scanFiles {P : Op → Prop} (hinfo : ∀ path, P (.info path)) (names : List String) :
    (scanFiles cfg names).Only P := by
  induction names with
  | nil => exact trivial
  | cons name names ih =>
    unfold scanFiles
    split_ifs
    · exact ⟨hinfo _, fun r => ih.bind fun _ _ => trivial⟩
    · exact ih

lemma spec_evictFiles (needed diskTotal : ℤ) (files : List WFile) :
    Spec cfg J (evictFiles cfg needed diskTotal files) w fun _ v => Evicted w v := by
  induction files generalizing w diskTotal with
  | nil => exact wp_alone_ret ⟨rfl, fun _ hp => hp⟩
  | cons f files ih =>
    unfold evictFiles
    split_ifs
    · exact wp_alone_ret ⟨rfl, fun _ hp => hp⟩
    · exact wp_then spec_dropFile fun _ _ hv => wp_mono (fun _ _ hu => hv.trans hu) (ih _)

lemma spec_enforceQuotaLocked (needed : ℤ) :
    Spec cfg J (enforceQuotaLocked cfg needed) w fun _ v => Evicted w v := by
  simp only [enforceQuotaLocked, op, op_bind]
  refine spec_mild trivial fun c total u _ hf => ?_
  split_ifs
  · exact wp_alone_ret hf.files.evicted
  refine spec_mild trivial fun c names u1 _ hf1 => wp_then
    (spec_of_uses (uses_scanFiles (fun _ => trivial) names)) fun files u2 hf2 => ?_
  refine spec_mild trivial fun c r u3 _ hf3 => ?_
  have hsame := ((hf.files.trans hf1.files).trans hf2.files).trans hf3.files
  split_ifs
  · exact wp_alone_ret hsame.evicted
  · refine wp_then (spec_evictFiles _ _ _) fun left u4 hev => ?_
    exact spec_mild trivial fun c r u5 _ hf5 =>
      wp_alone_ret ((hsame.evicted.trans hev).trans hf5.files.evicted)

/-- A new head file is empty, if it could be created at all. -/
lemma spec_startFile (hpath : ¬ cfg.IsTail path) (hn : w.names.lookup path = none) :
    Spec cfg J (startFile cfg path) w fun _ v => v.sizeAt path = 0 := by
  simp only [startFile, op, op_bind]
  refine spec_mild trivial fun c r u _ hf => wp_then (spec_enforceQuotaLocked _) fun _ u1 hev => ?_
  refine spec_mild trivial fun c r u2 _ hf2 => spec_mild trivial fun c r u3 _ hf3 => ?_
  have hnone : u3.names.lookup path = none :=
    ((((hf.files.evicted).trans hev).trans hf2.files.evicted).trans hf3.files.evicted).names path hn
  refine spec_createFile hnone (fun hw hj now => Companion.frame (tailFrame_create hw hpath now) hj)
    (wp_alone_ret (sizeAt_of_not_named hnone)) fun h ino u4 hino ho hsize => ?_
  refine spec_now fun t => spec_mild trivial fun c r u5 _ hf5 => ?_
  exact spec_storeHandle ((congrArg _ hf5.files.names).trans hino) (hf5.opened h ino ho)
    (wp_alone_ret ((hf5.files.sizeAt path).trans hsize))

/-- What `headSize` reports is covered by the file. -/
lemma spec_headSize : Spec cfg J (headSize path) w fun n v => SameFiles w v ∧ n ≤ v.sizeAt path := by
  refine spec_of_sound fun hw => spec_loadSize ?_
  cases hs : w.sizeCache.lookup path with
  | some e => exact wp_alone_ret ⟨⟨rfl, rfl⟩, (hw.size hs).2⟩
  | none =>
    exact spec_stat (fun _ => wp_alone_ret ⟨⟨rfl, rfl⟩, le_rfl⟩)
      (fun _ => wp_alone_ret ⟨⟨rfl, rfl⟩, sizeAt_nonneg⟩) (wp_alone_ret ⟨⟨rfl, rfl⟩, sizeAt_nonneg⟩)

lemma spec_overgrown : Spec cfg J (overgrown cfg path) w fun _ v => SameFiles w v := by
  simp only [overgrown, op, op_bind]
  refine spec_loadSize ?_
  cases w.sizeCache.lookup path with
  | some e => exact wp_alone_ret ⟨rfl, rfl⟩
  | none =>
    refine spec_stat (fun hmem => ?_) (fun _ => wp_alone_ret ⟨rfl, rfl⟩) (wp_alone_ret ⟨rfl, rfl⟩)
    dsimp only
    split_ifs
    · exact spec_now fun t => spec_storeSize hmem le_rfl (wp_alone_ret ⟨rfl, rfl⟩)
    · exact wp_alone_ret ⟨rfl, rfl⟩

/-- A write at or below the covered size grows the file without a gap. -/
lemma spec_writeChunk {prevSize off : ℤ} (data : List UInt8) (hpath : ¬ cfg.IsTail path)
    (hprev : prevSize ≤ w.sizeAt path) (hoff : off ≤ prevSize) :
    Spec cfg J (writeChunk path prevSize data off) w fun _ _ => True := by
  simp only [writeChunk, op, op_bind]
  refine wp_then spec_getHandle fun r u hu => ?_
  obtain ⟨hfiles, -, hhandle⟩ := hu
  cases r with
  | none => exact wp_alone_done
  | some h =>
    refine spec_mild trivial fun c closed u1 _ hf => ?_
    split_ifs
    · exact wp_alone_done
    have hsize : u1.sizeAt path = w.sizeAt path := (hfiles.trans hf.files).sizeAt path
    have hlookup : u1.handles.lookup path = some h := (congrArg _ hf.handles).trans (hhandle h rfl)
    refine spec_perform fun hw hj c r v hex => ?_
    obtain ⟨n, err⟩ := r
    have hwrite : u1.writeFile c .processWrite h data off = ((n, err), v) := Option.some.inj hex
    have hspec := hw.writeFile c .processWrite data off hlookup fun _ =>
      ⟨rfl, (hoff.trans hprev).trans hsize.ge⟩
    have hframe := tailFrame_writeFile hw c .processWrite data off hpath hlookup
    rw [hwrite] at hspec hframe
    obtain ⟨hsound, hmem, hgrow, hcover⟩ := hspec
    refine ⟨⟨hsound, Companion.frame hframe hj⟩, ?_⟩
    dsimp only at hmem hgrow hcover ⊢
    split_ifs
    · exact wp_alone_done
    · -- the write has grown the file past what was covered
      refine spec_mild trivial fun c r v1 _ hf1 => spec_mild trivial fun c r v2 _ hf2 =>
        spec_now fun t => ?_
      have hsame := hf1.files.trans hf2.files
      refine spec_storeSize (hsame.names ▸ hmem) ?_ wp_alone_done
      rw [hsame.sizeAt]
      exact hcover (.inr (by omega))
    · refine spec_mild trivial fun c r v1 _ hf1 => spec_now fun t =>
        spec_storeSize (hf1.files.names ▸ hmem) ?_ wp_alone_done
      rw [hf1.files.sizeAt]
      dsimp only
      omega

lemma spec_processWrite (hash : String) (fileID : ℤ) (data : List UInt8) (off : ℤ) :
    Spec cfg J (processWrite cfg hash fileID data off) w fun _ _ => True := by
  have hpath : ¬ cfg.IsTail (cfg.filePath hash fileID) := not_isTail_filePath hash fileID
  unfold processWrite
  split_ifs
  · exact wp_alone_done
  refine wp_then spec_overgrown fun grown u hu => ?_
  split_ifs
  · exact wp_alone_done
  refine wp_then spec_headSize fun prevSize u1 hprev => ?_
  split_ifs with hoff
  · exact wp_alone_done
  obtain ⟨-, hprev⟩ := hprev
  have hwrite : Spec cfg J (writeChunk (cfg.filePath hash fileID) prevSize (clip cfg data off) off)
      u1 fun _ _ => True := spec_writeChunk _ hpath hprev (not_lt.mp hoff)
  simp only [op, op_bind]
  refine spec_stat (fun _ => hwrite) (fun hnone => ?_) hwrite
  refine wp_then (spec_startFile hpath hnone) fun started v hsize => ?_
  rw [sizeAt_of_not_named hnone] at hprev
  split_ifs
  · exact spec_writeChunk _ hpath (hprev.trans hsize.ge) (not_lt.mp hoff)
  · exact wp_alone_done

/-- What a range answer promises: no more than is on disk, and unless it is
nothing, the files and handles are those before the call. -/
def RangeOf (w : World) (path : String) (r : Option ℤ) (v : World) : Prop :=
  ∀ n, r = some n → n ≤ v.sizeAt path ∧ (n ≠ 0 → SameFiles w v ∧ v.handles = w.handles)

lemma spec_measure (hash : String) (hpath : ¬ cfg.IsTail path) :
    Spec cfg J (measure cfg hash path) w (RangeOf w path) := by
  have hzero : ∀ v, RangeOf w path (some 0) v := fun v n hn => by
    cases hn
    exact ⟨sizeAt_nonneg, fun hne => absurd rfl hne⟩
  have hmissing : Spec cfg J (do
      op (.storeMissing path (← op .now))
      pure (some 0)) w (RangeOf w path) :=
    spec_now fun t => spec_mild trivial fun c r u _ _ => wp_alone_ret (hzero u)
  simp only [measure, op, op_bind]
  refine spec_stat (fun hmem => ?_) (fun _ => hmissing) hmissing
  dsimp only
  split_ifs
  · exact wp_alone_ret fun n hn => absurd hn (by simp)
  · refine wp_then spec_closeHandle fun _ u hu => ?_
    obtain ⟨-, -, hnone⟩ := hu
    refine spec_deleteSize (spec_remove hnone (lookup_erase _ _) (.inl hpath)
      fun r u1 _ _ _ _ _ => ?_)
    exact spec_now fun t => spec_mild trivial fun c r v _ _ => wp_alone_ret (hzero v)
  · refine spec_now fun t => spec_storeSize hmem le_rfl (wp_alone_ret fun n hn => ?_)
    cases hn
    exact ⟨le_rfl, fun _ => ⟨⟨rfl, rfl⟩, rfl⟩⟩

lemma RangeOf.frame (hf : Frame w u) {r : Option ℤ} (h : RangeOf u path r v) : RangeOf w path r v := by
  intro n hn
  obtain ⟨hle, hsame⟩ := h n hn
  exact ⟨hle, fun hne => ⟨hf.files.trans (hsame hne).1, (hsame hne).2.trans hf.handles⟩⟩

lemma spec_cachedRange (hash : String) (hpath : ¬ cfg.IsTail path) :
    Spec cfg J (cachedRange cfg hash path) w (RangeOf w path) := by
  simp only [cachedRange, op, op_bind]
  refine spec_of_sound fun hw => spec_loadSize ?_
  cases hs : w.sizeCache.lookup path with
  | none => exact spec_measure hash hpath
  | some e =>
    refine spec_now fun t => ?_
    split_ifs
    · refine wp_alone_ret fun n hn => ?_
      cases hn
      exact ⟨(hw.size hs).2, fun _ => ⟨⟨rfl, rfl⟩, rfl⟩⟩
    · exact spec_measure hash hpath

lemma spec_getAvailableRange (hash : String) (fileID : ℤ) :
    Spec cfg J (getAvailableRange cfg hash fileID) w (RangeOf w (cfg.filePath hash fileID)) := by
  simp only [getAvailableRange, op, op_bind]
  refine spec_mild trivial fun c r u _ hf => ?_
  cases r with
  | none =>
    exact wp_mono (fun _ _ hv => hv.frame hf) (spec_cachedRange hash (not_isTail_filePath hash fileID))
  | some since =>
    refine spec_now fun t => ?_
    split_ifs
    · refine wp_alone_ret fun n hn => ?_
      cases hn
      exact ⟨sizeAt_nonneg, fun hne => absurd rfl hne⟩
    · exact spec_mild trivial fun c r u1 _ hf1 =>
        wp_mono (fun _ _ hv => hv.frame (hf.trans hf1))
          (spec_cachedRange hash (not_isTail_filePath hash fileID))

/-- Every byte was last written where it was read, by `processWrite`. -/
def Written (cfg : Config) (hash : String) (fileID off : ℤ) (bytes : List UInt8) (v : World) : Prop :=
  bytes ≠ [] → 0 ≤ off ∧ ∃ ino f, v.names.lookup (cfg.filePath hash fileID) = some ino ∧
    v.inodes[ino]? = some f ∧ ∀ j b, bytes[j]? = some b →
      lastWritten f.file.log (off.toNat + j) = some (.processWrite, b)

lemma readFile_eq {c : Choice} {len j : ℕ} {off : ℤ} {b : UInt8}
    (hb : (w.readFile c h len off).1[j]? = some b) :
    0 ≤ off ∧ ∃ ino f, w.inodeOf h = some (ino, f) ∧ (f.file.read off.toNat len)[j]? = some b := by
  unfold World.readFile at hb
  cases hino : w.inodeOf h with
  | none => simp [hino] at hb
  | some x =>
    rw [hino] at hb
    split_ifs at hb with hneg
    · simp at hb
    · rw [getElem?_take] at hb
      split_ifs at hb
      exact ⟨not_lt.mp hneg, x.1, x.2, rfl, hb⟩
    · exact ⟨not_lt.mp hneg, x.1, x.2, rfl, hb⟩

lemma spec_readAt (hash : String) (fileID : ℤ) (len : ℕ) (off : ℤ) :
    Spec cfg J (readAt cfg hash fileID len off) w fun r v =>
      ∀ bytes err, r = some (bytes, err) → Written cfg hash fileID off bytes v := by
  have hnothing : ∀ v bytes err, some (([] : List UInt8), false) = some (bytes, err) →
      Written cfg hash fileID off bytes v := by
    rintro v bytes err heq hne
    cases heq
    exact absurd rfl hne
  unfold readAt
  split_ifs
  · exact wp_alone_ret (hnothing w)
  refine wp_then spec_getHandle fun r u hu => ?_
  obtain ⟨-, -, hhandle⟩ := hu
  cases r with
  | none => exact wp_alone_ret (hnothing u)
  | some h =>
    refine wp_then (spec_getAvailableRange hash fileID) fun r u1 hrange => ?_
    cases r with
    | none => exact wp_alone_ret fun bytes err heq => absurd heq (by simp)
    | some availSize =>
      dsimp only
      split_ifs with hoff
      · exact wp_alone_ret (hnothing u1)
      refine spec_off trivial fun hw c r v hex => ?_
      cases hex
      refine ⟨hw, wp_alone_ret fun bytes err heq hne => ?_⟩
      obtain ⟨b, hb⟩ : ∃ b, bytes[0]? = some b := by
        cases bytes with
        | nil => exact absurd rfl hne
        | cons b bs => exact ⟨b, rfl⟩
      have hread : ∀ (j : ℕ) (b : UInt8), bytes[j]? = some b → 0 ≤ off ∧
          ∃ ino f, u1.inodeOf h = some (ino, f) ∧
          (f.file.read off.toNat (min len (availSize - off).toNat))[j]? = some b := by
        intro j b hb
        apply readFile_eq (c := c)
        rw [Option.some.inj heq]
        exact hb
      have hpos := (hread 0 b hb).1
      -- something was available, so the handle is still that of the path
      obtain ⟨hfiles, hhandles⟩ := (hrange availSize rfl).2 (by omega)
      obtain ⟨ino, f, hino, hf, hinode, -⟩ :=
        hw.inodeOf ((congrArg _ hhandles).trans (hhandle h rfl))
      refine ⟨hpos, ino, f, hino, hf, fun j b hb => ?_⟩
      obtain ⟨-, ino', f', hinode', hb⟩ := hread j b hb
      cases hinode.symm.trans hinode'
      exact (hw.dense ⟨hash, fileID, rfl⟩ hino hf).read hb

/-! ### Tails, removals, restarts -/

lemma not_isHead_tailPath (hash : String) (fileID : ℤ) : ¬ cfg.IsHead (cfg.tailPath hash fileID) := by
  rintro ⟨hash', fileID', heq⟩
  have hlast := congrArg (fun s : String => s.toList.reverse.head?) heq
  simp [Config.tailPath, Config.filePath, Config.join, String.toList_append, tailSuffix,
    warmupSuffix] at hlast

lemma spec_startTail (hn : w.names.lookup path = none) :
    Spec cfg (fun _ => True) (startTail path) w fun _ _ => True := by
  refine spec_mild trivial fun c r u _ hf => ?_
  refine spec_createFile ((congrArg _ hf.files.names).trans hn) (fun _ _ _ => trivial) wp_alone_done
    fun h ino u1 hino ho _ => spec_now fun t => spec_mild trivial fun c r u2 _ hf2 => ?_
  exact spec_storeHandle ((congrArg _ hf2.files.names).trans hino) (hf2.opened h ino ho)
    wp_alone_done

lemma spec_writeSpan (hash : String) (fileID : ℤ) (tr : ℕ) (data : List UInt8) (relOffset : ℤ) :
    Spec cfg (fun _ => True) (writeSpan (cfg.tailPath hash fileID) tr data relOffset) w
      fun _ _ => True := by
  simp only [writeSpan, op, op_bind]
  refine wp_then spec_getHandle fun r u hu => ?_
  obtain ⟨-, -, hhandle⟩ := hu
  cases r with
  | none => exact wp_alone_done
  | some h =>
    refine spec_mild trivial fun c closed u1 _ hf => ?_
    have hlookup := (congrArg (AList.lookup _) hf.handles).trans (hhandle h rfl)
    split_ifs
    · exact wp_alone_done
    refine spec_perform fun hw _ c r v hex => ?_
    obtain ⟨n, err⟩ := r
    have hwrite : u1.writeFile c .writeTail h data relOffset = ((n, err), v) := Option.some.inj hex
    have hspec := hw.writeFile c .writeTail data relOffset hlookup fun hhead =>
      absurd hhead (not_isHead_tailPath hash fileID)
    rw [hwrite] at hspec
    obtain ⟨hsound, hmem, -, hcover⟩ := hspec
    refine ⟨⟨hsound, trivial⟩, ?_⟩
    split_ifs with hn
    · exact wp_alone_done
    · refine spec_now fun t => spec_storeSize hmem (hcover (.inl hn))
        (spec_perform fun hw _ c r u hex => ?_)
      cases hex
      exact ⟨⟨⟨hw.handle, hw.named, hw.single, hw.size, hw.dense⟩, trivial⟩, wp_alone_done⟩

lemma spec_writeTail (hash : String) (fileID : ℤ) (data : List UInt8) (absoluteOffset fileSize : ℤ) :
    Spec cfg (fun _ => True) (writeTail cfg hash fileID data absoluteOffset fileSize) w
      fun _ _ => True := by
  simp only [writeTail, op, op_bind]
  split_ifs
  · exact wp_alone_done
  refine spec_perform fun hw _ c tr u hex =>
    ⟨⟨?_, trivial⟩, spec_mild trivial fun c spans u1 _ _ => ?_⟩
  · dsimp only [exec] at hex
    split at hex <;> cases hex <;> exact ⟨hw.handle, hw.named, hw.single, hw.size, hw.dense⟩
  split_ifs
  · exact wp_alone_done
  refine spec_stat (fun _ => spec_writeSpan hash fileID tr _ _) (fun hnone => ?_)
    (spec_writeSpan hash fileID tr _ _)
  refine wp_then (spec_startTail hnone) fun started v _ => ?_
  split_ifs
  · exact spec_writeSpan hash fileID tr _ _
  · exact wp_alone_done

lemma spec_readTail (hash : String) (fileID : ℤ) (len : ℕ) (absoluteOffset fileSize : ℤ) :
    Spec cfg J (readTail cfg hash fileID len absoluteOffset fileSize) w fun _ _ => True := by
  simp only [readTail, op, op_bind]
  split_ifs
  · exact wp_alone_done
  refine spec_mild trivial fun c tr u _ _ => ?_
  cases tr with
  | none => exact wp_alone_done
  | some tr =>
    refine spec_mild trivial fun c spans u1 _ _ => ?_
    split_ifs
    · refine wp_then spec_getHandle fun r u2 _ => ?_
      cases r with
      | none => exact wp_alone_done
      | some h => exact spec_mild trivial fun c r u3 _ _ => wp_alone_done
    · exact wp_alone_done

lemma spec_discount (size : Option ℤ) : Spec cfg J (discount size) w fun _ v => Frame w v := by
  cases size with
  | none => exact wp_alone_ret (Frame.refl w)
  | some n => exact spec_mild trivial fun c r u _ hf => wp_alone_ret hf

lemma spec_removeEntries (hash : String) (names : List String) :
    Spec cfg J (removeEntries cfg hash names) w fun _ _ => True := by
  induction names generalizing w with
  | nil => exact wp_alone_done
  | cons name names ih =>
    simp only [removeEntries, op, op_bind]
    split_ifs
    · refine spec_mild trivial fun c info u _ _ => wp_then (spec_discount _) fun _ u1 _ => ?_
      exact wp_then spec_dropFile fun _ u2 _ => ih
    · exact ih

lemma spec_dropResidue : Spec cfg J (dropResidue path) w fun _ _ => True := by
  simp only [dropResidue, op, op_bind]
  split_ifs with hsuffix
  · refine spec_loadHandle ?_
    cases hh : w.handles.lookup path with
    | some h => exact wp_alone_done
    | none =>
      refine spec_stat (fun hmem => ?_) (fun _ => wp_alone_done) wp_alone_done
      dsimp only
      split_ifs
      · exact wp_alone_done
      · refine spec_deleteSize (spec_remove hh (lookup_erase _ _)
          (.inl (not_isTail_of_hasSuffix hsuffix)) fun removed u _ _ _ _ _ => ?_)
        refine wp_then (spec_discount _) fun _ u1 _ => ?_
        exact spec_now fun t => spec_mild trivial fun c r u2 _ _ => wp_alone_done
  · exact wp_alone_done

lemma spec_reapHandle (now max : ℤ) (h : ℕ) :
    Spec cfg J (reapHandle now max path h) w fun _ _ => True := by
  simp only [reapHandle, op, op_bind]
  refine spec_mild trivial fun c used u _ hf => ?_
  split_ifs
  · exact wp_alone_done
  refine spec_takeHandle fun u1 hfiles _ _ _ hown => ?_
  cases hh : u.handles.lookup path with
  | none => exact wp_alone_done
  | some actual =>
    obtain ⟨hfree, ino, hino, ho⟩ := hown actual hh
    refine spec_mild trivial fun c used u2 _ hf2 => ?_
    split_ifs
    · exact spec_storeHandle ((congrArg _ (hfiles.trans hf2.files).names).trans hino)
        (hf2.opened _ _ ho) wp_alone_done
    · refine spec_mild trivial fun c r u3 _ hf3 => spec_close (fun p => ?_) spec_dropResidue
      rw [hf3.handles, hf2.handles]
      exact hfree p

lemma spec_reapHandles (now max : ℤ) (hs : List (String × ℕ)) :
    Spec cfg J (reapHandles now max hs) w fun _ _ => True := by
  induction hs generalizing w with
  | nil => exact wp_alone_done
  | cons x hs ih =>
    obtain ⟨path, h⟩ := x
    exact wp_then (spec_reapHandle now max h) fun _ _ _ => ih

/-- A new process has no handles, no cached sizes and no coverage to lose. -/
structure Blank (w : World) : Prop where
  handles : w.handles = ∅
  sizes : w.sizeCache = ∅
  coverage : w.tailCoverage = ∅

lemma Blank.frame (h : Blank w) (hf : Frame w v) : Blank v :=
  ⟨hf.handles.trans h.handles, hf.sizes.trans h.sizes, hf.coverage.trans h.coverage⟩

lemma spec_scanExisting (dropHeads : Bool) (names : List String) (hb : Blank w) :
    Spec cfg J (scanExisting cfg dropHeads names) w fun _ _ => True := by
  induction names generalizing w with
  | nil => exact wp_alone_done
  | cons name names ih =>
    have hremove : ∀ {v : World}, Blank v →
        Spec cfg J (.perform (.remove (cfg.join name)) fun _ => scanExisting cfg dropHeads names) v
          fun _ _ => True := by
      intro v hb
      apply spec_remove
      · rw [hb.handles]
        rfl
      · rw [hb.sizes]
        rfl
      · rw [hb.coverage]
        exact .inr rfl
      · intro _ u hh hs hc _ _
        exact ih ⟨hh.trans hb.handles, hs.trans hb.sizes, hc.trans hb.coverage⟩
    simp only [scanExisting, op, op_bind]
    split_ifs
    · exact hremove hb
    · refine spec_mild trivial fun c info u _ hf => ?_
      cases info with
      | none => exact ih (hb.frame hf)
      | some x =>
        dsimp only
        split_ifs
        · exact hremove (hb.frame hf)
        · exact wp_then (ih (hb.frame hf)) fun _ _ _ => wp_alone_done
    · exact ih hb

lemma spec_initDiskWarmup (dropHeads : Bool) :
    Spec cfg J (initDiskWarmup cfg dropHeads) w fun _ _ => True := by
  simp only [initDiskWarmup, op, op_bind]
  refine spec_perform fun hw hj c r u hex => ?_
  cases hex
  refine ⟨⟨hw.shrinks rfl rfl (fun p e he => ?_) fun p k hk => ?_, Companion.restart cfg hj⟩, ?_⟩
  · simp [World.rebooted, World.fresh] at he
  · simp [World.rebooted, World.fresh] at hk
  · refine spec_mild trivial fun c names u _ hf => ?_
    have hblank : Blank w.rebooted := ⟨rfl, rfl, rfl⟩
    refine wp_then (spec_scanExisting dropHeads names (hblank.frame hf)) fun total v _ => ?_
    exact spec_mild trivial fun c r v _ _ => wp_alone_done

/-! ### Every run -/

/-- What the answer to a call promises about the files. -/
def Promised (cfg : Config) (v : World) : Call → Answer → Prop
  | .getAvailableRange hash fileID, .range n => n ≤ v.sizeAt (cfg.filePath hash fileID)
  | .readAt hash fileID _ off, .bytes data _ => Written cfg hash fileID off data v
  | _, _ => True

/-- What a call keeps; one that writes to a tail keeps `J` if `WriteTail` does. -/
lemma spec_program (call : Call) (htail : ∀ {hash fileID data off size},
    call = .writeTail hash fileID data off size → ∀ w,
      Spec cfg J (writeTail cfg hash fileID data off size) w fun _ _ => True) :
    Spec cfg J (call.program cfg) w fun answer v => Promised cfg v call answer := by
  have hdone : ∀ {p : Prog Unit} {call : Call}, (∀ v, Promised cfg v call .done) →
      Spec cfg J p w (fun _ _ => True) →
      Spec cfg J (p >>= fun _ => pure .done) w fun answer v => Promised cfg v call answer :=
    fun hp h => wp_then h fun _ v _ => wp_alone_ret (hp v)
  cases call with
  | processWrite hash fileID data off =>
    exact hdone (fun _ => trivial) (spec_processWrite hash fileID data off)
  | getAvailableRange hash fileID =>
    refine wp_then (spec_getAvailableRange hash fileID) fun r v hr => ?_
    cases r with
    | none => exact wp_alone_ret trivial
    | some n => exact wp_alone_ret (hr n rfl).1
  | readAt hash fileID len off =>
    refine wp_then (spec_readAt hash fileID len off) fun r v hr => ?_
    cases r with
    | none => exact wp_alone_ret trivial
    | some x => exact wp_alone_ret (hr x.1 x.2 rfl)
  | writeTail hash fileID data absoluteOffset fileSize =>
    exact hdone (fun _ => trivial) (htail rfl w)
  | readTail hash fileID len absoluteOffset fileSize =>
    exact wp_then (spec_readTail hash fileID len absoluteOffset fileSize)
      fun _ _ _ => wp_alone_done
  | removeHash hash =>
    refine hdone (fun _ => trivial) ?_
    exact spec_mild trivial fun c names u _ _ => spec_removeEntries hash names
  | reapIdle max =>
    refine hdone (fun _ => trivial) ?_
    exact spec_now fun t => spec_mild trivial fun c hs u _ _ => spec_reapHandles t max hs
  | enforceQuota needed =>
    refine spec_mild trivial fun c r u _ _ => ?_
    refine wp_bind (p := enforceQuotaLocked cfg needed) (wp_mono (fun _ v _ => ?_)
      (spec_enforceQuotaLocked needed))
    exact spec_mild trivial fun c r v _ _ => wp_alone_done
  | initDiskWarmup dropHeads => exact hdone (fun _ => trivial) (spec_initDiskWarmup dropHeads)

lemma spec_call (call : Call) : Spec cfg (fun _ => True) (call.program cfg) w
    fun answer v => Promised cfg v call answer :=
  spec_program call fun _ _ => spec_writeTail _ _ _ _ _

lemma sound_fresh : Sound cfg World.fresh := by
  constructor <;> simp [World.fresh]

lemma sound_of_run {ls : List (Call × Answer)} (hrun : Run (Serves cfg) World.fresh ls w) :
    Sound cfg w :=
  hrun.invariant (fun _ l _ hw hserve => (hserve.sound (spec_call l.1) ⟨hw, trivial⟩).1.1) sound_fresh

/-- After every run of calls, and at every operation of the next one, no head
file has a gap; a range answer never exceeds what is on disk; and every byte
read from a head file is the one `processWrite` last wrote there since the file
was created. -/
theorem head_files_stay_dense {ls : List (Call × Answer)}
    (hrun : Run (Serves cfg) World.fresh ls w) :
    (∀ call q v, Steps (machine cfg) (fun _ _ _ => True) (Call.program cfg call) w q v →
      ∀ hash fileID ino f, v.names.lookup (cfg.filePath hash fileID) = some ino →
        v.inodes[ino]? = some f → ∀ i < f.file.bytes.length,
          ∃ b, lastWritten f.file.log i = some (.processWrite, b)) ∧
    (∀ hash fileID n v, Serves cfg w (.getAvailableRange hash fileID, .range n) v →
      n ≤ v.sizeAt (cfg.filePath hash fileID)) ∧
    (∀ hash fileID len off data err v,
      Serves cfg w (.readAt hash fileID len off, .bytes data err) v → data ≠ [] →
      0 ≤ off ∧ ∃ ino f, v.names.lookup (cfg.filePath hash fileID) = some ino ∧
        v.inodes[ino]? = some f ∧ ∀ j b, data[j]? = some b →
          lastWritten f.file.log (off.toNat + j) = some (.processWrite, b)) := by
  have hw := sound_of_run hrun
  refine ⟨fun call q v hsteps hash fileID ino f hino hf i hi => ?_,
    fun hash fileID n v hserve => hserve.result (spec_call _) ⟨hw, trivial⟩,
    fun hash fileID len off data err v hserve => hserve.result (spec_call _) ⟨hw, trivial⟩⟩
  have hv : Sound cfg v := (hsteps.sound (spec_call call) ⟨hw, trivial⟩).1.1
  exact ⟨_, hv.dense ⟨hash, fileID, rfl⟩ hino hf i _ (getElem?_eq_getElem hi)⟩

/-- Run one call to its end with the given choices. -/
def serve (cfg : Config) (w : World) (l : Call × List Choice) : Option (Answer × World) :=
  let r := runAlone (machine cfg) (fun _ _ _ => True) l.2 (l.1.program cfg) w
  r.1.result?.map (·, r.2)

lemma serves_of_serve {l : Call × List Choice} {answer : Answer}
    (h : serve cfg w l = some (answer, v)) : Serves cfg w (l.1, answer) v := by
  obtain ⟨a, ha, heq⟩ := map_eq_some_iff.mp h
  cases heq
  have hsteps := steps_runAlone (machine cfg) (fun _ _ _ => True) l.2 (l.1.program cfg) w
  rwa [eq_ret_of_result? ha] at hsteps

lemma run_of_serve {ls : List (Call × List Choice)}
    (h : ls.foldlM (fun w l => (serve cfg w l).map Prod.snd) w = some v) :
    ∃ ls', Run (Serves cfg) w ls' v := by
  induction ls generalizing w with
  | nil =>
    obtain rfl : w = v := Option.some.inj h
    exact ⟨[], .nil w⟩
  | cons l ls ih =>
    rw [foldlM_cons] at h
    obtain ⟨u, hstep, hrest⟩ := bind_eq_some_iff.mp h
    obtain ⟨x, hx, rfl⟩ := map_eq_some_iff.mp hstep
    obtain ⟨ls', hrun⟩ := ih hrest
    exact ⟨(l.1, x.1) :: ls', .cons (serves_of_serve hx) hrun⟩

/-- A head of a hundred bytes. -/
def smallHeads : Config := ⟨"/warm", 100, 0⟩

def smooth : List Choice := List.replicate 30 ⟨0, false, 0, []⟩

/-- The second write overlaps the first, the third would leave a gap. -/
def outOfOrder : List (Call × List Choice) :=
  [(.processWrite "abc" 1 [1, 2, 3, 4] 0, smooth), (.processWrite "abc" 1 [7, 8, 9] 3, smooth),
   (.processWrite "abc" 1 [5] 20, smooth)]

def outOfOrderHeads : Option World :=
  outOfOrder.foldlM (fun w l => (serve smallHeads w l).map Prod.snd) .fresh

theorem head_files_dense_out_of_order :
    ∃ w v, outOfOrderHeads = some w ∧
      serve smallHeads w (.readAt "abc" 1 10 2, smooth) = some (.bytes [3, 7, 8, 9] false, v) ∧
      ∃ ino f, v.names.lookup "/warm/abc-1.warmup" = some ino ∧ v.inodes[ino]? = some f ∧
        lastWritten f.file.log 3 = some (.processWrite, 7) := by
  have hend : (outOfOrderHeads.bind fun w => serve smallHeads w (.readAt "abc" 1 10 2, smooth)).map
      Prod.fst = some (.bytes [3, 7, 8, 9] false) := by decide +kernel
  obtain ⟨⟨answer, v⟩, hv, hanswer⟩ := map_eq_some_iff.mp hend
  obtain ⟨w, hw, hread⟩ := bind_eq_some_iff.mp hv
  obtain rfl : answer = .bytes [3, 7, 8, 9] false := hanswer
  obtain ⟨ls, hrun⟩ := run_of_serve hw
  obtain ⟨-, -, hbytes⟩ := head_files_stay_dense hrun
  obtain ⟨-, ino, f, hino, hf, hlast⟩ := hbytes "abc" 1 10 2 _ _ v (serves_of_serve hread) (by simp)
  exact ⟨w, v, hw, hread, ino, f, hino, hf, hlast 1 7 rfl⟩

end Tiramisu.Warmup
