import Tiramisu.Vfs.InodeMap

/-!
# The base-name index

`fastFileMap` keeps one inode for each base name, the last one written.  A
removal deletes the entry when it holds the inode of the removed path.  The
index answers for the registered paths as long as paths of one base name are
removed together, and no removed path shares its content with a path of
another base name.
-/

namespace Tiramisu.Vfs.InodeMap

open Go

/-- `GetFileInodeByName`. -/
def getFileInodeByName (H : Hashing) (im : InodeMap) (filename : String) : UInt64 :=
  (im.fastOf H filename).getD 0

section Lookups

variable {H : Hashing}
variable (im : InodeMap) (p k b c : String) (v : UInt64)

@[simp] lemma fastOf_dirty (d : Bool) : fastOf H { im with dirty := d } b = im.fastOf H b := rfl

@[simp] lemma fastOf_setName : (im.setName H p k).fastOf H b = im.fastOf H b :=
  lookup_setShard im p b InodeShard.fastFileMap rfl

@[simp] lemma fastOf_deleteName : (im.deleteName H p).fastOf H b = im.fastOf H b :=
  lookup_setShard im p b InodeShard.fastFileMap rfl

@[simp] lemma fastOf_setFile : (im.setFile H k v).fastOf H b = im.fastOf H b :=
  lookup_setShard im k b InodeShard.fastFileMap rfl

@[simp] lemma fastOf_deleteFile : (im.deleteFile H k).fastOf H b = im.fastOf H b :=
  lookup_setShard im k b InodeShard.fastFileMap rfl

lemma fastOf_setFast :
    (im.setFast H c v).fastOf H b = if b = c then some v else im.fastOf H b :=
  lookup_setShard_of_key im c b InodeShard.fastFileMap (Writes.lookup_insert v)

lemma fastOf_deleteFast :
    (im.deleteFast H c).fastOf H b = if b = c then none else im.fastOf H b :=
  lookup_setShard_of_key im c b InodeShard.fastFileMap Writes.lookup_erase

end Lookups

section Operations

variable {H : Hashing}
variable (im : InodeMap) (p k b : String)

lemma fastOf_addFile {infohash : String} {index : ℤ} (hne : infohash ≠ "")
    (hnew : im.nameOf H p ≠ some (fileKey H infohash index)) :
    (im.addFile H p infohash index).1.fastOf H b
      = if b = filepathBase p then some (generateFileInode H infohash index)
        else im.fastOf H b := by
  simp [addFile, hne, hnew, fastOf_setFast]

lemma fastOf_removeFile_of_unregistered (h : im.nameOf H p = none) :
    (im.removeFile H p).fastOf H b = im.fastOf H b := by
  simp [removeFile, h]

/-- A removal compares the entry of the path's base name with the inode of its key. -/
lemma fastOf_removeFile (h : im.nameOf H p = some k) :
    (im.removeFile H p).fastOf H b
      = if b = filepathBase p ∧ im.fastOf H b = some ((im.inodeOf H k).getD 0) then none
        else im.fastOf H b := by
  simp only [removeFile, h, fastOf_dirty, fastOf_deleteFile, fastOf_deleteName, inodeOf_deleteName]
  by_cases hb : b = filepathBase p
  · subst hb
    split_ifs with hfast <;> simp_all [fastOf_deleteFast]
  · split_ifs <;> simp_all [fastOf_deleteFast]

lemma fastOf_removeFile_of_base_ne (hb : b ≠ filepathBase p) :
    (im.removeFile H p).fastOf H b = im.fastOf H b := by
  cases h : im.nameOf H p with
  | none => exact fastOf_removeFile_of_unregistered im p b h
  | some key => rw [fastOf_removeFile im p key b h, if_neg fun h => hb h.1]

/-- A removal deletes an entry or leaves it. -/
lemma fastOf_removeFile_eq_or :
    (im.removeFile H p).fastOf H b = none ∨ (im.removeFile H p).fastOf H b = im.fastOf H b := by
  cases h : im.nameOf H p with
  | none => exact .inr (fastOf_removeFile_of_unregistered im p b h)
  | some key =>
    rw [fastOf_removeFile im p key b h]
    split_ifs
    · exact .inl rfl
    · exact .inr rfl

variable (ps : List String)

lemma fastOf_removeFiles_of_none (h : im.fastOf H b = none) :
    (im.removeFiles H ps).fastOf H b = none := by
  induction ps generalizing im with
  | nil => exact h
  | cons p ps ih =>
    apply ih
    rcases fastOf_removeFile_eq_or im p b with hnone | hsame
    · exact hnone
    · exact hsame.trans h

/-- Removing no registered path of a base name leaves its entry. -/
lemma fastOf_removeFiles_of_unregistered
    (h : ∀ p ∈ ps, filepathBase p = b → im.nameOf H p = none) :
    (im.removeFiles H ps).fastOf H b = im.fastOf H b := by
  induction ps generalizing im with
  | nil => rfl
  | cons p ps ih =>
    have hstep : (im.removeFile H p).fastOf H b = im.fastOf H b := by
      by_cases hb : filepathBase p = b
      · exact fastOf_removeFile_of_unregistered im p b (h p (by simp) hb)
      · exact fastOf_removeFile_of_base_ne im p b (Ne.symm hb)
    rw [← hstep]
    apply ih
    intro q hq hbase
    rw [nameOf_removeFile, h q (by simp [hq]) hbase, ite_self]

/-- An entry goes with the path whose inode it holds, if no path of another base
name takes that path's content entry first. -/
lemma fastOf_removeFiles_eq_none {v : UInt64} (hp : p ∈ ps) (hname : im.nameOf H p = some k)
    (hinode : im.inodeOf H k = some v) (hfast : im.fastOf H (filepathBase p) = some v)
    (hbase : ∀ q ∈ ps, im.nameOf H q = some k → filepathBase q = filepathBase p) :
    (im.removeFiles H ps).fastOf H (filepathBase p) = none := by
  induction ps generalizing im with
  | nil => simp at hp
  | cons q ps ih =>
    change ((im.removeFile H q).removeFiles H ps).fastOf H (filepathBase p) = none
    by_cases hq : im.nameOf H q = some k
    · -- the first path of the key: its content entry is still there
      have hqb : filepathBase q = filepathBase p := hbase q (by simp) hq
      apply fastOf_removeFiles_of_none
      rw [fastOf_removeFile im q k _ hq, if_pos ⟨hqb.symm, by simp [hfast, hinode]⟩]
    · have hqp : p ≠ q := by
        rintro rfl
        exact hq hname
      rcases fastOf_removeFile_eq_or im q (filepathBase p) with hnone | hsame
      · exact fastOf_removeFiles_of_none _ _ _ hnone
      refine ih (im.removeFile H q) ?_ ?_ ?_ ?_ ?_
      · simpa [hqp] using hp
      · rw [nameOf_removeFile, if_neg hqp, hname]
      · rw [inodeOf_removeFile, if_neg hq, hinode]
      · rw [hsame, hfast]
      · intro r hr hrk
        rw [nameOf_removeFile] at hrk
        split_ifs at hrk
        exact hbase r (by simp [hr]) hrk

end Operations

/-! ### Histories of calls -/

/-- A removal takes every registered path of a base name or none, and no path
of another base name shares the content of a removed one. -/
def NamesLeaveTogether (H : Hashing) (s : InodeMap × Registered) (c : Call) : Prop :=
  ∀ p q key key', keyOf H s.2 p = some key → keyOf H s.2 q = some key' → Removes c p →
    (filepathBase q = filepathBase p → Removes c q) ∧
      (key' = key → filepathBase q = filepathBase p)

/-- The index has an entry for the base name of each registered path, and each
entry is the inode of a registered path of that base name. -/
structure Indexed (H : Hashing) (s : InodeMap × Registered) : Prop where
  consistent : Consistent H s
  covered : ∀ p key, keyOf H s.2 p = some key → ∃ v, s.1.fastOf H (filepathBase p) = some v
  entries : ∀ b v, s.1.fastOf H b = some v → ∃ p key, keyOf H s.2 p = some key ∧
    filepathBase p = b ∧ v = H.sum64String key &&& inodeFileMask

section Runs

open Transition

variable {H : Hashing} {s t : InodeMap × Registered} {c : Call} {ps : List String}

lemma NamesLeaveTogether.keys (h : NamesLeaveTogether H s c) : KeysLeaveTogether H s c := by
  intro p q key hp hq hremoved
  obtain ⟨hleave, hbase⟩ := h p q key key hp hq hremoved
  exact hleave (hbase rfl)

lemma indexed_new : Indexed H (newInodeMap, fun _ => none) where
  consistent := consistent_new
  covered p key h := by simp [keyOf] at h
  entries b v h := by
    have hnone : newInodeMap.fastOf H b = none := by
      simp only [fastOf, getShard, newInodeMap]
      split_ifs <;> rfl
    rw [hnone] at h
    cases h

lemma Indexed.add {im : InodeMap} {reg : Registered} (h : Indexed H (im, reg))
    (p infohash : String) (index : ℤ) :
    Indexed H (call H im (.addFile p infohash index),
      register reg (.addFile p infohash index)) := by
  by_cases hne : infohash = ""
  · simpa [call, register, addFile, hne] using h
  have hkey := keyOf_register_add (H := H) reg p index hne
  by_cases hold : im.nameOf H p = some (fileKey H infohash index)
  · -- the early return: path and key were registered already
    have hsame : ∀ q, keyOf H (register reg (.addFile p infohash index)) q = keyOf H reg q := by
      intro q
      rw [hkey]
      split_ifs with hq
      · rw [hq, ← h.consistent.names p, hold]
      · rfl
    have him : call H im (.addFile p infohash index) = im := addFile_of_registered im p hne hold
    refine ⟨h.consistent.add p infohash index, fun q key hq => ?_, fun b v hv => ?_⟩
    · rw [him]
      exact h.covered q key (hsame q ▸ hq)
    · rw [him] at hv
      obtain ⟨q, key, hq, hb⟩ := h.entries b v hv
      exact ⟨q, key, (hsame q).trans hq, hb⟩
  · have hfast : ∀ b, (call H im (.addFile p infohash index)).fastOf H b
        = if b = filepathBase p then some (generateFileInode H infohash index)
          else im.fastOf H b := fun b => fastOf_addFile im p b hne hold
    refine ⟨h.consistent.add p infohash index, fun q key hq => ?_, fun b v hv => ?_⟩
    · rw [hfast]
      split_ifs with hb
      · exact ⟨_, rfl⟩
      · have hqp : q ≠ p := fun hqp => hb (by rw [hqp])
        rw [hkey, if_neg hqp] at hq
        exact h.covered q key hq
    · rw [hfast] at hv
      split_ifs at hv with hb
      · exact ⟨p, _, by rw [hkey, if_pos rfl], hb.symm, (Option.some.inj hv).symm⟩
      · obtain ⟨q, key, hq, hqb, hqv⟩ := h.entries b v hv
        have hqp : q ≠ p := fun hqp => hb (by rw [← hqb, hqp])
        exact ⟨q, key, by rw [hkey, if_neg hqp, hq], hqb, hqv⟩

/-- The entry of a removed path's base name holds the inode of a removed path. -/
lemma Indexed.holder (h : Indexed H s) (hok : NamesLeaveTogether H s c) {p key : String}
    (hp : keyOf H s.2 p = some key) (hr : Removes c p) :
    ∃ q key' v, Removes c q ∧ s.1.nameOf H q = some key' ∧ s.1.inodeOf H key' = some v ∧
      s.1.fastOf H (filepathBase q) = some v ∧ filepathBase q = filepathBase p := by
  obtain ⟨v, hv⟩ := h.covered p key hp
  obtain ⟨q, key', hq, hqb, hqv⟩ := h.entries _ v hv
  refine ⟨q, key', v, (hok p q key key' hp hq hr).1 hqb, ?_, ?_, ?_, hqb⟩
  · rw [h.consistent.names, hq]
  · rw [h.consistent.inodes q key' hq, hqv]
  · rw [hqb, hv]

/-- Base names without a removed path keep their entry, the others lose it. -/
lemma Indexed.removal (h : Indexed H s) (hr : Removal H s t c ps)
    (hok : NamesLeaveTogether H s c) : Indexed H t := by
  have hfast : ∀ b, t.1.fastOf H b = (s.1.removeFiles H ps).fastOf H b := by
    obtain ⟨d, hmaps⟩ := hr.maps
    intro b
    rw [hmaps, fastOf_dirty]
  have hleft : ∀ b, (∀ p, Removes c p → filepathBase p = b → keyOf H s.2 p = none) →
      t.1.fastOf H b = s.1.fastOf H b := by
    intro b hb
    rw [hfast]
    apply fastOf_removeFiles_of_unregistered
    intro p hp hbase
    exact (h.consistent.names p).trans (hb p (hr.removes p hp) hbase)
  have hlost : ∀ p key, Removes c p → keyOf H s.2 p = some key →
      t.1.fastOf H (filepathBase p) = none := by
    intro p key hp hkey
    obtain ⟨r, key', v, hrem, hname, hinode, hentry, hbase⟩ := h.holder hok hkey hp
    rw [hfast, ← hbase]
    refine fastOf_removeFiles_eq_none s.1 r key' ps (hr.listed r key' hname hrem) hname hinode
      hentry fun q _ hq => ?_
    have hrkey : keyOf H s.2 r = some key' := (h.consistent.names r).symm.trans hname
    have hqkey : keyOf H s.2 q = some key' := (h.consistent.names q).symm.trans hq
    exact (hok r q key' key' hrkey hqkey hrem).2 rfl
  refine ⟨h.consistent.removal hr hok.keys, fun q key hq => ?_, fun b v hv => ?_⟩
  · have hstays := hr.stays hq
    rw [hr.keyOf_kept hstays] at hq
    rw [hleft]
    · exact h.covered q key hq
    · intro p hp hb
      cases hpk : keyOf H s.2 p with
      | none => rfl
      | some key' => exact absurd ((hok p q key' key hpk hq hp).1 hb.symm) hstays
  · have hunreg : ∀ p, Removes c p → filepathBase p = b → keyOf H s.2 p = none := by
      intro p hp hb
      cases hpk : keyOf H s.2 p with
      | none => rfl
      | some key =>
        rw [← hb, hlost p key hp hpk] at hv
        cases hv
    rw [hleft b hunreg] at hv
    obtain ⟨q, key, hq, hqb, hqv⟩ := h.entries b v hv
    have hstays : ¬ Removes c q := fun hrem => by simp [hunreg q hrem hqb] at hq
    exact ⟨q, key, by rw [hr.keyOf_kept hstays, hq], hqb, hqv⟩

lemma Indexed.step (h : Indexed H s)
    (hst : Guarded (NamesLeaveTogether H) (CallStep H) s c t) : Indexed H t := by
  obtain ⟨hok, hst⟩ := hst
  cases c with
  | addFile p infohash index =>
    cases hst
    exact h.add p infohash index
  | removeFile | pruneMissing =>
    obtain ⟨ps, hr⟩ := exists_removal hst (by simp)
    exact h.removal hr hok

/-- An entry of the index is the inode a registered path of its name answers. -/
lemma Indexed.answer {im : InodeMap} {reg : Registered} (h : Indexed H (im, reg)) {b : String}
    {v : UInt64} (hv : im.fastOf H b = some v) :
    ∃ p infohash index, reg p = some (infohash, index) ∧ filepathBase p = b ∧
      v = generateFileInode H infohash index := by
  obtain ⟨p, key, hp, hb, hkey⟩ := h.entries b v hv
  obtain ⟨⟨infohash, index⟩, hreg, rfl⟩ := Option.map_eq_some_iff.mp hp
  exact ⟨p, infohash, index, hreg, hb, hkey⟩

/-- While removals take all paths of a base name together and share no content
with paths of other names, the index answers only with the inode of a registered
path of the asked name, and with the inode of the only such path. -/
theorem getFileInodeByName_of_names_leave_together (H : Hashing) (calls : List Call)
    (im : InodeMap) (reg : Registered)
    (hrun : Run (Guarded (NamesLeaveTogether H) (CallStep H)) (newInodeMap, fun _ => none) calls
      (im, reg)) (b : String) :
    (im.getFileInodeByName H b ≠ 0 → ∃ p infohash index, reg p = some (infohash, index) ∧
      filepathBase p = b ∧ im.getFileInode H p = im.getFileInodeByName H b ∧
      generateFileInode H infohash index = im.getFileInodeByName H b) ∧
    ∀ p infohash index, reg p = some (infohash, index) → filepathBase p = b →
      (∀ q, reg q ≠ none → filepathBase q = b → q = p) →
      im.getFileInodeByName H b = im.getFileInode H p ∧
        im.getFileInodeByName H b = generateFileInode H infohash index := by
  have hidx : Indexed H (im, reg) := hrun.invariant (fun _ _ _ => Indexed.step) indexed_new
  refine ⟨fun hb => ?_, fun p infohash index hp hb honly => ?_⟩
  · cases hv : im.fastOf H b with
    | none => simp [getFileInodeByName, hv] at hb
    | some v =>
      obtain ⟨p, infohash, index, hreg, hpb, rfl⟩ := hidx.answer hv
      refine ⟨p, infohash, index, hreg, hpb, ?_, ?_⟩
      · simp [getFileInodeByName, hv, hidx.consistent.getFileInode hreg]
      · simp [getFileInodeByName, hv]
  · obtain ⟨v, hv⟩ := hidx.covered p (fileKey H infohash index) (by simp [keyOf, hp])
    obtain ⟨q, infohash', index', hreg, hqb, rfl⟩ := hidx.answer hv
    obtain rfl : q = p := honly q (by simp [hreg]) (hqb.trans hb)
    obtain ⟨rfl, rfl⟩ : infohash' = infohash ∧ index' = index := by simpa [hreg] using hp
    rw [hb] at hv
    simp [getFileInodeByName, hv, hidx.consistent.getFileInode hreg]

def sharedNameAdds : List Call :=
  [.addFile "/tv/a.mkv" sharedPack 1, .addFile "/movies/a.mkv" otherPack 0]

lemma sharedNameAdds_guarded :
    Run (Guarded (NamesLeaveTogether sharedPackHashing) (CallStep sharedPackHashing))
      (newInodeMap, fun _ => none) sharedNameAdds
      (sharedNameAdds.foldl (call sharedPackHashing) newInodeMap,
        sharedNameAdds.foldl register fun _ => none) :=
  .cons ⟨fun _ _ _ _ _ _ h => h.elim, .add _ _ _ _ _⟩
    (.cons ⟨fun _ _ _ _ _ _ h => h.elim, .add _ _ _ _ _⟩ (.nil _))

lemma sharedName_visitor_guarded :
    Run (Guarded (NamesLeaveTogether sharedPackHashing) (CallStep sharedPackHashing))
      (newInodeMap, fun _ => none) (sharedNameAdds ++ visitorCalls)
      ((sharedNameAdds ++ visitorCalls).foldl (call sharedPackHashing) newInodeMap,
        (sharedNameAdds ++ visitorCalls).foldl register fun _ => none) := by
  refine sharedNameAdds_guarded.append
    (.cons ⟨fun _ _ _ _ _ _ h => h.elim, .add _ _ _ _ _⟩ (.cons ⟨?_, .remove _ _ _⟩ (.nil _)))
  -- the other two paths have another name and other keys
  rintro p q key key' hp hq (rfl : p = "/tv/c.mkv")
  obtain rfl : fileKey sharedPackHashing otherPack 1 = key := Option.some.inj hp
  by_cases hc : q = "/tv/c.mkv"
  · exact ⟨fun _ => hc, fun _ => congrArg filepathBase hc⟩
  have hcases : filepathBase q = "a.mkv" ∧ key' ≠ fileKey sharedPackHashing otherPack 1 := by
    rw [keyOf_register_add _ _ _ (by decide), if_neg hc] at hq
    by_cases hm : q = "/movies/a.mkv"
    · subst hm
      obtain rfl : fileKey sharedPackHashing otherPack 0 = key' := Option.some.inj hq
      decide
    · by_cases ha : q = "/tv/a.mkv"
      · subst ha
        obtain rfl : fileKey sharedPackHashing sharedPack 1 = key' := Option.some.inj hq
        decide
      · simp [keyOf, register, sharedNameAdds, sharedPack, otherPack, hm, ha] at hq
  refine ⟨fun hb => ?_, fun heq => absurd heq hcases.2⟩
  rw [hcases.1] at hb
  exact absurd hb (by decide)

/-- Two files of one name, and a file of another name that comes and goes: the
index answers with the inode of one of the two. -/
theorem getFileInodeByName_of_shared_name :
    ∃ p infohash index,
      (sharedNameAdds ++ visitorCalls).foldl register (fun _ => none) p = some (infohash, index) ∧
      filepathBase p = "a.mkv" ∧ generateFileInode sharedPackHashing infohash index
        = getFileInodeByName sharedPackHashing
            ((sharedNameAdds ++ visitorCalls).foldl (call sharedPackHashing) newInodeMap) "a.mkv" := by
  obtain ⟨p, infohash, index, hreg, hb, -, hinode⟩ :=
    (getFileInodeByName_of_names_leave_together _ _ _ _ sharedName_visitor_guarded "a.mkv").1
      (by decide)
  exact ⟨p, infohash, index, hreg, hb, hinode⟩

/-- Removing the later of two files of one name leaves the other without an
entry.  Removing two paths of one torrent file, one after the other, leaves the
entry of the second with no path behind it. -/
theorem getFileInodeByName_lost_and_left :
    (∃ im reg, Run (CallStep sharedPackHashing) (newInodeMap, fun _ => none)
        (sharedNameAdds ++ [.removeFile "/movies/a.mkv"]) (im, reg) ∧
      reg "/tv/a.mkv" = some (sharedPack, 1) ∧ filepathBase "/tv/a.mkv" = "a.mkv" ∧
      (∀ q, reg q ≠ none → q = "/tv/a.mkv") ∧
      im.getFileInodeByName sharedPackHashing "a.mkv" = 0 ∧
      im.getFileInode sharedPackHashing "/tv/a.mkv" ≠ 0) ∧
    ∃ im reg, Run (CallStep sharedPackHashing) (newInodeMap, fun _ => none)
        (sharedPackAdds ++ [.removeFile "/tv/b.mkv", .removeFile "/tv/a.mkv"]) (im, reg) ∧
      (∀ q, reg q = none) ∧ im.getFileInodeByName sharedPackHashing "a.mkv" ≠ 0 := by
  constructor
  · have hadds := sharedNameAdds_guarded.mono (fun _ _ _ h => h.2)
    refine ⟨_, _, hadds.append (.cons (.remove _ _ _) (.nil _)), by decide, by decide, ?_,
      by decide, by decide⟩
    intro q hq
    by_contra hne
    have hnone : register (sharedNameAdds.foldl register fun _ => none)
        (.removeFile "/movies/a.mkv") q = none := by
      by_cases hm : q = "/movies/a.mkv"
      · simp [register, hm]
      · simp [register, sharedNameAdds, sharedPack, otherPack, hm, hne]
    exact hq hnone
  · have hadds := sharedPackAdds_guarded.mono (fun _ _ _ h => h.2)
    refine ⟨_, _, hadds.append (.cons (.remove _ _ _) (.cons (.remove _ _ _) (.nil _))), ?_,
      by decide⟩
    intro q
    by_cases ha : q = "/tv/a.mkv"
    · simp [register, ha]
    · by_cases hb : q = "/tv/b.mkv"
      · simp [register, hb]
      · simp [register, sharedPackAdds, sharedPack, ha, hb]

end Runs

end Tiramisu.Vfs.InodeMap
