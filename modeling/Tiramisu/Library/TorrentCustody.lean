import Tiramisu.Lib.Custody
import Tiramisu.Lib.Parallel
import Tiramisu.Library.AddSpec
import Tiramisu.Library.Manager

/-!
# Torrents in custody

A torrent is a resource under the lock of its hash; the stubs that requests
have written and the rows of their audio transactions refer to it.  Each
operation of a request is a move in the sense of `Custody`: most are steady
everywhere, and the few that are not happen under the torrent's lock.
-/

namespace Tiramisu.Library

open Posix Protocol Custody List StoreCall
open Go
open Metadb (Registry)

variable {cfg : LibraryConfig} {pid : ℕ} {s s' s'' : LibraryState}
variable {hash : String}

/-! ### The system and its custody -/

def librarySystem (cfg : LibraryConfig) : System LibOp LibOp.Res LibChoice LibraryState where
  machine pid := ⟨fun o c s => o.exec cfg pid c s⟩
  leave _ s := s

/-- Every entry a walk has listed is still there when the walk comes to it. -/
def listedStays : LibOp → LibChoice → LibraryState → Prop
  | .store (.lstat true p), _, s | .store (.readDir true p), _, s =>
    (s.store.media.node p).isSome = true
  | _, _, _ => True

instance (o : LibOp) (c : LibChoice) (s : LibraryState) : Decidable (listedStays o c s) := by
  unfold listedStays
  split <;> infer_instance

/-- The stub at a path carries a hash. -/
def Carries (d : Disk Content) (p : Path) (hash : String) : Prop :=
  ∃ ino data, d.node p = some (.file ino data) ∧ readStubHash data = some hash

lemma Carries.unique {d : Disk Content} {p : Path} {hash' : String} (h : Carries d p hash)
    (h' : Carries d p hash') : hash = hash' := by
  obtain ⟨_, data, hnode, hhash⟩ := h
  obtain ⟨_, data', hnode', hhash'⟩ := h'
  obtain ⟨-, rfl⟩ := Node.file.inj (Option.some.inj (hnode.symm.trans hnode'))
  exact Option.some.inj (hhash.symm.trans hhash')

/-- The path is one at which a search for the hash finds it. -/
def Placed (cfg : LibraryConfig) (p : Path) (hash : String) : Prop :=
  ∃ kind, cfg.dir kind <+: p ∧ namedFor kind hash p = true

/-- Stubs on disk, and requests whose rows are in the registry; a request that
has taken its torrent back refers to nothing. -/
def custody (s : LibraryState) : View String (Path ⊕ ℕ) where
  holder hash := s.hashLocks.lookup hash
  present hash := hash ∈ s.store.engine
  refers hash
    | .inl p => p ∈ s.written ∧ Carries s.store.media p hash
    | .inr i => i ∉ s.abandoned ∧
        ∃ r ∈ s.audio.db.rows, r.hash = hash ∧ s.drawn.lookup r.txnID = some i

structure LibraryInv (cfg : LibraryConfig) (s : LibraryState) : Prop where
  sound : Sound (custody s)
  hex : ∀ hash ∈ s.store.engine, HexHash hash
  placed : ∀ p ∈ s.written, ∃ hash, Carries s.store.media p hash ∧ Placed cfg p hash

structure LibRely (i : ℕ) (s s' : LibraryState) : Prop where
  respects : Respects i (custody s) (custody s')
  drawn : ∀ txn, s.drawn.lookup txn = some i → s'.drawn.lookup txn = some i
  abandoned : i ∈ s'.abandoned ↔ i ∈ s.abandoned

lemma LibRely.refl (i : ℕ) (s : LibraryState) : LibRely i s s :=
  ⟨.refl i _, fun _ h => h, Iff.rfl⟩

lemma LibRely.trans (h : LibRely pid s s') (h' : LibRely pid s' s'') : LibRely pid s s'' :=
  ⟨h.respects.trans h'.respects, fun txn ht => h'.drawn txn (h.drawn txn ht),
    h'.abandoned.trans h.abandoned⟩

/-- An audio add that has reported success has not taken its torrent back. -/
def libraryParties (cfg : LibraryConfig) : Parties (librarySystem cfg) Outcome where
  inv := LibraryInv cfg
  ok := listedStays
  rely := LibRely
  post i outcome s := outcome = .projected → i ∉ s.abandoned
  rely_refl := LibRely.refl
  rely_trans _ := LibRely.trans
  leave_inv _ _ h := h
  leave_rely _ j s _ _ := .refl j s
  leave_post _ _ _ h := h

/-! ### Effects -/

/-- What an operation may do to the others. -/
structure Effect (cfg : LibraryConfig) (pid : ℕ) (s s' : LibraryState) : Prop where
  inv : LibraryInv cfg s'
  moves : Moves pid (custody s) (custody s')
  drawn : ∀ txn i, s.drawn.lookup txn = some i → s'.drawn.lookup txn = some i
  abandoned : ∀ i, i ≠ pid → (i ∈ s'.abandoned ↔ i ∈ s.abandoned)

lemma Effect.guar (h : Effect cfg pid s s') : ∀ j, j ≠ pid → LibRely j s s' :=
  fun j hj => ⟨h.moves.respects hj, fun txn => h.drawn txn j, h.abandoned j hj⟩

/-- What disturbs nobody, the request itself included. -/
structure Quiet (cfg : LibraryConfig) (s s' : LibraryState) : Prop where
  inv : LibraryInv cfg s'
  steady : ∀ hash, Steady (custody s) (custody s') hash
  drawn : ∀ txn i, s.drawn.lookup txn = some i → s'.drawn.lookup txn = some i
  abandoned : s'.abandoned = s.abandoned

lemma Quiet.effect (h : Quiet cfg s s') : Effect cfg pid s s' :=
  ⟨h.inv, .of_steady h.steady, h.drawn, fun _ _ => by rw [h.abandoned]⟩

lemma Quiet.rely (h : Quiet cfg s s') : LibRely pid s s' :=
  ⟨fun hash _ => h.steady hash, fun txn => h.drawn txn pid, by rw [h.abandoned]⟩

/-! ### Store calls -/

/-- Calls that write no stub and take no torrent away. -/
def StoreCall.Mild : StoreCall → Prop
  | .writeFile _ _ | .removeTorrent _ => False
  | .uploadTorrent hash | .addTorrent hash => InfoHash hash
  | _ => True

section StoreCalls

variable {o : StoreCall} {c : StoreChoice} {st st' : Store} {r : o.Res} (written : List Path)

/-- Whatever is a file after a mild call was that file before, and what it
leaves recorded as written is untouched. -/
lemma StoreCall.Mild.files (h : o.Mild) (hex : o.exec c st = some (r, st')) :
    (∀ p ino data, st'.media.node p = some (.file ino data) →
      st.media.node p = some (.file ino data)) ∧
    ∀ p ∈ recordWritten c written o r, p ∈ written ∧
      ∀ n, st.media.node p = some n → st'.media.node p = some n := by
  cases o with
  | writeFile | removeTorrent => exact h.elim
  | mkdir p =>
    simp only [exec] at hex
    split_ifs at hex
    · cases hex
      exact ⟨fun _ _ _ h => h, fun q hq => ⟨hq, fun _ h => h⟩⟩
    obtain ⟨⟨r1, d⟩, hmk, heq⟩ := Option.map_eq_some_iff.mp hex
    cases heq
    rcases Disk.mkdir_eq_some hmk with ⟨rfl, hcreate⟩ | ⟨e, rfl, rfl⟩
    · obtain ⟨-, hnone, -, -, hall⟩ := Disk.create_eq_some hcreate
      refine ⟨fun q ino data hq => ?_, fun q hq => ⟨hq, fun n hn => ?_⟩⟩
      · rw [hall q] at hq
        split_ifs at hq
        · cases hq
        · exact hq
      · have hne : q ≠ p := by
          rintro rfl
          cases hnone.symm.trans hn
        rw [hall q, if_neg hne]
        exact hn
    · exact ⟨fun _ _ _ h => h, fun q hq => ⟨hq, fun _ h => h⟩⟩
  | remove p =>
    simp only [exec] at hex
    split_ifs at hex
    · cases hex
      exact ⟨fun _ _ _ h => h, fun q hq => ⟨hq, fun _ h => h⟩⟩
    cases hex
    rcases Disk.remove_cases st.media p with ⟨hok, -, hall⟩ | ⟨e, herr, -⟩
    · refine ⟨fun q ino data hq => ?_, fun q hq => ?_⟩
      · have hq' : (st.media.remove p).2.node q = some (.file ino data) := hq
        rw [hall q] at hq'
        split_ifs at hq'
        exact hq'
      · rw [hok] at hq
        obtain ⟨hq, hne⟩ := mem_filter.mp hq
        refine ⟨hq, fun n hn => ?_⟩
        show (st.media.remove p).2.node q = some n
        rw [hall q, if_neg (of_decide_eq_true hne)]
        exact hn
    · rw [herr]
      exact ⟨fun _ _ _ h => h, fun q hq => ⟨hq, fun _ h => h⟩⟩
  | stat | lstat | readDir | readFile | getEpisode | upsertEpisode | deleteEpisode
  | episodesByFilePath | uploadTorrent | addTorrent | getTorrentInfo | listTorrents | blacklist =>
    cases hex
    exact ⟨fun _ _ _ h => h, fun q hq => ⟨hq, fun _ h => h⟩⟩

lemma StoreCall.Mild.engine (h : o.Mild) (hex : o.exec c st = some (r, st')) :
    (∀ hash ∈ st.engine, hash ∈ st'.engine) ∧
    ∀ hash ∈ st'.engine, hash ∈ st.engine ∨ HexHash hash := by
  have htaken : ∀ (yes : Bool) (key : String), InfoHash key →
      (∀ hash ∈ st.engine, hash ∈ taken yes key st.engine) ∧
      ∀ hash ∈ taken yes key st.engine, hash ∈ st.engine ∨ HexHash hash := by
    intro yes key hkey
    cases yes with
    | false => exact ⟨fun _ h => h, fun _ h => .inl h⟩
    | true =>
      simp only [taken, if_true, mem_insert_iff]
      refine ⟨fun hash hmem => .inr hmem, fun hash hmem => ?_⟩
      rcases hmem with heq | hmem
      · exact .inr (heq ▸ hexHash_canonicalHashKey hkey)
      · exact .inl hmem
  cases o with
  | writeFile | removeTorrent => exact h.elim
  | mkdir p =>
    simp only [exec] at hex
    split_ifs at hex
    · cases hex
      exact ⟨fun _ h => h, fun _ h => .inl h⟩
    · obtain ⟨⟨r1, d⟩, hmk, heq⟩ := Option.map_eq_some_iff.mp hex
      cases heq
      exact ⟨fun _ h => h, fun _ h => .inl h⟩
  | remove p =>
    simp only [exec] at hex
    split_ifs at hex <;> obtain ⟨-, rfl⟩ := Prod.mk.inj (Option.some.inj hex) <;>
      exact ⟨fun _ h => h, fun _ h => .inl h⟩
  | uploadTorrent hash | addTorrent hash =>
    cases hex
    exact htaken c.taken hash h
  | stat | lstat | readDir | readFile | getEpisode | upsertEpisode | deleteEpisode
  | episodesByFilePath | getTorrentInfo | listTorrents | blacklist =>
    cases hex
    exact ⟨fun _ h => h, fun _ h => .inl h⟩

/-- The state after a store call. -/
def LibraryState.afterCall (s : LibraryState) (st : Store) (written : List Path) : LibraryState :=
  { s with store := st, written := written }

lemma quiet_store (hs : LibraryInv cfg s) (h : o.Mild) (hex : o.exec c s.store = some (r, st')) :
    Quiet cfg s (s.afterCall st' (recordWritten c s.written o r)) := by
  obtain ⟨hback, hkept⟩ := h.files s.written hex
  obtain ⟨hin, hout⟩ := h.engine hex
  have hsteady : ∀ hash,
      Steady (custody s) (custody (s.afterCall st' (recordWritten c s.written o r))) hash := by
    refine fun hash => ⟨fun _ h => h, hin hash, fun x hx => ?_⟩
    cases x with
    | inl p =>
      obtain ⟨hp, ino, data, hnode, hhash⟩ := hx
      exact ⟨(hkept p hp).1, ino, data, hback p ino data hnode, hhash⟩
    | inr i => exact hx
  refine ⟨⟨hs.sound.moves (.of_steady hsteady (i := 0)), fun hash hmem => ?_, fun p hp => ?_⟩,
    hsteady, fun _ _ h => h, rfl⟩
  · exact (hout hash hmem).elim (hs.hex hash) id
  · obtain ⟨hw, hsame⟩ := hkept p hp
    obtain ⟨hash, ⟨ino, data, hnode, hhash⟩, hplaced⟩ := hs.placed p hw
    exact ⟨hash, ⟨ino, data, hsame _ hnode, hhash⟩, hplaced⟩

/-- A write leaves everything as it was, or the data or a torn stub at its path. -/
lemma writeFile_cases {p : Path} {data : Content} {r : Except Errno Unit}
    (hex : (writeFile p data).exec c st = some (r, st')) :
    st'.engine = st.engine ∧
    ((st'.media = st.media ∧
        ∀ q ∈ recordWritten c written (.writeFile p data) r, q ∈ written) ∨
      ∃ ino data', (∀ q, st'.media.node q = if q = p then some (.file ino data') else st.media.node q) ∧
        ∀ q ∈ recordWritten c written (.writeFile p data) r,
          (q = p ∧ data' = data) ∨ (q ≠ p ∧ q ∈ written)) := by
  cases hfail : c.fail with
  | false =>
    simp only [exec, hfail, Bool.false_and, Bool.false_eq_true, if_false] at hex
    obtain ⟨⟨r1, d⟩, hwrite, heq⟩ := Option.map_eq_some_iff.mp hex
    cases heq
    refine ⟨rfl, ?_⟩
    rcases Disk.writeFile_eq_some hwrite with ⟨rfl, -, ino, hall⟩ | ⟨e, rfl, rfl⟩
    · refine .inr ⟨ino, data, hall, fun q hq => ?_⟩
      by_cases hqp : q = p
      · exact .inl ⟨hqp, rfl⟩
      · exact .inr ⟨hqp, (mem_insert_iff.mp hq).resolve_left hqp⟩
    · exact .inl ⟨rfl, fun q hq => by simpa [recordWritten, hfail] using hq⟩
  | true =>
    cases htorn : c.torn with
    | false =>
      simp only [exec, hfail, htorn, Bool.not_false, Bool.and_true, if_true] at hex
      cases hex
      exact ⟨rfl, .inl ⟨rfl, fun q hq => by simpa [recordWritten, hfail, htorn] using hq⟩⟩
    | true =>
      simp only [exec, hfail, htorn, Bool.not_true, Bool.and_false,
        Bool.false_eq_true, if_false, if_true] at hex
      obtain ⟨⟨r1, d⟩, hwrite, heq⟩ := Option.map_eq_some_iff.mp hex
      cases heq
      have hrecord : ∀ q ∈ recordWritten c written (.writeFile p data) (.error .eio),
          q ∈ written ∧ q ≠ p := by
        intro q hq
        simpa [recordWritten, hfail, htorn] using hq
      refine ⟨rfl, ?_⟩
      rcases Disk.writeFile_eq_some hwrite with ⟨rfl, -, ino, hall⟩ | ⟨e, rfl, rfl⟩
      · exact .inr ⟨ino, tornStub, hall, fun q hq => .inr (hrecord q hq).symm⟩
      · exact .inl ⟨rfl, fun q hq => (hrecord q hq).1⟩

/-- A stub is written under the lock of its torrent, which is in the engine. -/
lemma effect_writeFile {p : Path} {data : Content} {r : Except Errno Unit}
    (hs : LibraryInv cfg s) (hold : s.hashLocks.lookup hash = some pid)
    (hin : hash ∈ s.store.engine) (hplaced : Placed cfg p hash)
    (hdata : readStubHash data = some hash)
    (hex : (writeFile p data).exec c s.store = some (r, st')) :
    Effect cfg pid s (s.afterCall st' (recordWritten c s.written (.writeFile p data) r)) := by
  obtain ⟨hengine, hcases⟩ := writeFile_cases s.written hex
  set t := s.afterCall st' (recordWritten c s.written (.writeFile p data) r)
  have hmoves : Moves pid (custody s) (custody t) := by
    intro k
    have hpresent : (custody s).present k → (custody t).present k := fun h => by
      show k ∈ st'.engine
      rw [hengine]
      exact h
    by_cases hk : k = hash
    · subst hk
      exact .inr ⟨hold, fun _ _ => hpresent hin⟩
    refine .inl ⟨fun _ h => h, hpresent, fun x hx => ?_⟩
    cases x with
    | inr i => exact hx
    | inl q =>
      obtain ⟨hq, ino, old, hnode, hhash⟩ := hx
      rcases hcases with ⟨hmedia, hsub⟩ | ⟨ino', data', hall, hsub⟩
      · exact ⟨hsub q hq, ino, old, hmedia ▸ hnode, hhash⟩
      have hnode' : st'.media.node q = some (.file ino old) := hnode
      rw [hall q] at hnode'
      rcases hsub q hq with ⟨rfl, rfl⟩ | ⟨hne, hw⟩
      · rw [if_pos rfl] at hnode'
        obtain ⟨-, rfl⟩ := Node.file.inj (Option.some.inj hnode')
        exact absurd (Option.some.inj (hhash.symm.trans hdata)) hk
      · rw [if_neg hne] at hnode'
        exact ⟨hw, ino, old, hnode', hhash⟩
  refine ⟨⟨hs.sound.moves hmoves, fun k hk => hs.hex k (hengine ▸ hk), fun q hq => ?_⟩, hmoves,
    fun _ _ h => h, fun _ _ => Iff.rfl⟩
  have hold' : q ∈ s.written → (∀ n, s.store.media.node q = some n → st'.media.node q = some n) →
      ∃ k, Carries st'.media q k ∧ Placed cfg q k := by
    intro hw hsame
    obtain ⟨k, ⟨ino, old, hnode, hhash⟩, hpl⟩ := hs.placed q hw
    exact ⟨k, ⟨ino, old, hsame _ hnode, hhash⟩, hpl⟩
  rcases hcases with ⟨hmedia, hsub⟩ | ⟨ino', data', hall, hsub⟩
  · exact hold' (hsub q hq) fun n hn => by rw [hmedia]; exact hn
  · rcases hsub q hq with ⟨rfl, rfl⟩ | ⟨hne, hw⟩
    · exact ⟨hash, ⟨ino', data', (hall q).trans (if_pos rfl), hdata⟩, hplaced⟩
    · exact hold' hw fun n hn => by rw [hall q, if_neg hne]; exact hn

/-- Taking a torrent away only touches its own key. -/
lemma steady_removed {k : String} {abandoned : List ℕ} {r : Bool} (hk : k ≠ hash)
    (hsub : ∀ i, i ∈ s.abandoned → i ∈ abandoned)
    (hex : (removeTorrent hash).exec c s.store = some (r, st')) :
    Steady (custody s) (custody { s with store := st', abandoned := abandoned }) k := by
  cases hex
  refine ⟨fun _ h => h, fun h => ?_, fun x hx => ?_⟩
  · show k ∈ (if c.fail && !c.taken then s.store.engine else s.store.engine.filter (· ≠ hash))
    split_ifs
    · exact h
    · exact mem_filter.mpr ⟨h, decide_eq_true hk⟩
  · cases x with
    | inl p => exact hx
    | inr i => exact ⟨fun h => hx.1 (hsub i h), hx.2⟩

lemma engine_removed {k : String} {r : Bool}
    (hex : (removeTorrent hash).exec c st = some (r, st')) :
    (k ∈ st'.engine → k ∈ st.engine) ∧ (hash ∉ st.engine → st'.engine = st.engine) ∧
      st'.media = st.media := by
  cases hex
  split_ifs
  · exact ⟨id, fun _ => rfl, rfl⟩
  · refine ⟨fun h => (mem_filter.mp h).1, fun h => ?_, rfl⟩
    refine filter_eq_self.mpr fun k hk => ?_
    exact decide_eq_true fun heq => h (heq ▸ hk)

/-- A torrent is dropped under its lock when nothing refers to it. -/
lemma effect_removeTorrent {r : Bool} (hs : LibraryInv cfg s)
    (hold : s.hashLocks.lookup hash = some pid) (hfree : ∀ x, ¬ (custody s).refers hash x)
    (hex : (removeTorrent hash).exec c s.store = some (r, st')) :
    Effect cfg pid s { s with store := st' } := by
  have hmedia : st'.media = s.store.media := (engine_removed (k := hash) hex).2.2
  have hmoves : Moves pid (custody s) (custody { s with store := st' }) := by
    intro k
    by_cases hk : k = hash
    · subst hk
      refine .inr ⟨hold, fun x hx => ?_⟩
      cases x with
      | inl p => exact absurd ⟨hx.1, hmedia ▸ hx.2⟩ (hfree (.inl p))
      | inr i => exact absurd hx (hfree (.inr i))
    · exact .inl (steady_removed hk (fun _ h => h) hex)
  refine ⟨⟨hs.sound.moves hmoves, fun k hk => hs.hex k ((engine_removed hex).1 hk), fun p hp => ?_⟩,
    hmoves, fun _ _ h => h, fun _ _ => Iff.rfl⟩
  obtain ⟨k, ⟨ino, data, hnode, hhash⟩, hpl⟩ := hs.placed p hp
  exact ⟨k, ⟨ino, data, hmedia ▸ hnode, hhash⟩, hpl⟩

/-- A request takes its own torrent back: nobody else refers to it, or it is not
in the engine at all. -/
lemma effect_abandon {r : Bool} (hs : LibraryInv cfg s)
    (hown : hash ∉ s.store.engine ∨ (s.hashLocks.lookup hash = some pid ∧
      ∀ x, (custody s).refers hash x → x = .inr pid))
    (hex : (removeTorrent hash).exec c s.store = some (r, st')) :
    Effect cfg pid s { s with store := st', abandoned := pid :: s.abandoned } := by
  obtain ⟨hback, hsame, hmedia⟩ := engine_removed (k := hash) hex
  have hsub : ∀ i, i ∈ s.abandoned → i ∈ pid :: s.abandoned := fun i h => mem_cons_of_mem _ h
  have hrefers : ∀ x, (custody { s with store := st', abandoned := pid :: s.abandoned }).refers hash x →
      (custody s).refers hash x ∧ x ≠ .inr pid := by
    intro x hx
    cases x with
    | inl p => exact ⟨⟨hx.1, hmedia ▸ hx.2⟩, by simp⟩
    | inr i =>
      refine ⟨⟨fun h => hx.1 (hsub i h), hx.2⟩, ?_⟩
      rintro ⟨rfl⟩
      exact hx.1 (mem_cons_self)
  have hmoves : Moves pid (custody s)
      (custody { s with store := st', abandoned := pid :: s.abandoned }) := by
    intro k
    by_cases hk : k = hash
    · subst hk
      rcases hown with hnot | ⟨hold, honly⟩
      · refine .inl ⟨fun _ h => h, fun h => absurd h hnot, fun x hx => (hrefers x hx).1⟩
      · refine .inr ⟨hold, fun x hx => ?_⟩
        exact absurd (honly x (hrefers x hx).1) (hrefers x hx).2
    · exact .inl (steady_removed hk hsub hex)
  refine ⟨⟨hs.sound.moves hmoves, fun k hk => hs.hex k ((engine_removed hex).1 hk), fun p hp => ?_⟩,
    hmoves, fun _ _ h => h, fun i hi => ?_⟩
  · obtain ⟨k, ⟨ino, data, hnode, hhash⟩, hpl⟩ := hs.placed p hp
    exact ⟨k, ⟨ino, data, hmedia ▸ hnode, hhash⟩, hpl⟩
  · simp [mem_cons, hi]

end StoreCalls

/-! ### Locks, rows and plans -/

/-- A row after a statement that stages nothing was there before, perhaps in
another state. -/
lemma DbCall.row_before {c : Choice} {db : Registry} {call : DbCall}
    (hcall : ∀ txnID rows, call ≠ .stage txnID rows) {r : Metadb.AudioProjection}
    (hr : r ∈ (call.exec c db).2.rows) : ∃ r0 ∈ db.rows, r0.hash = r.hash ∧ r0.txnID = r.txnID := by
  cases call with
  | stage txnID rows => exact absurd rfl (hcall txnID rows)
  | commit txnID t =>
    simp only [DbCall.exec] at hr
    split_ifs at hr
    · exact ⟨r, hr, rfl, rfl⟩
    · obtain ⟨r0, hr0, rfl⟩ := mem_map.mp hr
      refine ⟨r0, hr0, ?_⟩
      split_ifs <;> exact ⟨rfl, rfl⟩
  | get | rollback | mark | markPaths | byPrefix | byState | byHash | delete =>
    rcases DbCall.mem_exec (by exact trivial) hr with hr | ⟨r0, hr0, -, t, rfl⟩
    · exact ⟨r, hr, rfl, rfl⟩
    · exact ⟨r0, hr0, rfl, rfl⟩

/-- Audio operations other than the staging of rows. -/
def Op.Mild : Op → Prop
  | .db _ (.stage _ _) => False
  | _ => True

/-- Operations that disturb nobody. -/
def LibOp.Mild : LibOp → Prop
  | .store o => o.Mild
  | .audio o => o.Mild
  | .unlock _ | .abandon _ => False
  | _ => True

section

variable (hs : LibraryInv cfg s)

include hs

/-- A change of the rows that adds none. -/
lemma quiet_rows {w : World}
    (hrows : ∀ r ∈ w.db.rows, ∃ r0 ∈ s.audio.db.rows, r0.hash = r.hash ∧ r0.txnID = r.txnID) :
    Quiet cfg s { s with audio := w } := by
  have hsteady : ∀ hash, Steady (custody s) (custody { s with audio := w }) hash := by
    refine fun hash => ⟨fun _ h => h, id, fun x hx => ?_⟩
    cases x with
    | inl p => exact hx
    | inr i =>
      obtain ⟨hi, r, hr, rfl, hdrawn⟩ := hx
      obtain ⟨r0, hr0, hhash, htxn⟩ := hrows r hr
      exact ⟨hi, r0, hr0, hhash, htxn ▸ hdrawn⟩
  exact ⟨⟨hs.sound.moves (.of_steady hsteady (i := 0)), hs.hex, hs.placed⟩, hsteady,
    fun _ _ h => h, rfl⟩

lemma quiet_audio {o : Op} {c : Choice} {r : o.Res} {w : World} (h : o.Mild)
    (hex : (machine cfg.streamURL).exec o c s.audio = some (r, w)) :
    Quiet cfg s { s with audio := w } := by
  refine quiet_rows hs fun row hrow => ?_
  cases o with
  | fs undo call =>
    obtain ⟨d, -, rfl⟩ := exec_fs hex
    exact ⟨row, hrow, rfl, rfl⟩
  | db undo call =>
    cases hex
    refine DbCall.row_before (fun txnID rows heq => ?_) hrow
    rw [heq] at h
    exact h
  | render row' =>
    cases hex
    exact ⟨row, hrow, rfl, rfl⟩

/-- Rows are staged under the lock of their torrent, which is in the engine. -/
lemma effect_stage {txnID : String} {rows : List Metadb.AudioProjection} {undo : Bool} {c : Choice}
    {r : Except DbError Unit} {w : World} (hold : s.hashLocks.lookup hash = some pid)
    (hin : hash ∈ s.store.engine) (hrows : ∀ row ∈ rows, row.hash = hash)
    (hex : (machine cfg.streamURL).exec (.db undo (.stage txnID rows)) c s.audio = some (r, w)) :
    Effect cfg pid s { s with audio := w } ∧
      ∀ row ∈ w.db.rows, row ∈ s.audio.db.rows ∨ (row.hash = hash ∧ row.txnID = txnID) := by
  cases hex
  have hnew : ∀ row ∈ ((DbCall.stage txnID rows).exec c s.audio.db).2.rows,
      row ∈ s.audio.db.rows ∨ (row.hash = hash ∧ row.txnID = txnID) := by
    intro row hrow
    simp only [DbCall.exec] at hrow
    split_ifs at hrow
    · exact .inl hrow
    cases hstage : s.audio.db.stageAudioProjections txnID rows with
    | error e =>
      rw [hstage] at hrow
      exact .inl hrow
    | ok db' =>
      rw [hstage] at hrow
      simp only [Registry.rows_stageAudioProjections hstage, mem_append, mem_map] at hrow
      rcases hrow with hrow | ⟨row0, hrow0, rfl⟩
      · exact .inl hrow
      · exact .inr ⟨hrows row0 hrow0, rfl⟩
  set w : World := { s.audio with db := ((DbCall.stage txnID rows).exec c s.audio.db).2 } with hw
  have hmoves : Moves pid (custody s) (custody { s with audio := w }) := by
    intro k
    by_cases hk : k = hash
    · subst hk
      exact .inr ⟨hold, fun _ _ => hin⟩
    refine .inl ⟨fun _ h => h, id, fun x hx => ?_⟩
    cases x with
    | inl p => exact hx
    | inr i =>
      obtain ⟨hi, row, hrow, rfl, hdrawn⟩ := hx
      rcases hnew row hrow with hrow | ⟨heq, -⟩
      · exact ⟨hi, row, hrow, rfl, hdrawn⟩
      · exact absurd heq hk
  exact ⟨⟨⟨hs.sound.moves hmoves, hs.hex, hs.placed⟩, hmoves, fun _ _ h => h, fun _ _ => Iff.rfl⟩, hnew⟩

lemma quiet_lock {key : String} (hfree : s.hashLocks.lookup key = none) :
    Quiet cfg s { s with hashLocks := s.hashLocks.insert key pid } := by
  have hsteady : ∀ hash,
      Steady (custody s) (custody { s with hashLocks := s.hashLocks.insert key pid }) hash := by
    refine fun hash => ⟨fun i hi => ?_, id, fun x hx => ?_⟩
    · have hne : hash ≠ key := by
        rintro rfl
        cases hfree.symm.trans hi
      exact (AList.lookup_insert_ne hne).trans hi
    · cases x <;> exact hx
  exact ⟨⟨hs.sound.moves (.of_steady hsteady (i := 0)), hs.hex, hs.placed⟩, hsteady,
    fun _ _ h => h, rfl⟩

lemma effect_unlock {key : String} (hold : s.hashLocks.lookup key = some pid) :
    Effect cfg pid s { s with hashLocks := s.hashLocks.erase key } := by
  have hrefers : ∀ k x, (custody { s with hashLocks := s.hashLocks.erase key }).refers k x →
      (custody s).refers k x := by
    intro k x hx
    cases x <;> exact hx
  have hmoves : Moves pid (custody s) (custody { s with hashLocks := s.hashLocks.erase key }) := by
    intro k
    by_cases hk : k = key
    · subst hk
      exact .inr ⟨hold, fun x hx => hs.sound k x (hrefers k x hx)⟩
    · exact .inl ⟨fun i hi => (AList.lookup_erase_ne hk).trans hi, id, hrefers k⟩
  exact ⟨⟨hs.sound.moves hmoves, hs.hex, hs.placed⟩, hmoves, fun _ _ h => h, fun _ _ => Iff.rfl⟩

/-- A transaction id nobody uses makes nobody refer to anything. -/
lemma quiet_plan {txnID : String} (hnone : s.drawn.lookup txnID = none)
    (hrows : ∀ r ∈ s.audio.db.rows, r.txnID ≠ txnID) :
    Quiet cfg s { s with drawn := s.drawn.insert txnID pid } := by
  have hsteady : ∀ hash,
      Steady (custody s) (custody { s with drawn := s.drawn.insert txnID pid }) hash := by
    refine fun hash => ⟨fun _ h => h, id, fun x hx => ?_⟩
    cases x with
    | inl p => exact hx
    | inr i =>
      obtain ⟨hi, r, hr, hhash, hdrawn⟩ := hx
      exact ⟨hi, r, hr, hhash, (AList.lookup_insert_ne (hrows r hr)).symm.trans hdrawn⟩
  refine ⟨⟨hs.sound.moves (.of_steady hsteady (i := 0)), hs.hex, hs.placed⟩, hsteady,
    fun txn i hi => ?_, rfl⟩
  have hne : txn ≠ txnID := by
    rintro rfl
    cases hnone.symm.trans hi
  exact (AList.lookup_insert_ne hne).trans hi

lemma Quiet.refl : Quiet cfg s s :=
  ⟨hs, Steady.refl _, fun _ _ h => h, rfl⟩

/-- The show locks are no torrent's. -/
lemma quiet_shows {locks : GoMap String ℕ} {readers : List (String × ℕ)} :
    Quiet cfg s { s with showLocks := locks, showReaders := readers } := by
  have hsteady : ∀ hash,
      Steady (custody s) (custody { s with showLocks := locks, showReaders := readers }) hash :=
    fun hash => ⟨fun _ h => h, id, fun x hx => by cases x <;> exact hx⟩
  exact ⟨⟨hs.sound.moves (.of_steady hsteady (i := 0)), hs.hex, hs.placed⟩, hsteady,
    fun _ _ h => h, rfl⟩

end

lemma exec_store {o : StoreCall} {c : LibChoice} {r : o.Res}
    (hex : LibOp.exec cfg pid (.store o) c s = some (r, s')) :
    ∃ st, o.exec c.store s.store = some (r, st) ∧
      s' = s.afterCall st (recordWritten c.store s.written o r) := by
  obtain ⟨⟨r1, st⟩, hcall, heq⟩ := Option.map_eq_some_iff.mp hex
  cases heq
  exact ⟨st, hcall, rfl⟩

lemma exec_audio {o : Op} {c : LibChoice} {r : o.Res}
    (hex : LibOp.exec cfg pid (.audio o) c s = some (r, s')) :
    ∃ w, (machine cfg.streamURL).exec o c.audio s.audio = some (r, w) ∧
      s' = { s with audio := w } := by
  obtain ⟨⟨r1, w⟩, hcall, heq⟩ := Option.map_eq_some_iff.mp hex
  cases heq
  exact ⟨w, hcall, rfl⟩

lemma exec_abandon {c : LibChoice} {r : Bool}
    (hex : LibOp.exec cfg pid (.abandon hash) c s = some (r, s')) :
    ∃ st, (removeTorrent hash).exec c.store s.store = some (r, st) ∧
      s' = { s with store := st, abandoned := pid :: s.abandoned } := by
  simp only [LibOp.exec] at hex
  obtain ⟨⟨r1, st⟩, hcall, heq⟩ := Option.map_eq_some_iff.mp hex
  cases heq
  exact ⟨st, hcall, rfl⟩

lemma quiet_op {o : LibOp} {c : LibChoice} {r : o.Res} (hs : LibraryInv cfg s) (h : o.Mild)
    (hex : o.exec cfg pid c s = some (r, s')) : Quiet cfg s s' := by
  cases o with
  | store o =>
    obtain ⟨st, hcall, rfl⟩ := exec_store hex
    exact quiet_store hs h hcall
  | audio o =>
    obtain ⟨w, hcall, rfl⟩ := exec_audio hex
    exact quiet_audio hs h hcall
  | unlock | abandon => exact h.elim
  | lock key =>
    simp only [LibOp.exec] at hex
    split at hex
    · cases hex
    · rename_i hfree
      cases hex
      exact quiet_lock hs hfree
  | tryLock key =>
    simp only [LibOp.exec] at hex
    split at hex
    · cases hex
      exact .refl hs
    · rename_i hfree
      cases hex
      exact quiet_lock hs hfree
  | lockShow key =>
    simp only [LibOp.exec] at hex
    split at hex
    · cases hex
      exact quiet_shows hs
    · cases hex
  | rlockShow key =>
    simp only [LibOp.exec] at hex
    split at hex
    · cases hex
    · cases hex
      exact quiet_shows hs
  | unlockShow | runlockShow =>
    cases hex
    exact quiet_shows hs
  | audioHashReferenced hash =>
    cases hex
    exact .refl hs
  | plan hash =>
    simp only [LibOp.exec] at hex
    split at hex
    · cases hex
      exact .refl hs
    · split_ifs at hex with hfresh
      cases hex
      exact quiet_plan hs hfresh.2.1 hfresh.2.2

end Tiramisu.Library
