import Qihse.Kv.Store

/-!
# The newest record of a key

What a lookup finds is `Store.newest`: the record in the memtable, or else the one that the index
pins. `Store.Sound` ties the index to the files, and each internal operation is described by what it
does to `newest`: a mutation sets one key, a flush changes nothing, and a compaction only forgets
records that are dead.
-/

namespace Qihse.Kv

open List Option AList Index

/-! ### Time -/

lemma Payload.expired_mono {p : Payload} {now t : ℕ} (h : now ≤ t) (hp : p.expired now = true) :
    p.expired t = true := by
  unfold expired at hp ⊢
  simp only [decide_eq_true_eq] at hp ⊢
  exact ⟨hp.1, hp.2.trans h⟩

lemma Payload.isDead_mono {p : Payload} {now t : ℕ} (h : now ≤ t) (hp : p.isDead now = true) :
    p.isDead t = true := by
  unfold isDead at hp ⊢
  rw [Bool.or_eq_true] at hp ⊢
  exact hp.imp_right (expired_mono h)

/-- What a maximum over a list starts from and takes in is below it. -/
lemma le_foldl_max {α : Type*} (f : α → ℕ) (n : ℕ) (l : List α) :
    n ≤ l.foldl (fun n a => max n (f a)) n ∧ ∀ a ∈ l, f a ≤ l.foldl (fun n a => max n (f a)) n := by
  induction l generalizing n with
  | nil => simp
  | cons b l ih =>
    obtain ⟨hle, hall⟩ := ih (max n (f b))
    exact ⟨(le_max_left _ _).trans hle, forall_mem_cons.mpr ⟨(le_max_right _ _).trans hle, hall⟩⟩

/-! ### Records of a file -/

/-- The payload of the last record of a key. -/
def lastOf : List Entry → Key → Option Payload
  | [], _ => none
  | e :: es, k => (lastOf es k).or (if e.key = k then some e.payload else none)

section LastOf

variable {es : List Entry} {k : Key} {p : Payload}

lemma lastOf_eq_none : lastOf es k = none ↔ ∀ e ∈ es, e.key ≠ k := by
  induction es with
  | nil => simp [lastOf]
  | cons e es ih =>
    rw [lastOf, or_eq_none_iff, ih, forall_mem_cons]
    split_ifs with h <;> simp [h]

lemma mem_of_lastOf (h : lastOf es k = some p) : ⟨k, p⟩ ∈ es := by
  induction es with
  | nil => simp [lastOf] at h
  | cons e es ih =>
    rw [lastOf, or_eq_some_iff] at h
    obtain h | ⟨-, h⟩ := h
    · exact mem_cons_of_mem _ (ih h)
    · split_ifs at h with hk
      cases h
      subst hk
      exact mem_cons_self

end LastOf

/-- The record at a place. -/
def Files.at (f : Files) (sstableId offset : ℕ) : Option Entry :=
  (f.lookup sstableId).bind fun records => records[offset]?

/-- The record that the index pins for a key. -/
def Index.pinned (idx : Index) (f : Files) (k : Key) : Option Payload :=
  (idx.lookup k).bind fun m => (f.at m.sstableId m.offset).bind fun e =>
    if e.key = k then some e.payload else none

/-- The last record of a key in the files below a number, the files taken in their order. -/
def Files.newestBelow (f : Files) : ℕ → Key → Option Payload
  | 0, _ => none
  | n + 1, k => (lastOf ((f.lookup n).getD []) k).or (Files.newestBelow f n k)

/-- Every entry of the index is that of the record which it pins. -/
def Index.Pins (idx : Index) (f : Files) : Prop :=
  ∀ k m, idx.lookup k = some m →
    ∃ p, f.at m.sstableId m.offset = some ⟨k, p⟩ ∧
      m = (⟨k, p⟩ : Entry).pin m.sstableId m.offset

section Index

variable {idx : Index} {f : Files} {sid : ℕ} {records es : List Entry} {k : Key} {p : Payload}

lemma Index.pins_empty (f : Files) : Index.Pins ∅ f := by
  intro k m h
  cases h

lemma Index.pinned_eq_some : idx.pinned f k = some p ↔
    ∃ m, idx.lookup k = some m ∧ f.at m.sstableId m.offset = some ⟨k, p⟩ := by
  unfold pinned
  simp only [bind_eq_some_iff]
  constructor
  · rintro ⟨m, hm, e, he, hp⟩
    split_ifs at hp with hk
    cases hp
    subst hk
    exact ⟨m, hm, he⟩
  · rintro ⟨m, hm, he⟩
    exact ⟨m, hm, _, he, if_pos rfl⟩

lemma Index.Pins.pinned_eq_none (h : idx.Pins f) : idx.pinned f k = none ↔ idx.lookup k = none := by
  constructor
  · intro hn
    cases hm : idx.lookup k with
    | none => rfl
    | some m =>
      obtain ⟨p, hp, -⟩ := h k m hm
      rw [pinned_eq_some.mpr ⟨m, hm, hp⟩] at hn
      cases hn
  · intro hm
    unfold pinned
    rw [hm]
    rfl

variable {e : Entry} {n : ℕ}

lemma Index.Pins.insert (h : idx.Pins f) (he : f.at sid n = some e) :
    Index.Pins (AList.insert e.key (e.pin sid n) idx) f := by
  intro k m hm
  by_cases hk : k = e.key
  · subst hk
    rw [lookup_insert, some_inj] at hm
    subst hm
    exact ⟨e.payload, he, rfl⟩
  · rw [lookup_insert_ne hk] at hm
    exact h k m hm

lemma Index.pinned_insert (he : f.at sid n = some e) :
    Index.pinned (AList.insert e.key (e.pin sid n) idx) f k =
      if e.key = k then some e.payload else idx.pinned f k := by
  unfold pinned
  by_cases hk : e.key = k
  · subst hk
    simp [Entry.pin, he]
  · rw [lookup_insert_ne (Ne.symm hk), if_neg hk]

/-- The records of a file from some number on, when the file is there. -/
lemma Files.at_of_append {pre : List Entry} (hf : f.lookup sid = some (pre ++ e :: es)) :
    f.at sid pre.length = some e := by
  simp [Files.at, hf]

lemma Index.Pins.addFile (h : idx.Pins f) (pre : List Entry)
    (hf : f.lookup sid = some (pre ++ es)) : (idx.addFile sid es pre.length).Pins f := by
  induction es generalizing idx pre with
  | nil => exact h
  | cons e es ih =>
    simpa [addFile] using ih (h.insert (Files.at_of_append hf)) (pre ++ [e]) (by simpa using hf)

/-- A file that is loaded comes before what was pinned. -/
lemma Index.pinned_addFile (idx : Index) (k : Key) (pre : List Entry)
    (hf : f.lookup sid = some (pre ++ es)) :
    (idx.addFile sid es pre.length).pinned f k = (lastOf es k).or (idx.pinned f k) := by
  induction es generalizing idx pre with
  | nil => rfl
  | cons e es ih =>
    have := ih (AList.insert e.key (e.pin sid pre.length) idx) (pre ++ [e]) (by simpa using hf)
    rw [length_append, length_singleton] at this
    rw [addFile, this, pinned_insert (Files.at_of_append hf), lastOf, Option.or_assoc]
    congr 1
    split_ifs <;> rfl

/-- The index says the same of any files that agree on those which it pins. -/
lemma Index.Pins.congr {g : Files} (h : idx.Pins f) (hg : ∀ id ∈ f, g.lookup id = f.lookup id) :
    idx.Pins g ∧ ∀ k, idx.pinned g k = idx.pinned f k := by
  have hat : ∀ m : Meta, ∀ e, f.at m.sstableId m.offset = some e →
      g.at m.sstableId m.offset = some e := by
    intro m e he
    unfold Files.at at he ⊢
    obtain ⟨records, hr, he⟩ := bind_eq_some_iff.mp he
    have hmem : m.sstableId ∈ f := lookup_isSome.mp (by rw [hr]; rfl)
    rw [hg _ hmem, hr]
    exact he
  have hpins : idx.Pins g := by
    intro k m hm
    obtain ⟨p, hp, hpin⟩ := h k m hm
    exact ⟨p, hat m _ hp, hpin⟩
  refine ⟨hpins, fun k => ?_⟩
  cases hm : idx.lookup k with
  | none => rw [h.pinned_eq_none.mpr hm, hpins.pinned_eq_none.mpr hm]
  | some m =>
    obtain ⟨p, hp, -⟩ := h k m hm
    rw [pinned_eq_some.mpr ⟨m, hm, hp⟩, pinned_eq_some.mpr ⟨m, hm, hat m _ hp⟩]

lemma Files.newestBelow_congr {g : Files} (h : ∀ id < n, g.lookup id = f.lookup id) :
    g.newestBelow n k = f.newestBelow n k := by
  induction n with
  | zero => rfl
  | succ n ih =>
    rw [newestBelow, newestBelow, h n n.lt_succ_self,
      ih fun id hid => h id (Nat.lt_succ_of_lt hid)]

lemma Files.newestBelow_eq_none (h : ∀ id < n, f.lookup id = none) : f.newestBelow n k = none := by
  rw [newestBelow_congr (f := ∅) h]
  induction n with
  | zero => rfl
  | succ n ih =>
    rw [newestBelow, ih fun id hid => h id (Nat.lt_succ_of_lt hid)]
    rfl

end Index

/-! ### The newest record -/

namespace Store

def pinned (s : Store) (k : Key) : Option Payload := s.sstMeta.pinned s.disk.files k

def newest (s : Store) (k : Key) : Option Payload := (s.trie.find k).or (s.pinned k)

/-- The index, the files and the file number belong together. -/
structure Sound (s : Store) : Prop where
  pins : s.sstMeta.Pins s.disk.files
  below : ∀ id ∈ s.disk.files, id < s.sstableCounter
  keyed : ∀ id records, s.disk.files.lookup id = some records → ∀ e ∈ records, e.key ≠ []
  latest : ∀ k, s.pinned k = s.disk.files.newestBelow s.sstableCounter k

/-- A record that is live and within a user's clearance. -/
def readable (user : Access) (now : ℕ) (p : Payload) : Bool :=
  !p.isDead now && user p.classification p.sciCompartment

variable {s s' : Store} {k : Key} {p : Payload} {now : ℕ} {user : Access}

lemma Sound.pinned_ne_nil (h : s.Sound) (hp : s.pinned k = some p) : k ≠ [] := by
  obtain ⟨m, -, hat⟩ := pinned_eq_some.mp hp
  obtain ⟨records, hr, hi⟩ := bind_eq_some_iff.mp hat
  exact h.keyed _ records hr _ (mem_of_getElem? hi)

lemma logicalLookup_eq (s : Store) (k : Key) (now : ℕ) :
    s.logicalLookup k now = match s.newest k with
      | none => .miss
      | some p => if p.isDead now then .dead p else .live p := by
  unfold logicalLookup newest pinned Index.pinned
  cases ht : s.trie.find k with
  | some => rfl
  | none =>
    cases hm : s.sstMeta.lookup k with
    | none => rfl
    | some m =>
      unfold lookupOneSstable
      simp only [bind_some, none_or, Files.at]
      cases s.disk.files.lookup m.sstableId with
      | none => rfl
      | some records =>
        simp only [bind_some]
        cases records[m.offset]? with
        | none => rfl
        | some e =>
          by_cases hk : e.key = k <;> simp [hk]

lemma logicalLookup_eq_live :
    s.logicalLookup k now = .live p ↔ s.newest k = some p ∧ p.isDead now = false := by
  rw [logicalLookup_eq]
  cases s.newest k with
  | none => simp
  | some q =>
    simp only [some_inj]
    cases hq : q.isDead now
    · rw [if_neg Bool.false_ne_true, Lookup.live.injEq]
      constructor
      · rintro rfl
        exact ⟨rfl, hq⟩
      · exact And.left
    · constructor
      · intro h
        cases h
      · rintro ⟨rfl, h⟩
        rw [hq] at h
        cases h

lemma getUser_eq (s : Store) (k : Key) (user : Access) (now : ℕ) :
    s.getUser k user now = ((s.newest k).filter (readable user now)).map Payload.value := by
  unfold getUser
  rw [logicalLookup_eq]
  cases s.newest k with
  | none => rfl
  | some p => cases h : p.isDead now <;> simp [Option.filter, readable, h]

/-- A record stays, or it is dead at a time and goes. -/
def Fades (now : ℕ) (o o' : Option Payload) : Prop :=
  o' = o ∨ o' = none ∧ ∃ p, o = some p ∧ p.isDead now

/-- `s'` has the records of `s` except for some that are dead at a time. -/
def Thins (now : ℕ) (s s' : Store) : Prop := ∀ k, Fades now (s.newest k) (s'.newest k)

lemma Thins.of_newest (h : ∀ k, s'.newest k = s.newest k) : Thins now s s' := fun k => .inl (h k)

variable {t : ℕ}

lemma Fades.trans {o o' o'' : Option Payload} (h : Fades now o o') (h' : Fades t o' o'')
    (ht : now ≤ t) : Fades t o o'' := by
  obtain hk' | ⟨hk', p, hp, hdead⟩ := h'
  · rw [hk']
    obtain hk | ⟨hk, p, hp, hdead⟩ := h
    · exact .inl hk
    · exact .inr ⟨hk, p, hp, Payload.isDead_mono ht hdead⟩
  · obtain hk | ⟨hk, -⟩ := h
    · exact .inr ⟨hk', p, hk ▸ hp, hdead⟩
    · rw [hk] at hp
      cases hp

lemma Thins.trans {s'' : Store} (h : Thins now s s') (h' : Thins t s' s'') (ht : now ≤ t) :
    Thins t s s'' :=
  fun k => (h k).trans (h' k) ht

/-- Later on nobody sees the difference. -/
lemma Thins.getUser_eq (h : Thins now s s') (ht : now ≤ t) (k : Key) (user : Access) :
    s'.getUser k user t = s.getUser k user t := by
  rw [Store.getUser_eq, Store.getUser_eq]
  obtain hk | ⟨hk, p, hp, hdead⟩ := h k
  · rw [hk]
  · have hp' : readable user t p = false := by
      unfold readable
      rw [Payload.isDead_mono ht hdead]
      rfl
    rw [hk, hp]
    simp [Option.filter, hp']

/-! ### File operations -/

lemma issueAll_eq (s : Store) (ops : List FileOp) : s.issueAll ops =
      { s with disk := ops.foldl Disk.apply s.disk, issued := s.issued ++ ops } := by
  induction ops generalizing s with
  | nil => simp [issueAll]
  | cons op ops ih =>
    have := ih (s.issue op)
    unfold issueAll at this ⊢
    rw [foldl_cons, this]
    simp [issue]

/-- What is left after the files below a number are unlinked. -/
lemma lookup_unlink (d : Disk) (n id : ℕ) :
    (((List.range n).map FileOp.unlink).foldl Disk.apply d).files.lookup id =
      if id < n then none else d.files.lookup id := by
  induction n with
  | zero => rfl
  | succ n ih =>
    rw [range_succ, map_append, foldl_append]
    simp only [map_cons, map_nil, foldl_cons, foldl_nil, Disk.apply]
    obtain rfl | hne := eq_or_ne id n
    · rw [lookup_erase, if_pos (Nat.lt_succ_self id)]
    · rw [lookup_erase_ne hne, ih]
      have : id < n + 1 ↔ id < n := by omega
      simp [this]

/-! ### Compaction -/

variable {e : Entry}

lemma mem_emitted {b : Bool} {sid off : ℕ} {es : List Entry} : e ∈ s.emitted b now sid es off ↔
      ∃ i, es[i]? = some e ∧ s.emits b now sid (off + i) e = true := by
  induction es generalizing off with
  | nil => simp [emitted]
  | cons e' es ih =>
    have hsplit : (∃ i, (e' :: es)[i]? = some e ∧ s.emits b now sid (off + i) e = true) ↔
        (e' = e ∧ s.emits b now sid off e = true) ∨
          ∃ i, es[i]? = some e ∧ s.emits b now sid (off + 1 + i) e = true := by
      rw [← Nat.or_exists_add_one]
      simp [add_assoc, add_comm 1]
    rw [hsplit, emitted]
    split_ifs with h
    · rw [mem_cons, ih]
      refine or_congr_left ⟨?_, fun h' => h'.1.symm⟩
      rintro rfl
      exact ⟨rfl, h⟩
    · rw [ih]
      refine (or_iff_right ?_).symm
      rintro ⟨rfl, he⟩
      exact h he

/-- What the walk over the files passes on is what the index pins, unless the memtable has the key
or the record has expired. -/
lemma Sound.mem_foreachNewest (h : s.Sound) {b : Bool} :
    e ∈ s.foreachNewest b now ↔ s.trie.find e.key = none ∧ s.pinned e.key = some e.payload ∧
      (e.payload.tombstone = false → e.payload.expired now = false) ∧
      (b = true ∨ e.payload.tombstone = false) := by
  have hemits : ∀ sid i, s.emits b now sid i e = true ↔
      (∃ m, s.sstMeta.lookup e.key = some m ∧ m.sstableId = sid ∧ m.offset = i) ∧
        s.trie.find e.key = none ∧
        (e.payload.tombstone = false → e.payload.expired now = false) ∧
        (b = true ∨ e.payload.tombstone = false) := by
    intro sid i
    unfold emits
    cases s.sstMeta.lookup e.key <;> cases e.payload.tombstone <;> simp [and_assoc]
  simp only [foreachNewest, mem_flatMap, mem_reverse, List.mem_range, mem_emitted,
    zero_add, hemits]
  constructor
  · rintro ⟨sid, -, i, hi, ⟨m, hm, rfl, rfl⟩, ht, hrest⟩
    refine ⟨ht, pinned_eq_some.mpr ⟨m, hm, ?_⟩, hrest⟩
    unfold Files.at
    cases hf : s.disk.files.lookup m.sstableId with
    | none =>
      rw [hf] at hi
      cases hi
    | some =>
      rw [hf] at hi
      exact hi
  · rintro ⟨ht, hp, hrest⟩
    obtain ⟨m, hm, he⟩ := pinned_eq_some.mp hp
    obtain ⟨records, hr, he⟩ := bind_eq_some_iff.mp he
    have hmem : m.sstableId ∈ s.disk.files := lookup_isSome.mp (by rw [hr]; rfl)
    refine ⟨m.sstableId, h.below _ hmem, m.offset, ?_, ⟨m, hm, rfl, rfl⟩, ht, hrest⟩
    rw [hr]
    exact he

/-- The records that a compaction keeps. -/
def keeps (s : Store) (now : ℕ) (k : Key) (p : Payload) : Bool :=
  if p.tombstone then s.tombstoneHasUnackedReplica k p.changeSeq else !p.expired now

lemma isDead_of_keeps (h : s.keeps now k p = false) : p.isDead now = true := by
  unfold keeps at h
  unfold Payload.isDead
  cases hp : p.tombstone with
  | true => rfl
  | false => simpa [hp] using h

lemma Sound.mem_compacted (h : s.Sound) :
    e ∈ s.compacted now ↔ s.trie.find e.key = none ∧ s.pinned e.key = some e.payload ∧
      s.keeps now e.key e.payload = true := by
  unfold compacted keeps
  rw [mem_filter, h.mem_foreachNewest]
  cases e.payload.tombstone <;> simp [and_assoc]

lemma Sound.lastOf_compacted (h : s.Sound) (k : Key) : lastOf (s.compacted now) k =
      if (s.trie.find k).isNone then (s.pinned k).filter (s.keeps now k) else none := by
  cases hl : lastOf (s.compacted now) k with
  | some =>
    obtain ⟨ht, hp, hk⟩ := h.mem_compacted.mp (mem_of_lastOf hl)
    simp only at ht hp hk
    simp [ht, hp, hk, Option.filter]
  | none =>
    have hno := lastOf_eq_none.mp hl
    split_ifs with ht
    · cases hp : s.pinned k with
      | none => rfl
      | some p =>
        have : s.keeps now k p = false := by
          by_contra hk
          rw [Bool.not_eq_false] at hk
          exact hno ⟨k, p⟩ (h.mem_compacted.mpr ⟨isNone_iff_eq_none.mp ht, hp, hk⟩) rfl
        simp [Option.filter, this]
    · rfl

/-- The files after a compaction that has something to write. -/
lemma Sound.lookup_compactOps (h : s.Sound) (hw : s.compacted now ≠ []) (id : ℕ) :
    ((s.compactOps now).foldl Disk.apply s.disk).files.lookup id =
      if id = s.sstableCounter then some (s.compacted now) else none := by
  unfold compactOps
  rw [if_neg hw, foldl_append, lookup_unlink]
  simp only [foldl_cons, foldl_nil, Disk.apply]
  obtain rfl | hne := eq_or_ne id s.sstableCounter
  · rw [if_neg (lt_irrefl _), lookup_insert, if_pos rfl]
  · rw [lookup_insert_ne hne, if_neg hne]
    split_ifs with hlt
    · rfl
    · exact lookup_eq_none.mpr fun hmem => hlt (h.below id hmem)

lemma Sound.lookup_compactOps_nil (h : s.Sound) (hw : s.compacted now = []) (id : ℕ) :
    ((s.compactOps now).foldl Disk.apply s.disk).files.lookup id = none := by
  unfold compactOps
  rw [if_pos hw, nil_append, lookup_unlink]
  split_ifs with hlt
  · rfl
  · exact lookup_eq_none.mpr fun hmem => hlt (h.below id hmem)

lemma trie_compact (s : Store) (now : ℕ) : (s.compactSstablesStream now).trie = s.trie := by
  unfold compactSstablesStream sstIndexLoadFile
  simp only [issueAll_eq]
  split_ifs
  · rfl
  · rfl
  · split <;> rfl

section

variable (h : s.Sound) (now : ℕ)
include h

/-- A compaction keeps the records of the files that it should. -/
lemma Sound.compact : (s.compactSstablesStream now).Sound ∧
    ∀ k, (s.compactSstablesStream now).pinned k =
      if (s.trie.find k).isNone then (s.pinned k).filter (s.keeps now k) else none := by
  unfold compactSstablesStream
  simp only [issueAll_eq]
  split_ifs with hc hw
  · refine ⟨h, fun k => ?_⟩
    have : s.pinned k = none := by rw [h.latest, hc]; rfl
    rw [this]
    split_ifs <;> rfl
  · have hnone := h.lookup_compactOps_nil hw
    refine ⟨⟨pins_empty _, fun id hid => ?_, fun id records hr => ?_, fun k => rfl⟩,
      fun k => ?_⟩
    · rw [← lookup_isSome] at hid
      simp only [hnone] at hid
      cases hid
    · simp only [hnone] at hr
      cases hr
    · rw [← h.lastOf_compacted k, hw]
      rfl
  · have hfiles := h.lookup_compactOps hw
    unfold sstIndexLoadFile
    simp only [hfiles, if_true]
    have hload := fun k => pinned_addFile ∅ k []
      (by rw [hfiles, if_pos rfl]; rfl)
    refine ⟨⟨?_, ?_, ?_, ?_⟩, ?_⟩
    · exact (pins_empty _).addFile [] (by rw [hfiles, if_pos rfl]; rfl)
    · intro id hid
      rw [← lookup_isSome] at hid
      simp only [hfiles] at hid
      split_ifs at hid with hid'
      · exact hid' ▸ Nat.lt_succ_self _
      · cases hid
    · intro id records hr e he
      simp only [hfiles] at hr
      split_ifs at hr with hid'
      cases hr
      obtain ⟨-, hp, -⟩ := h.mem_compacted.mp he
      exact h.pinned_ne_nil hp
    · intro k
      rw [Files.newestBelow, Files.newestBelow_eq_none (fun id hid => by
        rw [hfiles, if_neg hid.ne]), hfiles, if_pos rfl]
      exact hload k
    · intro k
      rw [← h.lastOf_compacted k, ← or_none (o := lastOf _ _)]
      exact hload k

/-- A compaction drops a record only when it does not keep it. -/
lemma Sound.compact_cases (k : Key) :
    (s.compactSstablesStream now).newest k = s.newest k ∨
      (s.compactSstablesStream now).newest k = none ∧ s.trie.find k = none ∧
        ∃ p, s.pinned k = some p ∧ s.newest k = some p ∧ s.keeps now k p = false := by
  unfold newest
  rw [trie_compact, (h.compact now).2 k]
  cases ht : s.trie.find k with
  | some => exact .inl rfl
  | none =>
    simp only [isNone_none, if_true, none_or]
    cases hp : s.pinned k with
    | none => exact .inl rfl
    | some p =>
      cases hk : s.keeps now k p with
      | true => exact .inl (by simp [Option.filter, hk])
      | false => exact .inr ⟨by simp [Option.filter, hk], trivial, p, rfl, rfl, hk⟩

lemma Sound.thins_compact : Thins now s (s.compactSstablesStream now) := by
  intro k
  refine (h.compact_cases now k).imp_right ?_
  rintro ⟨hnone, -, p, -, hnew, hk⟩
  exact ⟨hnone, p, hnew, isDead_of_keeps hk⟩

end

/-! ### Flush -/

lemma mem_memtable : e ∈ s.memtable ↔ s.trie.find e.key = some e.payload := by
  unfold memtable
  rw [List.mem_map, ← Tst.Trie.mem_entries]
  constructor
  · rintro ⟨kp, hkp, rfl⟩
    exact hkp
  · intro h
    exact ⟨_, h, rfl⟩

lemma key_ne_nil_of_find (h : s.trie.find k = some p) : k ≠ [] := by
  rintro rfl
  cases h

lemma lastOf_memtable (s : Store) (k : Key) : lastOf s.memtable k = s.trie.find k := by
  cases hl : lastOf s.memtable k with
  | some => exact (mem_memtable.mp (mem_of_lastOf hl)).symm
  | none =>
    cases ht : s.trie.find k with
    | none => rfl
    | some p => exact absurd rfl (lastOf_eq_none.mp hl ⟨k, p⟩ (mem_memtable.mpr ht))

/-- A flush moves the memtable to a file. -/
lemma Sound.flushMemtable (h : s.Sound) : s.flushMemtable.Sound ∧
    ∀ k, s.flushMemtable.pinned k = s.newest k := by
  have hfresh : s.sstableCounter ∉ s.disk.files := fun hmem => lt_irrefl _ (h.below _ hmem)
  unfold Store.flushMemtable Store.pinned
  simp only [issueAll_eq, foldl_cons, foldl_nil, Disk.apply]
  have hold : ∀ id ∈ s.disk.files,
      (AList.insert s.sstableCounter s.memtable s.disk.files).lookup id =
        s.disk.files.lookup id :=
    fun id hid => lookup_insert_ne fun he => hfresh (he ▸ hid)
  have hnew : (AList.insert s.sstableCounter s.memtable s.disk.files).lookup s.sstableCounter =
      some ([] ++ s.memtable) := lookup_insert _
  have hpinned : ∀ k, (s.sstMeta.addFile s.sstableCounter s.memtable 0).pinned
      (AList.insert s.sstableCounter s.memtable s.disk.files) k = s.newest k := by
    intro k
    have := pinned_addFile s.sstMeta k [] hnew
    rw [length_nil] at this
    rw [this, lastOf_memtable, (h.pins.congr hold).2]
    rfl
  refine ⟨⟨(h.pins.congr hold).1.addFile [] hnew, ?_, ?_, ?_⟩, hpinned⟩
  · intro id hid
    obtain rfl | hid := (mem_insert _).mp hid
    · exact Nat.lt_succ_self _
    · exact Nat.lt_succ_of_lt (h.below id hid)
  · intro id records hr e he
    by_cases hid : id = s.sstableCounter
    · subst hid
      simp only [hnew, nil_append, some_inj] at hr
      subst hr
      exact key_ne_nil_of_find (mem_memtable.mp he)
    · simp only [lookup_insert_ne hid] at hr
      exact h.keyed id records hr e he
  · intro k
    refine (hpinned k).trans ?_
    rw [Files.newestBelow, hnew, getD_some, nil_append, lastOf_memtable,
      Files.newestBelow_congr (f := s.disk.files), ← h.latest]
    · rfl
    · intro id hid
      exact lookup_insert_ne hid.ne

lemma Sound.newest_flushMemtable (h : s.Sound) (k : Key) :
    s.flushMemtable.newest k = s.newest k := by
  rw [← h.flushMemtable.2 k]
  unfold newest
  have : s.flushMemtable.trie = Tst.Trie.empty := rfl
  rw [this, Tst.Trie.find_empty]
  rfl

lemma Sound.flush (h : s.Sound) (now : ℕ) : (s.flushMemtableToSstable now).Sound ∧
    Thins now s (s.flushMemtableToSstable now) := by
  have hflush : Thins now s s.flushMemtable := Thins.of_newest h.newest_flushMemtable
  unfold flushMemtableToSstable
  split_ifs
  · exact ⟨(h.flushMemtable.1.compact now).1,
      hflush.trans (h.flushMemtable.1.thins_compact now) le_rfl⟩
  · exact ⟨h.flushMemtable.1, hflush⟩

lemma Sound.flushIfFull (h : s.Sound) (now : ℕ) : (s.flushIfFull now).Sound ∧
    Thins now s (s.flushIfFull now) := by
  unfold Store.flushIfFull
  split_ifs
  · exact h.flush now
  · exact ⟨h, Thins.of_newest fun _ => rfl⟩

/-! ### Mutation -/

/-- A record goes to the log and to the memtable. -/
def put (s : Store) (e : Entry) : Store := (s.walAppend e).insertInternal e

lemma Sound.put (h : s.Sound) (e : Entry) : (s.put e).Sound := { h with }

lemma newest_put (he : e.key ≠ []) (k : Key) :
    (s.put e).newest k = if k = e.key then some e.payload else s.newest k := by
  have hfind : (s.put e).trie.find k = if k = e.key then some e.payload else s.trie.find k :=
    Tst.Trie.find_insert he
  unfold newest
  rw [hfind]
  split_ifs
  · rfl
  · rfl

end Store

end Qihse.Kv
