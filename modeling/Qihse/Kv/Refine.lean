import Qihse.Kv.Newest

/-!
# The store as a map with expiry

`Reference` is what the store is for: a map from keys to values, each with a deadline or without.
Whatever flushes and compactions a sequence of calls sets off, the store answers as the map that
only sees the calls which succeeded.
-/

namespace Qihse.Kv

open List Option Function Payload Store

/-! ### Calls -/

/-- A string of the caller, without its terminator. -/
structure CString where
  bytes : List UInt8
  noNul : 0 ∉ bytes

/-- The readings of `current_time_ms` in one call: milliseconds since the epoch. -/
structure Clock where
  read : ℕ → ℕ
  mono : Monotone read
  pos : 0 < read 0
  lt : ∀ n, read n < 2 ^ 64

inductive Op
  | set (key value : CString) (classification sciCompartment : UInt16)
  | del (key : CString)
  | expire (key : CString) (ttlMs : ℕ)
  | sweep
  | clear
  | sync

structure Call where
  op : Op
  clock : Clock

/-- What a call returns; for `clear` the keys that went, where the code returns their number. -/
inductive Response
  | done (ok : Bool)
  | removed (keys : List Key)

/-- The response to a call that may be refused. -/
def Store.answer (s : Store) : Option Store → Store × Response
  | none => (s, .done false)
  | some s' => (s', .done true)

/-- A call by a user with every clearance. -/
def Store.exec (s : Store) (c : Call) : Store × Response :=
  match c.op with
  | .set key value classification sci =>
    s.answer (s.setUser key.bytes value.bytes classification sci cleared (c.clock.read 0))
  | .del key => s.answer (s.delUser key.bytes cleared (c.clock.read 0) (c.clock.read 1))
  | .expire key ttlMs =>
    s.answer
      (s.expire key.bytes ttlMs cleared (c.clock.read 0) (c.clock.read 1) (c.clock.read 2))
  | .sweep => (s.sweepExpired (c.clock.read 0) (c.clock.read 1), .done true)
  | .clear =>
    let r := s.clearUser cleared c.clock.read
    (r.1, .removed r.2)
  | .sync => (s.syncStore (c.clock.read 0), .done true)

/-- A store on an empty data directory. -/
def Store.fresh (cursors : List Cursor) : Store := .create ⟨∅, [], cursors⟩

/-! ### The reference -/

/-- A value with its deadline. -/
structure Cell where
  value : Value
  deadline : Option ℕ

def Cell.get (c : Cell) (t : ℕ) : Option Value :=
  if c.deadline.any (· ≤ t) then none else some c.value

abbrev Reference : Type := Key → Option Cell

namespace Reference

def get (r : Reference) (k : Key) (t : ℕ) : Option Value := (r k).bind fun c => c.get t

/-- The effect of a call that was answered so. -/
def step (r : Reference) (c : Call) : Response → Reference
  | .done false => r
  | .removed keys => fun k => if k ∈ keys then none else r k
  | .done true =>
    match c.op with
    | .set key value _ _ => update r key.bytes (some ⟨value.bytes, none⟩)
    | .del key => update r key.bytes none
    | .expire key ttlMs =>
      update r key.bytes
        ((r key.bytes).map fun x => ⟨x.value, some (c.clock.read 1 + ttlMs)⟩)
    | .sweep | .clear | .sync => r

end Reference

/-- The store and the reference side by side. -/
def stepBoth (sr : Store × Reference) (c : Call) : Store × Reference :=
  ((sr.1.exec c).1, sr.2.step c (sr.1.exec c).2)

def runBoth (cursors : List Cursor) (calls : List Call) : Store × Reference :=
  calls.foldl stepBoth (fresh cursors, fun _ => none)

/-- The clock never goes back from one call to the next. -/
def InOrder (calls : List Call) : Prop :=
  calls.Pairwise fun a b => ∀ n, a.clock.read n ≤ b.clock.read 0

namespace Store

variable {s s' : Store} {k : Key} {p : Payload} {now t : ℕ} {user : Access}

/-! ### Counting -/

lemma Sound.mem_liveKeys (h : s.Sound) :
    k ∈ s.liveKeys user now ↔ ∃ p, s.newest k = some p ∧ readable user now p = true := by
  have hmem : k ∈ (s.memtable.filter fun e => readable user now e.payload).map Entry.key ↔
      ∃ p, s.trie.find k = some p ∧ readable user now p = true := by
    simp only [List.mem_map, mem_filter, mem_memtable]
    constructor
    · rintro ⟨e, ⟨he, hr⟩, rfl⟩
      exact ⟨e.payload, he, hr⟩
    · rintro ⟨p, hp, hr⟩
      exact ⟨⟨k, p⟩, ⟨hp, hr⟩, rfl⟩
  have hidx : k ∈ (s.unshadowed.filter fun km => !km.2.isDead now &&
        user km.2.classification km.2.sciCompartment).map Prod.fst ↔
      s.trie.find k = none ∧ ∃ p, s.pinned k = some p ∧ readable user now p = true := by
    simp only [unshadowed, List.mem_map, mem_filter, isNone_iff_eq_none]
    constructor
    · rintro ⟨⟨k', m⟩, ⟨⟨⟨km, hkm, heq⟩, ht⟩, hr⟩, rfl⟩
      cases heq
      have hm : s.sstMeta.lookup km.1 = some km.2 := AList.mem_lookup_iff.mpr hkm
      obtain ⟨p, hp, hpin⟩ := h.pins _ _ hm
      refine ⟨ht, p, Index.pinned_eq_some.mpr ⟨_, hm, hp⟩, ?_⟩
      rw [hpin] at hr
      exact hr
    · rintro ⟨ht, p, hp, hr⟩
      obtain ⟨m, hm, hat⟩ := Index.pinned_eq_some.mp hp
      obtain ⟨q, hq, hpin⟩ := h.pins _ _ hm
      rw [hat, some_inj] at hq
      cases hq
      refine ⟨(k, m), ⟨⟨⟨⟨k, m⟩, AList.mem_lookup_iff.mp hm, rfl⟩, ht⟩, ?_⟩, rfl⟩
      rw [hpin]
      exact hr
  unfold liveKeys newest
  rw [mem_append]
  refine (or_congr hmem hidx).trans ?_
  cases s.trie.find k with
  | none | some => simp

lemma nodup_liveKeys (s : Store) (user : Access) (now : ℕ) : (s.liveKeys user now).Nodup := by
  unfold liveKeys
  rw [nodup_append]
  refine ⟨?_, ?_, ?_⟩
  · have : (s.memtable.map Entry.key).Nodup := by
      simpa [memtable, List.map_map, comp_def] using s.trie.nodup_entries
    exact this.sublist (filter_sublist.map _)
  · have : ((s.sstMeta.entries.map fun km => (km.1, km.2)).map Prod.fst).Nodup := by
      simpa [List.map_map, comp_def, AList.keys, List.keys] using s.sstMeta.keys_nodup
    exact this.sublist ((filter_sublist.trans filter_sublist).map _)
  · rintro a ha b hb rfl
    obtain ⟨e, he, rfl⟩ := List.mem_map.mp ha
    obtain ⟨km, hkm, hkey⟩ := List.mem_map.mp hb
    have hfind := mem_memtable.mp (mem_of_mem_filter he)
    have hnone := (mem_filter.mp (mem_of_mem_filter hkm)).2
    rw [hkey, hfind] at hnone
    cases hnone

lemma isSome_getUser :
    (s.getUser k user now).isSome ↔ ∃ p, s.newest k = some p ∧ readable user now p = true := by
  rw [getUser_eq]
  cases s.newest k with
  | none => simp
  | some p => cases h : readable user now p <;> simp [Option.filter, h]

/-- The count is the number of keys that a lookup finds. -/
lemma Sound.encard_eq (h : s.Sound) (user : Access) (now : ℕ) :
    {k | (s.getUser k user now).isSome}.encard = s.countUser user now := by
  have hset : {k | (s.getUser k user now).isSome} = ((s.liveKeys user now).toFinset : Set Key) := by
    ext k
    rw [Set.mem_ofPred_eq, isSome_getUser, Finset.mem_coe, List.mem_toFinset, h.mem_liveKeys]
  rw [hset, Set.encard_coe_eq_coe_finsetCard,
    toFinset_card_of_nodup (s.nodup_liveKeys user now)]
  rfl

/-! ### What a call does to the answers -/

lemma readable_of_le (ht : now ≤ t) (h : readable user t p = true) :
    readable user now p = true := by
  unfold readable at h ⊢
  rw [Bool.and_eq_true, Bool.not_eq_true'] at h ⊢
  refine ⟨?_, h.2⟩
  by_contra hdead
  rw [Bool.not_eq_false] at hdead
  rw [isDead_mono ht hdead] at h
  cases h.1

/-- A key that is gone stays away. -/
lemma getUser_eq_none_of_le (ht : now ≤ t) (h : s.getUser k user now = none) :
    s.getUser k user t = none := by
  rw [← not_isSome_iff_eq_none, isSome_getUser] at h ⊢
  rintro ⟨p, hp, hr⟩
  exact h ⟨p, hp, readable_of_le ht hr⟩

lemma newest_of_find (h : s.trie.find k = some p) : s.newest k = some p := by
  unfold newest
  rw [h]
  rfl

lemma getUser_put {e : Entry} (he : e.key ≠ []) (k : Key) (user : Access) (t : ℕ) :
    (s.put e).getUser k user t =
      if k = e.key then (if readable user t e.payload then some e.payload.value else none)
      else s.getUser k user t := by
  rw [getUser_eq, newest_put he]
  split_ifs with hk hr
  · simp [Option.filter, hr]
  · simp [Option.filter, hr]
  · exact (getUser_eq s k user t).symm

lemma changeSeqNext_lt {seq : ℕ} (h : s.changeSeqNext = some seq) :
    s.changeSeq < seq ∧ 0 < seq ∧ seq < 2 ^ 64 := by
  unfold changeSeqNext at h
  split_ifs at h with hlt
  cases h
  exact ⟨Nat.lt_succ_self _, Nat.succ_pos _, hlt⟩

lemma framed_tombstone {seq : ℕ} (h : (⟨k, p⟩ : Entry).Framed) (hseq : 0 < seq ∧ seq < 2 ^ 64)
    (classification sci : UInt16) : (tombstone k seq classification sci).Framed where
  key := h.key
  value := ⟨Nat.zero_le _, not_mem_nil⟩
  expire := Nat.two_pow_pos 64
  changeSeq := hseq
  tombstone _ := ⟨rfl, rfl⟩

lemma setRecord_eq_some {key : Key} {value : Value} {expireTimeMs : ℕ} {classification sci : UInt16}
    (h : s.setRecord key value expireTimeMs classification sci user = some s') :
    ∃ seq, s.changeSeqNext = some seq ∧ key ≠ [] ∧ key.length ≤ maxKeyLen ∧
      value.length ≤ maxValueLen ∧
      s' = s.put ⟨key, value, expireTimeMs, seq, classification, sci, false⟩ := by
  unfold setRecord at h
  split_ifs at h with h1 h2 h3 h4
  obtain ⟨seq, hseq, rfl⟩ := map_eq_some_iff.mp h
  rw [not_or] at h1 h2
  exact ⟨seq, hseq, h1.2, not_lt.mp h2.1, not_lt.mp h2.2, rfl⟩

lemma delRecord_eq_some (h : s.delRecord k user now = some s') :
    ∃ p seq, s.newest k = some p ∧ p.isDead now = false ∧ s.changeSeqNext = some seq ∧
      s' = s.put (tombstone k seq p.classification p.sciCompartment) := by
  unfold delRecord at h
  split at h
  case h_1 p hp =>
    split_ifs at h with huser
    obtain ⟨seq, hseq, rfl⟩ := map_eq_some_iff.mp h
    obtain ⟨hnew, hlive⟩ := logicalLookup_eq_live.mp hp
    exact ⟨p, seq, hnew, hlive, hseq, rfl⟩
  case h_2 => cases h

lemma expireRecord_eq_some {ttlMs now' : ℕ} (h : s.expireRecord k ttlMs user now now' = some s') :
    ∃ p, s.newest k = some p ∧ p.isDead now = false ∧ (now' < 2 ^ 64 → now' + ttlMs < 2 ^ 64) ∧
      s.setRecord k p.value (now' + ttlMs) p.classification p.sciCompartment user = some s' := by
  unfold expireRecord at h
  split at h
  · cases h
  · split at h
    case h_1 p hp =>
      split_ifs at h with huser httl
      obtain ⟨hnew, hlive⟩ := logicalLookup_eq_live.mp hp
      exact ⟨p, hnew, hlive, fun hlt => by omega, h⟩
    case h_2 => cases h

lemma delUserImpl_eq_none {now' : ℕ} (h : s.delUserImpl k cleared now now' = none) :
    s.getUser k cleared now = none ∨ s.changeSeqNext = none := by
  unfold delUserImpl at h
  rw [map_eq_none_iff] at h
  unfold delRecord at h
  unfold getUser
  split at h
  case h_1 p hp =>
    exact .inr (map_eq_none_iff.mp h)
  case h_2 => exact .inl rfl

/-- Every record in the index or the memtable has a key. -/
lemma Sound.key_ne_nil (h : s.Sound) (hp : s.newest k = some p) : k ≠ [] := by
  obtain ht | ⟨-, hp⟩ := or_eq_some_iff.mp hp
  · exact key_ne_nil_of_find ht
  · exact h.pinned_ne_nil hp

lemma changeSeq_issueAll (s : Store) (ops : List FileOp) :
    (s.issueAll ops).changeSeq = s.changeSeq := by
  rw [issueAll_eq]

lemma changeSeq_le_sstIndexLoadFile (s : Store) (id : ℕ) :
    s.changeSeq ≤ (s.sstIndexLoadFile id).changeSeq := by
  unfold sstIndexLoadFile
  split
  · exact le_rfl
  · exact (le_foldl_max _ _ _).1

lemma changeSeq_le_compact (s : Store) (now : ℕ) :
    s.changeSeq ≤ (s.compactSstablesStream now).changeSeq := by
  unfold compactSstablesStream
  split_ifs
  · exact le_rfl
  · exact (s.changeSeq_issueAll _).ge
  · refine le_trans ?_ (changeSeq_le_sstIndexLoadFile _ _)
    exact (s.changeSeq_issueAll _).ge

/-! ### What calls are made of -/

/-- Every record that is found can be logged. -/
def Framed (s : Store) : Prop := ∀ k p, s.newest k = some p → (⟨k, p⟩ : Entry).Framed

/-- A record is written: its sequence is a new one, and it can be logged if all those of the store
can. -/
def Puts (s s' : Store) : Prop :=
  ∃ e : Entry, (s.Framed → e.Framed) ∧ s.changeSeq < e.payload.changeSeq ∧ s' = s.put e

lemma puts_setRecord {key : Key} {value : Value} {expireTimeMs : ℕ} {classification sci : UInt16}
    (hkey : 0 ∉ key) (hvalue : s.Framed → 0 ∉ value) (hexpire : expireTimeMs < 2 ^ 64)
    (hs : s.setRecord key value expireTimeMs classification sci user = some s') : Puts s s' := by
  obtain ⟨seq, hseq, hne, hklen, hvlen, rfl⟩ := setRecord_eq_some hs
  obtain ⟨hlt, hrange⟩ := changeSeqNext_lt hseq
  refine ⟨_, fun hall => ?_, hlt, rfl⟩
  exact ⟨⟨hne, hklen, hkey⟩, ⟨hvlen, hvalue hall⟩, hexpire, hrange, fun ht => nomatch ht⟩

lemma puts_delRecord (hs : s.delRecord k user now = some s') : Puts s s' := by
  obtain ⟨p, seq, hp, -, hseq, rfl⟩ := delRecord_eq_some hs
  obtain ⟨hlt, hrange⟩ := changeSeqNext_lt hseq
  exact ⟨_, fun hall => framed_tombstone (hall _ p hp) hrange _ _, hlt, rfl⟩

lemma puts_expireRecord {ttlMs now' : ℕ} (hkey : 0 ∉ k) (hnow : now' < 2 ^ 64)
    (hs : s.expireRecord k ttlMs user now now' = some s') : Puts s s' := by
  obtain ⟨p, hp, -, hexpire, hset⟩ := expireRecord_eq_some hs
  exact puts_setRecord hkey (fun hall => (hall _ p hp).value.2) (hexpire hnow) hset

lemma puts_tombstoneExpiredKey (s : Store) (k : Key) :
    s.tombstoneExpiredKey k = s ∨ Puts s (s.tombstoneExpiredKey k) := by
  unfold tombstoneExpiredKey
  cases ht : s.trie.find k with
  | none => exact .inl rfl
  | some p =>
    cases hseq : s.changeSeqNext with
    | none => exact .inl rfl
    | some =>
      obtain ⟨hlt, hrange⟩ := changeSeqNext_lt hseq
      have hnew := newest_of_find ht
      exact .inr ⟨_, fun hall => framed_tombstone (hall k p hnew) hrange _ _, hlt, rfl⟩

/-- A property that all the parts of a call keep. -/
structure Kept (P : Store → Prop) : Prop where
  put : ∀ ⦃s s'⦄, P s → Puts s s' → P s'
  flushMemtable : ∀ {s : Store}, P s → P s.flushMemtable
  compact : ∀ {s : Store} (now : ℕ), P s → P (s.compactSstablesStream now)

lemma kept_tombstoneExpiredKeys {P : Store → Prop} (hP : ∀ ⦃s s'⦄, P s → Puts s s' → P s')
    (h : P s) (ks : List Key) : P (ks.foldl tombstoneExpiredKey s) := by
  refine List.foldlRecOn ks _ h fun s h k _ => ?_
  obtain hsame | hputs := s.puts_tombstoneExpiredKey k
  · exact hsame.symm ▸ h
  · exact hP h hputs

section

variable {P : Store → Prop} (hP : Kept P) (h : P s)
include hP h

lemma Kept.flush (now : ℕ) : P (s.flushMemtableToSstable now) := by
  unfold flushMemtableToSstable
  split_ifs
  · exact hP.compact now (hP.flushMemtable h)
  · exact hP.flushMemtable h

lemma Kept.flushIfFull (now : ℕ) : P (s.flushIfFull now) := by
  unfold Store.flushIfFull
  split_ifs
  · exact hP.flush h now
  · exact h

lemma Kept.delUserImpl {now' : ℕ} (hd : s.delUserImpl k user now now' = some s') : P s' := by
  obtain ⟨s1, hs1, rfl⟩ := map_eq_some_iff.mp hd
  exact hP.flushIfFull (hP.put h (puts_delRecord hs1)) now'

lemma Kept.delEach (user : Access) (clock : ℕ → ℕ) (n : ℕ) (ks : List Key) :
    P (delEach user clock n s ks).1 := by
  induction ks generalizing s n with
  | nil => exact h
  | cons k ks ih =>
    unfold delEach
    cases hd : s.delUserImpl k user (clock n) (clock (n + 1)) with
    | none => exact ih h (n + 2)
    | some => exact ih (hP.delUserImpl h hd) (n + 2)

lemma Kept.exec (c : Call) : P (s.exec c).1 := by
  have hanswer : ∀ o : Option Store, (∀ s', o = some s' → P s') → P (s.answer o).1 := by
    intro o ho
    cases o with
    | none => exact h
    | some s' => exact ho s' rfl
  obtain ⟨op, clock⟩ := c
  cases op with
  | set key value =>
    refine hanswer _ fun s' hs => ?_
    obtain ⟨s1, hs1, rfl⟩ := map_eq_some_iff.mp hs
    have hputs := puts_setRecord key.noNul (fun _ => value.noNul) (Nat.two_pow_pos 64) hs1
    exact hP.flushIfFull (hP.put h hputs) _
  | del =>
    refine hanswer _ fun s' hs => ?_
    unfold delUser at hs
    split_ifs at hs
    exact hP.delUserImpl h hs
  | expire key =>
    refine hanswer _ fun s' hs => ?_
    obtain ⟨s1, hs1, rfl⟩ := map_eq_some_iff.mp hs
    exact hP.flushIfFull (hP.put h (puts_expireRecord key.noNul (clock.lt 1) hs1)) _
  | sweep =>
    have hswept := kept_tombstoneExpiredKeys hP.put h (s.expiredKeys (clock.read 0))
    unfold Store.exec Store.sweepExpired
    split_ifs
    · exact hP.compact _ h
    · exact h
    · exact hP.compact _ hswept
    · exact hswept
  | clear =>
    have hdeleted := hP.delEach h cleared clock.read 1 (s.liveKeys cleared (clock.read 0))
    unfold Store.exec Store.clearUser
    dsimp only
    split_ifs
    · exact h
    · exact hP.compact _ hdeleted
    · exact hdeleted
  | sync =>
    unfold Store.exec syncStore
    split_ifs
    · exact hP.flush h _
    · exact h

end

/-- Sequences only go up. -/
lemma kept_changeSeq (n : ℕ) : Kept fun s => n ≤ s.changeSeq where
  put := by
    rintro s _ h ⟨e, -, hlt, rfl⟩
    exact h.trans hlt.le
  flushMemtable h := h.trans (changeSeq_issueAll _ _).ge
  compact now h := h.trans (changeSeq_le_compact _ now)

lemma replicaReadOnly_compact (s : Store) (now : ℕ) :
    (s.compactSstablesStream now).replicaReadOnly = s.replicaReadOnly := by
  unfold compactSstablesStream sstIndexLoadFile
  simp only [issueAll_eq]
  split_ifs
  · rfl
  · rfl
  · split <;> rfl

/-- No call changes whether the store is a replica. -/
lemma kept_replicaReadOnly (b : Bool) : Kept fun s => s.replicaReadOnly = b where
  put := by
    rintro s _ h ⟨e, -, -, rfl⟩
    exact h
  flushMemtable {s} h := by
    unfold flushMemtable
    exact h
  compact now h := (replicaReadOnly_compact _ now).trans h

lemma kept_sound : Kept Sound where
  put := by
    rintro s _ h ⟨e, -, -, rfl⟩
    exact h.put e
  flushMemtable h := h.flushMemtable.1
  compact now h := (h.compact now).1

/-! ### Answers -/

/-- From a time on two stores answer alike. -/
def Alike (now : ℕ) (s s' : Store) : Prop :=
  ∀ k user t, now ≤ t → s'.getUser k user t = s.getUser k user t

lemma Alike.trans {s'' : Store} (h : Alike now s s') (h' : Alike now s' s'') : Alike now s s'' :=
  fun k user t ht => (h' k user t ht).trans (h k user t ht)

lemma Alike.mono {now' : ℕ} (h : Alike now s s') (hle : now ≤ now') : Alike now' s s' :=
  fun k user t ht => h k user t (hle.trans ht)

lemma Thins.alike (h : Thins now s s') : Alike now s s' :=
  fun k user _ ht => h.getUser_eq ht k user

/-- A record that is written is the answer from then on. -/
lemma Sound.getUser_put_flush (h : s.Sound) {e : Entry} (he : e.key ≠ []) (k : Key) (ht : now ≤ t) :
    ((s.put e).flushIfFull now).getUser k cleared t =
      if k = e.key then (if e.payload.isDead t then none else some e.payload.value)
      else s.getUser k cleared t := by
  rw [((h.put e).flushIfFull now).2.getUser_eq ht, getUser_put he]
  cases hd : e.payload.isDead t <;> simp [readable, cleared, hd]

/-- Sweeping the memtable changes no answer. -/
lemma alike_tombstoneExpiredKey (hk : ∀ p, s.trie.find k = some p → p.isDead now = true) :
    (∀ k' p, (s.tombstoneExpiredKey k).trie.find k' = some p →
      s.trie.find k' = some p ∨ k' = k ∧ p.isDead now = true) ∧
        Alike now s (s.tombstoneExpiredKey k) := by
  unfold tombstoneExpiredKey
  cases ht : s.trie.find k with
  | none => exact ⟨fun _ _ => .inl, fun _ _ _ _ => rfl⟩
  | some p =>
    cases hseq : s.changeSeqNext with
    | none => exact ⟨fun _ _ => .inl, fun _ _ _ _ => rfl⟩
    | some seq =>
      have hne : k ≠ [] := key_ne_nil_of_find ht
      refine ⟨?_, ?_⟩
      · intro k' q hq
        have hfind : (if k' = k then
            some (tombstone k seq p.classification p.sciCompartment).payload
            else s.trie.find k') = some q := (Tst.Trie.find_insert hne).symm.trans hq
        split_ifs at hfind with hk'
        · rw [some_inj] at hfind
          exact .inr ⟨hk', hfind ▸ rfl⟩
        · exact .inl hfind
      · intro k' user t hnow
        refine (getUser_put (e := tombstone k seq p.classification p.sciCompartment) hne
          k' user t).trans ?_
        split_ifs with hk' hr
        · simp [readable, isDead, tombstone] at hr
        · obtain rfl : k' = k := hk'
          rw [getUser_eq, newest_of_find ht]
          simp [Option.filter, readable, isDead_mono hnow (hk p ht)]
        · rfl

lemma alike_tombstoneExpiredKeys {ks : List Key}
    (hks : ∀ k ∈ ks, ∀ p, s.trie.find k = some p → p.isDead now = true) :
    Alike now s (ks.foldl tombstoneExpiredKey s) := by
  induction ks generalizing s with
  | nil => exact fun _ _ _ _ => rfl
  | cons k ks ih =>
    obtain ⟨hfind, hget⟩ := alike_tombstoneExpiredKey (hks k mem_cons_self)
    refine hget.trans (ih fun k' hk' p hp => ?_)
    obtain hp | ⟨-, hp⟩ := hfind k' p hp
    · exact hks k' (mem_cons_of_mem _ hk') p hp
    · exact hp

lemma isDead_of_mem_expiredKeys (hk : k ∈ s.expiredKeys now) (p : Payload)
    (hp : s.trie.find k = some p) : p.isDead now = true := by
  obtain ⟨e, he, rfl⟩ := List.mem_map.mp hk
  obtain ⟨hmem, hexp⟩ := mem_filter.mp he
  rw [mem_memtable.mp hmem, some_inj] at hp
  subst hp
  rw [Bool.and_eq_true] at hexp
  unfold isDead
  rw [hexp.2, Bool.or_true]

lemma Sound.alike_sweepExpired (h : s.Sound) {now' : ℕ} (hnow : now ≤ now') :
    Alike now' s (s.sweepExpired now now') := by
  have hswept : Alike now' s ((s.expiredKeys now).foldl tombstoneExpiredKey s) :=
    (alike_tombstoneExpiredKeys fun _ => isDead_of_mem_expiredKeys).mono hnow
  unfold sweepExpired
  split_ifs
  · exact (h.thins_compact now).alike.mono hnow
  · exact fun _ _ _ _ => rfl
  · have hsound := kept_tombstoneExpiredKeys kept_sound.put h (s.expiredKeys now)
    exact hswept.trans (hsound.thins_compact now').alike
  · exact hswept

/-! ### Clearing -/

/-- A deletion that succeeds removes the key and nothing else. -/
lemma Sound.getUser_delUserImpl (h : s.Sound) {now' : ℕ}
    (hd : s.delUserImpl k user now now' = some s') (k' : Key) (ht : now' ≤ t) :
    s'.getUser k' cleared t = if k' = k then none else s.getUser k' cleared t := by
  obtain ⟨s1, hs1, rfl⟩ := map_eq_some_iff.mp hd
  obtain ⟨p, seq, hp, -, -, rfl⟩ := delRecord_eq_some hs1
  exact h.getUser_put_flush (e := tombstone k seq p.classification p.sciCompartment)
    (h.key_ne_nil hp) k' ht

section

variable (h : s.Sound) {clock : ℕ → ℕ} (hmono : Monotone clock)
include h hmono

/-- The deletions remove the keys that they report, and where sequences are left all the keys. -/
lemma Sound.getUser_delEach (n : ℕ)
    (ks : List Key) :
      (∀ k t, clock (n + 2 * ks.length) ≤ t → (delEach cleared clock n s ks).1.getUser k cleared t =
          if k ∈ (delEach cleared clock n s ks).2 then none else s.getUser k cleared t) ∧
      ((delEach cleared clock n s ks).1.changeSeq + 1 < 2 ^ 64 →
        ∀ k ∈ ks, ∀ t, clock (n + 2 * ks.length) ≤ t →
          (delEach cleared clock n s ks).1.getUser k cleared t = none) := by
  induction ks generalizing s n with
  | nil => exact ⟨by simp [delEach], by simp⟩
  | cons k ks ih =>
    have hlast : n + 2 * (k :: ks).length = n + 2 + 2 * ks.length := by
      rw [length_cons]
      omega
    rw [hlast]
    unfold delEach
    cases hd : s.delUserImpl k cleared (clock n) (clock (n + 1)) with
    | none =>
      obtain ⟨hget, hall⟩ := ih h (n + 2)
      refine ⟨hget, fun hseq k' hk' t ht => ?_⟩
      obtain rfl | hk' := mem_cons.mp hk'
      · -- the key was gone already, for the sequence was not exhausted
        obtain hnone | hex := delUserImpl_eq_none hd
        · have hn : clock n ≤ t := (hmono (by omega)).trans ht
          rw [hget k' t ht, getUser_eq_none_of_le hn hnone, ite_self]
        · have : ¬ s.changeSeq + 1 < 2 ^ 64 := by
            unfold changeSeqNext at hex
            split_ifs at hex
            assumption
          have hle := (kept_changeSeq _).delEach (le_refl s.changeSeq) cleared clock (n + 2) ks
          exact absurd (lt_of_le_of_lt (Nat.succ_le_succ hle) hseq) this
      · exact hall hseq k' hk' t ht
    | some =>
      have hget1 := fun t => h.getUser_delUserImpl (t := t) hd
      obtain ⟨hget, hall⟩ := ih (kept_sound.delUserImpl h hd) (n + 2)
      have hstep : ∀ t, clock (n + 2 + 2 * ks.length) ≤ t → clock (n + 1) ≤ t :=
        fun t ht => (hmono (by omega)).trans ht
      refine ⟨fun k' t ht => ?_, fun hseq k' hk' t ht => ?_⟩
      · rw [hget k' t ht, hget1 t k' (hstep t ht)]
        by_cases hk : k' = k
        · simp [hk]
        · simp [hk]
      · obtain rfl | hk' := mem_cons.mp hk'
        · rw [hget k' t ht, hget1 t k' (hstep t ht), if_pos rfl, ite_self]
        · exact hall hseq k' hk' t ht

/-- A clear removes the keys that it reports, and where sequences are left every key. -/
lemma Sound.getUser_clearUser (ht : ∀ n, clock n ≤ t) :
    (∀ k, ∀ t' ≥ t, (s.clearUser cleared clock).1.getUser k cleared t' =
        if k ∈ (s.clearUser cleared clock).2 then none else s.getUser k cleared t') ∧
      (s.replicaReadOnly = false → (s.clearUser cleared clock).1.changeSeq + 1 < 2 ^ 64 →
        ∀ k, ∀ t' ≥ t, (s.clearUser cleared clock).1.getUser k cleared t' = none) := by
  set keys := s.liveKeys cleared (clock 0) with hkeys
  have hsound := kept_sound.delEach h cleared clock 1 keys
  obtain ⟨hget, hall⟩ := h.getUser_delEach hmono 1 keys
  have hlast : ∀ t' ≥ t, clock (1 + 2 * keys.length) ≤ t' := fun t' ht' => (ht _).trans ht'
  have hdel : (delEach cleared clock 1 s keys).1.changeSeq + 1 < 2 ^ 64 → ∀ k, ∀ t' ≥ t,
      (delEach cleared clock 1 s keys).1.getUser k cleared t' = none := by
    intro hseq k t' ht'
    by_cases hk : k ∈ keys
    · exact hall hseq k hk t' (hlast t' ht')
    · have hnone : s.getUser k cleared (clock 0) = none := by
        rw [← not_isSome_iff_eq_none, isSome_getUser, ← h.mem_liveKeys]
        exact hk
      rw [hget k t' (hlast t' ht'), getUser_eq_none_of_le ((ht 0).trans ht') hnone, ite_self]
  unfold clearUser
  dsimp only
  split_ifs with hro hpurge
  · refine ⟨fun k t' _ => by simp, fun hro' => ?_⟩
    rw [hro] at hro'
    cases hro'
  · have hcompact := hsound.thins_compact (clock (2 * keys.length + 1))
    refine ⟨fun k t' ht' => ?_, fun _ hseq k t' ht' => ?_⟩
    · rw [hcompact.getUser_eq ((ht _).trans ht')]
      exact hget k t' (hlast t' ht')
    · rw [hcompact.getUser_eq ((ht _).trans ht')]
      exact hdel (lt_of_le_of_lt (Nat.succ_le_succ (changeSeq_le_compact _ _)) hseq) k t' ht'
  · exact ⟨fun k t' ht' => hget k t' (hlast t' ht'), fun _ hseq => hdel hseq⟩

end

/-! ### The simulation -/

/-- The store answers like the reference from a time on. -/
structure Agrees (s : Store) (r : Reference) (now : ℕ) : Prop where
  sound : s.Sound
  writable : s.replicaReadOnly = false
  get : ∀ k t, now ≤ t → s.getUser k cleared t = r.get k t

lemma sound_fresh (cursors : List Cursor) : (fresh cursors).Sound where
  pins := Index.pins_empty _
  below id hid := absurd hid (AList.notMem_empty id)
  keyed id records hr := by
    cases hr
  latest _ := rfl

lemma newest_fresh (cursors : List Cursor) (k : Key) : (fresh cursors).newest k = none := by
  unfold newest
  rw [show (fresh cursors).trie = Tst.Trie.empty from rfl, Tst.Trie.find_empty]
  rfl

lemma agrees_fresh (cursors : List Cursor) (now : ℕ) :
    (fresh cursors).Agrees (fun _ => none) now where
  sound := sound_fresh cursors
  writable := rfl
  get k t _ := by
    rw [getUser_eq, newest_fresh]
    rfl

variable {r : Reference} {c : Call}

/-- The value that the store has for a live key is that of the reference. -/
lemma Agrees.value_eq (h : s.Agrees r now) (hp : s.newest k = some p) (ht : now ≤ t)
    (hlive : p.isDead t = false) : ∃ x, r k = some x ∧ x.value = p.value := by
  have hget := h.get k t ht
  rw [getUser_eq, hp] at hget
  have hsome : r.get k t = some p.value := by
    rw [← hget]
    simp [Option.filter, readable, cleared, hlive]
  obtain ⟨x, hx, hval⟩ := bind_eq_some_iff.mp hsome
  refine ⟨x, hx, ?_⟩
  unfold Cell.get at hval
  split_ifs at hval
  exact some_inj.mp hval

/-- A call keeps the agreement. -/
lemma Agrees.exec (h : s.Agrees r now) (hnow : now ≤ c.clock.read 0)
    (ht : ∀ n, c.clock.read n ≤ t) : (s.exec c).1.Agrees (r.step c (s.exec c).2) t := by
  refine ⟨kept_sound.exec h.sound c, (kept_replicaReadOnly _).exec h.writable c, ?_⟩
  have hrefused : ∀ k t', t ≤ t' → s.getUser k cleared t' = r.get k t' := fun k t' ht' =>
    h.get k t' (hnow.trans ((ht 0).trans ht'))
  -- a record that is written, against a cell of the reference that reads like it
  have hput : ∀ {e : Entry} {n : ℕ} {x : Option Cell}, e.key ≠ [] →
      (∀ t', t ≤ t' → (if e.payload.isDead t' then none else some e.payload.value) =
        x.bind fun x => x.get t') → ∀ k t', t ≤ t' →
      ((s.put e).flushIfFull (c.clock.read n)).getUser k cleared t' =
        Reference.get (update r e.key x) k t' := by
    intro e n x hkey hx k t' ht'
    rw [h.sound.getUser_put_flush hkey k ((ht n).trans ht')]
    unfold Reference.get
    by_cases hk : k = e.key
    · subst hk
      rw [if_pos rfl, update_self, hx t' ht']
    · rw [if_neg hk, update_of_ne hk]
      exact hrefused k t' ht'
  obtain ⟨op, clock⟩ := c
  unfold exec
  cases op with
  | set key value classification sci =>
    dsimp only
    cases hs : s.setUser key.bytes value.bytes classification sci cleared (clock.read 0) with
    | none => exact hrefused
    | some =>
      obtain ⟨s1, hs1, rfl⟩ := map_eq_some_iff.mp hs
      obtain ⟨seq, -, hkey, -, -, rfl⟩ := setRecord_eq_some hs1
      refine hput (e := ⟨key.bytes, value.bytes, 0, seq, classification, sci, false⟩) hkey ?_
      intro t' _
      simp [isDead, expired, Cell.get]
  | del key =>
    dsimp only
    cases hd : s.delUser key.bytes cleared (clock.read 0) (clock.read 1) with
    | none => exact hrefused
    | some =>
      unfold delUser at hd
      split_ifs at hd
      obtain ⟨s1, hs1, rfl⟩ := map_eq_some_iff.mp hd
      obtain ⟨p, seq, hp, -, -, rfl⟩ := delRecord_eq_some hs1
      refine hput (e := tombstone key.bytes seq p.classification p.sciCompartment)
        (h.sound.key_ne_nil hp) ?_
      intro t' _
      rfl
  | expire key ttlMs =>
    dsimp only
    cases hx : s.expire key.bytes ttlMs cleared (clock.read 0) (clock.read 1) (clock.read 2) with
    | none => exact hrefused
    | some =>
      obtain ⟨s1, hs1, rfl⟩ := map_eq_some_iff.mp hx
      obtain ⟨p, hp, hlive, -, hset⟩ := expireRecord_eq_some hs1
      obtain ⟨seq, -, hkey, -, -, rfl⟩ := setRecord_eq_some hset
      obtain ⟨x, hx, hval⟩ := h.value_eq hp hnow hlive
      refine hput (e := ⟨key.bytes, p.value, clock.read 1 + ttlMs, seq, p.classification,
        p.sciCompartment, false⟩) hkey ?_
      intro t' _
      -- a reading is never zero, so the new expiry is a real one
      have hpos : clock.read 1 + ttlMs ≠ 0 := by
        have := clock.pos.trans_le (clock.mono (Nat.zero_le 1))
        omega
      simp only [isDead, expired, hx, map_some, bind_some, Cell.get,
        any_some, hval, Bool.false_or, ne_eq, hpos, not_false_iff, true_and]
  | sweep =>
    exact fun k t' ht' => (h.sound.alike_sweepExpired (clock.mono (Nat.zero_le 1)) k cleared t'
      ((ht 1).trans ht')).trans (hrefused k t' ht')
  | clear =>
    intro k t' ht'
    rw [(h.sound.getUser_clearUser clock.mono ht).1 k t' ht', hrefused k t' ht']
    unfold Reference.get
    by_cases hk : k ∈ (s.clearUser cleared clock.read).2 <;> simp [Reference.step, hk]
  | sync =>
    intro k t' ht'
    unfold syncStore
    split_ifs
    · exact ((h.sound.flush _).2.getUser_eq ((ht 0).trans ht') k cleared).trans (hrefused k t' ht')
    · exact hrefused k t' ht'

end Store

/-- After any run the store agrees with the reference. -/
lemma agrees_runBoth (cursors : List Cursor) {calls : List Call} (hclock : InOrder calls) {t : ℕ}
    (ht : ∀ c ∈ calls, ∀ n, c.clock.read n ≤ t) :
    (runBoth cursors calls).1.Agrees (runBoth cursors calls).2 t := by
  induction calls using List.reverseRecOn generalizing t with
  | nil => exact agrees_fresh cursors t
  | append_singleton calls c ih =>
    obtain ⟨hbefore, -, hlast⟩ := pairwise_append.mp hclock
    have hagree := ih hbefore fun a ha n => hlast a ha c (mem_singleton_self c) n
    have := hagree.exec le_rfl (ht c (by simp))
    unfold runBoth at this ⊢
    rw [foldl_append]
    exact this

namespace Sample

/-- A clock that stands still. -/
def still (t : ℕ) (hpos : 0 < t) (hlt : t < 2 ^ 64) : Clock where
  read _ := t
  mono := monotone_const
  pos := hpos
  lt _ := hlt

lemma notMem_a : (0 : UInt8) ∉ [97] := by decide

lemma notMem_b : (0 : UInt8) ∉ [98] := by decide

lemma notMem_c : (0 : UInt8) ∉ [99] := by decide

lemma five_pos : 0 < 5 := by decide

lemma five_lt : 5 < 2 ^ 64 := by decide

/-- A key gets a value at five milliseconds, and then a time to live of ten. -/
def setThenExpire : List Call :=
  [⟨.set ⟨[97], by decide⟩ ⟨[98], by decide⟩ 0 0, still 5 (by decide) (by decide)⟩,
    ⟨.expire ⟨[97], by decide⟩ 10, still 5 (by decide) (by decide)⟩]

end Sample

end Qihse.Kv
