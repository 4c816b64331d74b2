import Qihse.Kv.Replica

/-!
# Replicas converge

`Replication.Synced` is what every step keeps: of each key, either the primary has a change that the
replica has not pulled, or both have the same record, or neither has a live one. A pull that brings
nothing then leaves the two with the same live keys.
-/

namespace Qihse.Kv

open List Option Entry Payload

open scoped List

/-! ### Exports without limits -/

lemma pushAll_unlimited (c : Collector) (rs : List DeltaRecord) :
    ∃ c', c.pushAll ⟨0, 0⟩ rs = some c' ∧ c'.recs = c.recs ++ rs ∧
      c'.resume = rs.foldl (fun n r => max n r.changeSeq) c.resume := by
  induction rs generalizing c with
  | nil => exact ⟨c, rfl, (append_nil _).symm, rfl⟩
  | cons r rs ih =>
    obtain ⟨c', hc', hrecs, hresume⟩ := ih { c.add r with resume := max c.resume r.changeSeq }
    refine ⟨c', hc', ?_, hresume⟩
    rw [hrecs]
    simp [Collector.add]

lemma foldl_seq_eq (n : ℕ) (rs : List DeltaRecord) :
    rs.foldl (fun n r => max n r.changeSeq) n = n ∨
      ∃ r ∈ rs, rs.foldl (fun n r => max n r.changeSeq) n = r.changeSeq := by
  induction rs generalizing n with
  | nil => exact .inl rfl
  | cons r rs ih =>
    rw [foldl_cons]
    obtain h | ⟨x, hx, h⟩ := ih (max n r.changeSeq)
    · rw [h]
      obtain hmax | hmax := max_choice n r.changeSeq
      · exact .inl hmax
      · exact .inr ⟨r, mem_cons_self, hmax⟩
    · exact .inr ⟨x, mem_cons_of_mem _ hx, h⟩

lemma Entry.Framed.delta_entry {e : Entry} (h : e.Framed) : e.delta.entry = e := by
  obtain ⟨k, v, x, n, c, s, t⟩ := e
  cases t with
  | false => rfl
  | true =>
    have hv : v = [] := (h.tombstone rfl).1
    subst hv
    rfl

namespace Store

variable {s s' : Store} {k : Key} {p : Payload} {e : Entry} {since now now' t : ℕ}

/-! ### Keys of an export -/

lemma nodup_emitted (s : Store) (b : Bool) (now sid : ℕ) (es : List Entry) (off : ℕ) :
    ((s.emitted b now sid es off).map key).Nodup := by
  induction es generalizing off with
  | nil => exact nodup_nil
  | cons e es ih =>
    unfold emitted
    split_ifs with he
    · rw [map_cons, nodup_cons]
      refine ⟨fun hmem => ?_, ih _⟩
      -- the index pins one place for the key
      obtain ⟨e', he', hkey⟩ := List.mem_map.mp hmem
      obtain ⟨i, -, hi⟩ := mem_emitted.mp he'
      unfold emits at he hi
      rw [hkey] at hi
      cases hm : s.sstMeta.lookup e.key with
      | none => simp [hm] at he
      | some =>
        simp only [hm, Bool.and_eq_true, decide_eq_true_eq] at he hi
        have h1 := he.1.1.1.2
        have h2 := hi.1.1.1.2
        omega
    · exact ih _

lemma nodup_foreachNewest (s : Store) (b : Bool) (now : ℕ) :
    ((s.foreachNewest b now).map key).Nodup := by
  unfold foreachNewest
  rw [map_flatMap, nodup_flatMap]
  refine ⟨fun sid _ => s.nodup_emitted b now sid _ 0, ?_⟩
  refine List.Pairwise.imp ?_ (nodup_reverse.mpr nodup_range)
  intro sid sid' hne k hk hk'
  obtain ⟨e, he, rfl⟩ := List.mem_map.mp hk
  obtain ⟨e', he', hkey⟩ := List.mem_map.mp hk'
  obtain ⟨i, -, hi⟩ := mem_emitted.mp he
  obtain ⟨i', -, hi'⟩ := mem_emitted.mp he'
  unfold emits at hi hi'
  rw [hkey] at hi'
  cases hm : s.sstMeta.lookup e.key with
  | none => simp [hm] at hi
  | some =>
    simp only [hm, Bool.and_eq_true, decide_eq_true_eq] at hi hi'
    exact hne (hi.1.1.1.1.symm.trans hi'.1.1.1.1)

lemma Sound.nodup_entries (h : s.Sound) (now : ℕ) :
    ((s.memtable ++ s.foreachNewest true now).map key).Nodup := by
  rw [map_append, nodup_append]
  refine ⟨?_, s.nodup_foreachNewest true now, ?_⟩
  · simpa [memtable, List.map_map, Function.comp_def] using s.trie.nodup_entries
  · rintro a ha b hb rfl
    obtain ⟨e, he, rfl⟩ := List.mem_map.mp ha
    obtain ⟨e', he', hkey⟩ := List.mem_map.mp hb
    have hfind := mem_memtable.mp he
    rw [← hkey, (h.mem_foreachNewest.mp he').1] at hfind
    cases hfind

/-- What is exported: every newest record after the resume point that is not passed over. -/
lemma Sound.mem_exported (h : s.Sound) (hnow : now ≤ now') :
    e ∈ (s.memtable ++ s.foreachNewest true now').filter
        (wanted cleared (fun _ => true) since now) ↔
      s.newest e.key = some e.payload ∧ since < e.payload.changeSeq ∧
        s.overlooks since now now' e.key = false := by
  have hwanted : e.wanted cleared (fun _ => true) since now = true ↔
      since < e.payload.changeSeq ∧
        (e.payload.tombstone = false → e.payload.expired now = false) := by
    unfold wanted cleared
    cases e.payload.tombstone <;> simp <;> omega
  have hnot : ∀ u, lapsed since u e.payload = false ↔
      (since < e.payload.changeSeq → e.payload.tombstone = false →
        e.payload.expired u = false) := by
    intro u
    unfold lapsed
    cases e.payload.tombstone <;> simp
  rw [mem_filter, mem_append, mem_memtable, h.mem_foreachNewest, hwanted]
  unfold newest overlooks
  cases ht : s.trie.find e.key with
  | some =>
    simp only [some_inj, reduceCtorEq, false_and, or_false, some_or]
    constructor
    · rintro ⟨rfl, hlt, hexp⟩
      exact ⟨rfl, hlt, (hnot now).mpr fun _ => hexp⟩
    · rintro ⟨rfl, hlt, hlapsed⟩
      exact ⟨rfl, hlt, (hnot now).mp hlapsed hlt⟩
  | none =>
    simp only [reduceCtorEq, false_or, none_or, true_and, true_or, and_true]
    constructor
    · rintro ⟨⟨hp, hexp⟩, hlt, -⟩
      refine ⟨hp, hlt, ?_⟩
      rw [hp, any_some]
      exact (hnot now').mpr fun _ => hexp
    · rintro ⟨hp, hlt, hlapsed⟩
      rw [hp, any_some] at hlapsed
      have hexp := (hnot now').mp hlapsed hlt
      refine ⟨⟨hp, hexp⟩, hlt, fun htomb => ?_⟩
      by_contra hex
      rw [Bool.not_eq_false] at hex
      rw [expired_mono hnow hex] at hexp
      cases hexp htomb

/-- A page of an export without limits. -/
lemma Sound.export_spec (h : s.Sound) (since : ℕ) (hnow : now ≤ now') :
    ∃ page, s.exportIncrementalUser cleared since now now' = some page ∧
      (page.records.map DeltaRecord.key).Nodup ∧
      (∀ r, r ∈ page.records ↔ ∃ e : Entry, r = e.delta ∧ s.newest e.key = some e.payload ∧
        since < e.payload.changeSeq ∧ s.overlooks since now now' e.key = false) ∧
      since ≤ page.resume ∧ (∀ r ∈ page.records, r.changeSeq ≤ page.resume) ∧
      (page.resume = since ∨ ∃ r ∈ page.records, page.resume = r.changeSeq) := by
  set es := (s.memtable ++ s.foreachNewest true now').filter
    (wanted cleared (fun _ => true) since now) with hes
  obtain ⟨c, hc, hrecs, hresume⟩ := pushAll_unlimited (Collector.init since) (es.map delta)
  have hperm : (c.page ⟨0, 0⟩).records ~ es.map delta := by
    have : c.recs = es.map delta := hrecs.trans (nil_append _)
    rw [← this]
    exact perm_insertionSort _ _
  have hpage : (c.page ⟨0, 0⟩).resume =
      (es.map delta).foldl (fun n r => max n r.changeSeq) since := hresume
  obtain ⟨hle, hall⟩ := le_foldl_max DeltaRecord.changeSeq since (es.map delta)
  have hor := foldl_seq_eq since (es.map delta)
  refine ⟨c.page ⟨0, 0⟩, ?_, ?_, ?_, ?_, ?_, ?_⟩
  · unfold exportIncrementalUser exportIncremental
    rw [← hes, hc]
    rfl
  · rw [(hperm.map _).nodup_iff, List.map_map]
    exact (h.nodup_entries now').sublist (filter_sublist.map _)
  · intro r
    rw [hperm.mem_iff, List.mem_map]
    constructor
    · rintro ⟨e, he, rfl⟩
      exact ⟨e, rfl, (h.mem_exported hnow).mp he⟩
    · rintro ⟨e, rfl, he⟩
      exact ⟨e, (h.mem_exported hnow).mpr he, rfl⟩
  · rw [hpage]
    exact hle
  · intro r hr
    rw [hpage]
    exact hall r (hperm.mem_iff.mp hr)
  · rw [hpage]
    exact hor.imp_right fun ⟨r, hr, h⟩ => ⟨r, hperm.mem_iff.mpr hr, h⟩

/-! ### Applying a page -/

lemma Sound.putReplica (h : s.Sound) (e : Entry) : (s.putReplica e).Sound :=
  { h with }

lemma newest_putReplica (he : e.key ≠ []) (k : Key) :
    (s.putReplica e).newest k = if k = e.key then some e.payload else s.newest k := by
  have hfind : (s.putReplica e).trie.find k =
      if k = e.key then some e.payload else s.trie.find k := Tst.Trie.find_insert he
  unfold newest
  rw [hfind]
  split_ifs
  · rfl
  · rfl

/-- A record that is newer than what the store has is taken. -/
lemma applyReplicaRecord_eq (he : e.Framed)
    (hold : ∀ q, s.newest e.key = some q → q.changeSeq < e.payload.changeSeq) (now now' : ℕ) :
    s.applyReplicaRecord e.delta cleared now now' = some ((s.putReplica e).flushIfFull now') := by
  have hover : ∀ q, s.newest e.key = some q →
      s.applyOver q e.delta cleared now' = some ((s.putReplica e).flushIfFull now') := by
    intro q hq
    have hlt : q.changeSeq < e.delta.changeSeq := hold q hq
    unfold applyOver cleared
    rw [if_neg (by simp), if_neg hlt.le.not_gt, if_neg hlt.ne, he.delta_entry]
  have hvalid : ¬ (e.delta.key = [] ∨ e.delta.changeSeq = 0 ∨ maxKeyLen < e.delta.key.length ∨
      (e.delta.tombstone = true ∧ e.delta.expireTimeMs ≠ 0) ∨
      maxValueLen < (e.delta.value.getD []).length ∨
      cleared e.delta.classification e.delta.sciCompartment = false) := by
    have htomb : e.delta.tombstone = e.payload.tombstone := by
      unfold DeltaRecord.tombstone delta
      cases e.payload.tombstone <;> rfl
    have hvalue : (e.delta.value.getD []).length ≤ maxValueLen := by
      unfold delta
      cases e.payload.tombstone
      · exact he.value.1
      · exact Nat.zero_le _
    rintro (h | h | h | ⟨h, h'⟩ | h | h)
    · exact he.key.1 h
    · exact he.changeSeq.1.ne' h
    · exact absurd he.key.2.1 (not_le.mpr h)
    · exact h' (he.tombstone (htomb ▸ h)).2
    · exact absurd hvalue (not_le.mpr h)
    · cases h
  unfold applyReplicaRecord
  rw [if_neg hvalid, show e.delta.key = e.key from rfl, logicalLookup_eq]
  cases hq : s.newest e.key with
  | none => simp only [he.delta_entry]
  | some q => cases hd : q.isDead now <;> simpa [hd] using hover q hq

/-- A page of newer records is taken as a whole; each key of the page then has its record and every
other key what it had, unless a compaction dropped what is dead. -/
lemma Sound.applyEach (h : s.Sound) {clock : ℕ → ℕ} (hclock : ∀ n, clock n ≤ t)
    {rs : List DeltaRecord}
    (hnodup : (rs.map DeltaRecord.key).Nodup) (hrs : ∀ r ∈ rs, ∃ e : Entry, r = e.delta ∧ e.Framed ∧
      ∀ q, s.newest e.key = some q → q.changeSeq < e.payload.changeSeq) (n : ℕ) :
    (applyEach clock n s rs).2 = true ∧ (applyEach clock n s rs).1.Sound ∧
      (applyEach clock n s rs).1.replicaReadOnly = s.replicaReadOnly ∧
      (∀ e : Entry, e.Framed → e.delta ∈ rs →
        Fades t (some e.payload) ((applyEach clock n s rs).1.newest e.key)) ∧
      ∀ k, (∀ r ∈ rs, r.key ≠ k) → Fades t (s.newest k) ((applyEach clock n s rs).1.newest k) := by
  induction rs generalizing s n with
  | nil => exact ⟨rfl, h, rfl, by simp, fun k _ => .inl rfl⟩
  | cons r rs ih =>
    obtain ⟨e, rfl, he, hold⟩ := hrs _ mem_cons_self
    rw [map_cons, nodup_cons] at hnodup
    have hput := (h.putReplica e).flushIfFull (clock (n + 1))
    -- what the first record leaves, key by key
    have hfirst : Fades t (some e.payload)
        (((s.putReplica e).flushIfFull (clock (n + 1))).newest e.key) := by
      have := hput.2 e.key
      rw [newest_putReplica he.key.1, if_pos rfl] at this
      exact Fades.trans (.inl rfl) (this.trans (.inl rfl) (hclock (n + 1))) le_rfl
    have hother : ∀ k, k ≠ e.key → Fades t (s.newest k)
        (((s.putReplica e).flushIfFull (clock (n + 1))).newest k) := by
      intro k hk
      have := hput.2 k
      rw [newest_putReplica he.key.1, if_neg hk] at this
      exact this.trans (.inl rfl) (hclock (n + 1))
    have hkeys : ∀ x : Entry, x.delta ∈ rs → x.key ≠ e.key := by
      rintro x hx hxe
      exact hnodup.1 (List.mem_map.mpr ⟨x.delta, hx, hxe⟩)
    obtain ⟨hok, hsound, hro, htaken, hrest⟩ := ih hput.1 hnodup.2 (by
      intro r hr
      obtain ⟨x, rfl, hx, hxold⟩ := hrs r (mem_cons_of_mem _ hr)
      refine ⟨x, rfl, hx, fun q hq => ?_⟩
      obtain hsame | ⟨hnone, -⟩ := hother x.key (hkeys x hr)
      · exact hxold q (hsame ▸ hq)
      · rw [hnone] at hq
        cases hq) (n + 2)
    unfold applyEach
    rw [applyReplicaRecord_eq he hold]
    refine ⟨hok, hsound, hro.trans ((kept_replicaReadOnly _).flushIfFull rfl _), ?_, ?_⟩
    · intro x hx hmem
      obtain hxe | hmem := mem_cons.mp hmem
      · have : x = e := by rw [← hx.delta_entry, hxe, he.delta_entry]
        subst this
        refine hfirst.trans (hrest x.key fun r hr hkey => ?_) le_rfl
        exact hnodup.1 (List.mem_map.mpr ⟨r, hr, hkey⟩)
      · exact htaken x hx hmem
    · intro k hk
      rw [forall_mem_cons] at hk
      exact (hother k (Ne.symm hk.1)).trans (hrest k hk.2) le_rfl

/-! ### Calls of the primary -/

lemma flush_cases (s : Store) (now : ℕ) : s.flushMemtableToSstable now = s.flushMemtable ∨
    s.flushCompaction now = some (s.flushMemtable, now) ∧
      s.flushMemtableToSstable now = s.flushMemtable.compactSstablesStream now := by
  unfold flushMemtableToSstable flushCompaction
  split_ifs
  · exact .inr ⟨rfl, rfl⟩
  · exact .inl rfl

/-- What the maintenance of a call can do: nothing, a flush, or a compaction that may come after a
flush. -/
structure Maintained (s s' : Store) (compaction : Option (Store × ℕ)) : Prop where
  cases : s' = s ∨ s' = s.flushMemtable ∨ ∃ s2 now, compaction = some (s2, now) ∧
    (s2 = s ∨ s2 = s.flushMemtable) ∧ s' = s2.compactSstablesStream now

lemma maintained_flush (s : Store) (now : ℕ) (p : Prop) [Decidable p] :
    Maintained s (if p then s.flushMemtableToSstable now else s)
      (if p then s.flushCompaction now else none) := by
  constructor
  split_ifs
  · obtain h | ⟨hc, h⟩ := s.flush_cases now
    · exact .inr (.inl h)
    · exact .inr (.inr ⟨_, now, hc, .inr rfl, h⟩)
  · exact .inl rfl

/-- A call is refused, or it is a mutation and then maintenance. -/
lemma exec_cases (hw : s.replicaReadOnly = false) (c : Call) (hop : c.op ≠ .clear) :
    (s.exec c).1 = s ∨
      ∃ s1, s.mutation c = some s1 ∧ Maintained s1 (s.exec c).1 (s1.compaction c) := by
  have hanswer : ∀ (o : Option Store) (now : ℕ),
      (∀ s1, o = some s1 → Maintained s1 (s1.flushIfFull now) (s1.compaction c)) →
      (s.answer (o.map fun s' => s'.flushIfFull now)).1 = s ∨
        ∃ s1, o = some s1 ∧
          Maintained s1 (s.answer (o.map fun s' => s'.flushIfFull now)).1 (s1.compaction c) := by
    intro o now ho
    cases o with
    | none => exact .inl rfl
    | some s1 => exact .inr ⟨s1, rfl, ho s1 rfl⟩
  obtain ⟨op, clock⟩ := c
  cases op with
  | set | expire => exact hanswer _ _ fun s1 _ => maintained_flush s1 _ (memtableMax < s1.memUsage)
  | del =>
    unfold exec delUser
    dsimp only
    rw [hw, if_neg Bool.false_ne_true]
    exact hanswer _ _ fun s1 _ => maintained_flush s1 _ (memtableMax < s1.memUsage)
  | sweep =>
    right
    refine ⟨s.sweepMemtable (clock.read 0), rfl, ?_⟩
    constructor
    unfold exec sweepExpired compaction
    dsimp only
    rw [hw, if_neg Bool.false_ne_true]
    split_ifs
    · exact .inr (.inr ⟨_, _, rfl, .inl rfl, rfl⟩)
    · exact .inl rfl
  | clear => exact absurd rfl hop
  | sync => exact .inr ⟨s, rfl, maintained_flush s (clock.read 0) (0 < s.memUsage)⟩

/-! ### Fields that stay -/

lemma cursors_foldl_apply (d : Disk) (ops : List FileOp) :
    (ops.foldl Disk.apply d).cursors = d.cursors := by
  refine List.foldlRecOn (motive := fun d' : Disk => d'.cursors = d.cursors) ops _ rfl
    fun d' h op _ => ?_
  cases op <;> exact h

lemma cursors_flushMemtable (s : Store) : s.flushMemtable.disk.cursors = s.disk.cursors := by
  unfold flushMemtable
  rw [issueAll_eq]
  exact cursors_foldl_apply _ _

lemma cursors_compact (s : Store) (now : ℕ) :
    (s.compactSstablesStream now).disk.cursors = s.disk.cursors := by
  unfold compactSstablesStream sstIndexLoadFile
  simp only [issueAll_eq]
  split_ifs
  · rfl
  · exact cursors_foldl_apply _ _
  · split <;> exact cursors_foldl_apply _ _

lemma mem_keys_of_newest (h : s.newest k = some p) : k ∈ s.keys := by
  obtain ht | ⟨-, hp⟩ := or_eq_some_iff.mp h
  · exact mem_append_left _ (List.mem_map.mpr ⟨⟨k, p⟩, mem_memtable.mpr ht, rfl⟩)
  · obtain ⟨m, hm, -⟩ := Index.pinned_eq_some.mp hp
    refine mem_append_right _ (AList.mem_keys.mp (AList.lookup_isSome.mp ?_))
    rw [hm]
    rfl

lemma isDead_of_lapsed (h : lapsed since now p = true) : p.isDead now = true := by
  unfold lapsed at h
  unfold isDead
  rw [Bool.and_eq_true] at h
  rw [h.2, Bool.or_true]

/-- A record that an export passes over is dead. -/
lemma isDead_of_overlooks (hp : s.newest k = some p) (h : s.overlooks since now now' k = true)
    (hnow : now ≤ now') : p.isDead now' = true := by
  unfold newest at hp
  unfold overlooks at h
  cases ht : s.trie.find k with
  | some =>
    rw [ht] at hp h
    cases hp
    exact isDead_mono hnow (isDead_of_lapsed h)
  | none =>
    rw [ht, none_or] at hp
    rw [ht, hp] at h
    exact isDead_of_lapsed h

/-- Nothing is there or what is there is dead. -/
def Gone (t : ℕ) (o : Option Payload) : Prop := ∀ p, o = some p → p.isDead t = true

lemma getUser_eq_none_iff : s.getUser k cleared t = none ↔ Gone t (s.newest k) := by
  rw [getUser_eq]
  unfold Gone
  cases s.newest k with
  | none => simp
  | some p => cases h : p.isDead t <;> simp [Option.filter, readable, cleared, h]

lemma Gone.mono {o : Option Payload} (h : Gone now o) (ht : now ≤ t) : Gone t o :=
  fun p hp => isDead_mono ht (h p hp)

lemma gone_none (t : ℕ) : Gone t none := fun _ hp => nomatch hp

lemma Fades.eq_or_gone {o o' : Option Payload} (h : Fades t o o') :
    o' = o ∨ Gone t o ∧ Gone t o' := by
  obtain h | ⟨rfl, p, rfl, hp⟩ := h
  · exact .inl h
  · refine .inr ⟨fun q hq => ?_, gone_none t⟩
    cases hq
    exact hp

lemma Fades.gone {o o' : Option Payload} (h : Fades t o o') (ho : Gone t o) : Gone t o' := by
  obtain rfl | ⟨-, ho'⟩ := h.eq_or_gone
  · exact ho
  · exact ho'

end Store

namespace Replication

open Store

variable {r : Replication} {peerId namespaceId : List UInt8} {k : Key} {t t' now : ℕ}

/-! ### The invariant -/

/-- The primary has a change of the key that the replica has not pulled. -/
def Pending (r : Replication) (k : Key) : Prop :=
  ∃ p, r.primary.newest k = some p ∧ r.resume < p.changeSeq

/-- What holds of the primary, the replica and the resume point at a time. -/
structure Synced (peerId namespaceId : List UInt8) (t : ℕ) (r : Replication) : Prop where
  sound : r.primary.Sound
  writable : r.primary.replicaReadOnly = false
  framed : ∀ k p, r.primary.newest k = some p → (⟨k, p⟩ : Entry).Framed
  bounded : ∀ k p, r.primary.newest k = some p → p.changeSeq ≤ r.primary.changeSeq
  resume_le : r.resume ≤ r.primary.changeSeq
  cursor : ∃ c, r.primary.findCursor peerId namespaceId = some c ∧ (∀ k, c.covers k = true) ∧
    c.seq ≤ r.resume
  replica : r.replica.Sound
  readOnly : r.replica.replicaReadOnly = true
  older : ∀ k q, r.replica.newest k = some q → q.changeSeq ≤ r.resume
  agree : ∀ k, r.Pending k ∨ r.replica.newest k = r.primary.newest k ∨
    Gone t (r.primary.newest k) ∧ Gone t (r.replica.newest k)

lemma synced_start (others : List Cursor) (t : ℕ) :
    Synced peerId namespaceId t (start peerId namespaceId others) := by
  have hprimary : ∀ k, (start peerId namespaceId others).primary.newest k = none := newest_fresh _
  have hreplica : ∀ k, (start peerId namespaceId others).replica.newest k = none := newest_fresh []
  have hsound := sound_fresh []
  refine ⟨sound_fresh _, rfl, ?_, ?_, Nat.zero_le _, ?_, ?_, ?_, ?_, ?_⟩
  · exact fun k p hp => nomatch (hprimary k).symm.trans hp
  · exact fun k p hp => nomatch (hprimary k).symm.trans hp
  · refine ⟨⟨peerId, namespaceId, fun _ => true, 0⟩, ?_, fun _ => rfl, le_rfl⟩
    exact find?_cons_of_pos (by simp)
  · exact { hsound with }
  · rfl
  · exact fun k p hp => nomatch (hreplica k).symm.trans hp
  · exact fun k => .inr (.inl ((hreplica k).trans (hprimary k).symm))

section

variable (h : Synced peerId namespaceId t r)
include h

/-- The primary moves on: of each key it has the same record, or a newer one, or it lost a dead one
that the replica does not miss. -/
lemma Synced.primary {s : Store} (hsound : s.Sound)
    (hwritable : s.replicaReadOnly = false) (hcursors : s.disk.cursors = r.primary.disk.cursors)
    (hseq : r.primary.changeSeq ≤ s.changeSeq) (hkeys : ∀ k, s.newest k = r.primary.newest k ∨
      (∃ p, s.newest k = some p ∧ r.primary.changeSeq < p.changeSeq ∧
        p.changeSeq ≤ s.changeSeq ∧ (⟨k, p⟩ : Entry).Framed) ∨
      (s.newest k = none ∧ Gone t (r.primary.newest k) ∧
        (r.Pending k → Gone t (r.replica.newest k)))) :
    Synced peerId namespaceId t { r with primary := s } := by
  refine ⟨hsound, hwritable, ?_, ?_, h.resume_le.trans hseq, ?_, h.replica, h.readOnly, h.older,
    ?_⟩
  · intro k p hp
    obtain hk | ⟨q, hq, -, -, hframed⟩ | ⟨hk, -⟩ := hkeys k
    · exact h.framed k p (hk ▸ hp)
    · cases hq.symm.trans hp
      exact hframed
    · cases hk.symm.trans hp
  · intro k p hp
    obtain hk | ⟨q, hq, -, hle, -⟩ | ⟨hk, -⟩ := hkeys k
    · exact (h.bounded k p (hk ▸ hp)).trans hseq
    · cases hq.symm.trans hp
      exact hle
    · cases hk.symm.trans hp
  · unfold findCursor
    rw [hcursors]
    exact h.cursor
  · intro k
    obtain hk | ⟨q, hq, hlt, -, -⟩ | ⟨hk, hgone, hpend⟩ := hkeys k
    · simp only [Pending, hk]
      exact h.agree k
    · exact .inl ⟨q, hq, h.resume_le.trans_lt hlt⟩
    · right
      right
      rw [hk]
      refine ⟨gone_none t, ?_⟩
      obtain hp | heq | ⟨-, hg⟩ := h.agree k
      · exact hpend hp
      · rw [heq]
        exact hgone
      · exact hg

lemma Synced.put {s : Store} (hputs : Puts r.primary s) :
    Synced peerId namespaceId t { r with primary := s } := by
  obtain ⟨e, he, hseq, rfl⟩ := hputs
  replace he := he h.framed
  have hchange : (r.primary.put e).changeSeq = e.payload.changeSeq := rfl
  refine h.primary (h.sound.put e) h.writable rfl (hchange ▸ hseq.le) fun k => ?_
  rw [newest_put he.key.1]
  split_ifs with hk
  · subst hk
    exact .inr (.inl ⟨_, rfl, hseq, hchange.ge, he⟩)
  · exact .inl rfl

lemma Synced.flushMemtable :
    Synced peerId namespaceId t { r with primary := r.primary.flushMemtable } :=
  h.primary h.sound.flushMemtable.1 ((kept_replicaReadOnly _).flushMemtable h.writable)
    (cursors_flushMemtable _) (changeSeq_issueAll _ _).ge fun k =>
      .inl (h.sound.newest_flushMemtable k)

/-- A compaction at a time when nothing is lost that the replica misses. -/
lemma Synced.compact (ht : now ≤ t) (hmeets : r.keepsChanges (some (r.primary, now)) = true) :
    Synced peerId namespaceId t { r with primary := r.primary.compactSstablesStream now } := by
  refine h.primary (h.sound.compact now).1 ((replicaReadOnly_compact _ _).trans h.writable)
    (cursors_compact _ _) (changeSeq_le_compact _ _) fun k => ?_
  obtain hk | ⟨hk, hfind, p, hpin, hp, hdrop⟩ := h.sound.compact_cases now k
  · exact .inl hk
  · refine .inr (.inr ⟨hk, ?_, ?_⟩)
    · intro q hq
      cases hp.symm.trans hq
      exact isDead_mono ht (isDead_of_keeps hdrop)
    · rintro ⟨q, hq, hlt⟩
      cases hp.symm.trans hq
      unfold keeps at hdrop
      split_ifs at hdrop with htomb
      · -- the cursor of the replica is behind the tombstone
        obtain ⟨c, hc, hcovers, hcseq⟩ := h.cursor
        have hmem : c ∈ r.primary.disk.cursors := mem_of_find?_eq_some hc
        have hany : r.primary.tombstoneHasUnackedReplica k p.changeSeq = true := by
          unfold tombstoneHasUnackedReplica
          rw [List.any_eq_true]
          exact ⟨c, hmem, by simp [hcovers k, hcseq.trans_lt hlt]⟩
        rw [hany] at hdrop
        cases hdrop
      · have hforgets : r.primary.forgets r.resume now k = true := by
          unfold forgets
          rw [hfind, hpin]
          simp only [Bool.not_eq_false'] at hdrop
          simp [lapsed, hlt, htomb, hdrop]
        have hall := List.all_eq_true.mp hmeets k (mem_keys_of_newest hp)
        rw [hforgets] at hall
        have haway : r.replica.getUser k cleared now = none := by simpa using hall
        exact (getUser_eq_none_iff.mp haway).mono ht

/-- Maintenance of the primary. -/
lemma Synced.maintained {s : Store} {c : Option (Store × ℕ)} (hm : Maintained r.primary s c)
    (hc : ∀ s2 now, c = some (s2, now) → now ≤ t) (hmeets : r.keepsChanges c = true) :
    Synced peerId namespaceId t { r with primary := s } := by
  obtain rfl | rfl | ⟨s2, now, rfl, hs2, rfl⟩ := hm.cases
  · exact h
  · exact h.flushMemtable
  · have hnow := hc s2 now rfl
    obtain rfl | rfl := hs2
    · exact h.compact hnow hmeets
    · exact h.flushMemtable.compact hnow hmeets

/-- The mutation of a call. -/
lemma Synced.mutation {c : Call} {s : Store} (hs : r.primary.mutation c = some s) :
    Synced peerId namespaceId t { r with primary := s } := by
  obtain ⟨op, clock⟩ := c
  cases op with
  | set key value =>
    exact h.put (puts_setRecord key.noNul (fun _ => value.noNul) (Nat.two_pow_pos 64) hs)
  | del => exact h.put (puts_delRecord hs)
  | expire key => exact h.put (puts_expireRecord key.noNul (clock.lt 1) hs)
  | sweep =>
    cases hs
    exact kept_tombstoneExpiredKeys (P := fun s =>
      Synced peerId namespaceId t { r with primary := s })
      (fun _ _ h => h.put) h _
  | clear => cases hs
  | sync =>
    cases hs
    exact h

end

lemma compaction_time {s s2 : Store} {c : Call} {now : ℕ} (h : s.compaction c = some (s2, now)) :
    ∃ n, now = c.clock.read n := by
  have hflush : ∀ {s : Store} {u : ℕ}, s.flushCompaction u = some (s2, now) → now = u := by
    intro s u hs
    unfold flushCompaction at hs
    split_ifs at hs
    cases hs
    rfl
  unfold Store.compaction at h
  split at h
  · split_ifs at h
    exact ⟨0, hflush h⟩
  · split_ifs at h
    exact ⟨1, hflush h⟩
  · split_ifs at h
    exact ⟨2, hflush h⟩
  · split_ifs at h
    cases h
    exact ⟨1, rfl⟩
  · cases h
  · split_ifs at h
    exact ⟨0, hflush h⟩

lemma Synced.call (h : Synced peerId namespaceId t r) {c : Call} (hop : c.op ≠ .clear)
    (ht : ∀ n, c.clock.read n ≤ t) (hmeets : r.meets (.call c) = true) :
    Synced peerId namespaceId t (r.step peerId namespaceId (.call c)) := by
  obtain hsame | ⟨s1, hs1, hm⟩ := exec_cases h.writable c hop
  · unfold step
    dsimp only
    rw [hsame]
    exact h
  · unfold meets at hmeets
    dsimp only at hmeets
    rw [hs1, bind_some] at hmeets
    refine (h.mutation hs1).maintained hm ?_ hmeets
    intro s2 now hc
    obtain ⟨n, rfl⟩ := compaction_time hc
    exact ht n

/-! ### Pull -/

/-- A record that a pull passes over is dead, and the replica has nothing for its key. -/
lemma gone_of_overlooks {clock : Clock} {k : Key} {p : Payload} (ht : ∀ n, clock.read n ≤ t)
    (hmeets : r.meets (.pull clock) = true) (hp : r.primary.newest k = some p)
    (hover : r.primary.overlooks r.resume (clock.read 0) (clock.read 1) k = true) :
    Gone t (r.primary.newest k) ∧ Gone t (r.replica.newest k) := by
  have hall := List.all_eq_true.mp hmeets k (mem_keys_of_newest hp)
  rw [hover] at hall
  have haway : r.replica.getUser k cleared (clock.read 1) = none := by simpa using hall
  refine ⟨?_, (getUser_eq_none_iff.mp haway).mono (ht 1)⟩
  intro q hq
  cases hp.symm.trans hq
  exact isDead_mono (ht 1) (isDead_of_overlooks hp hover (clock.mono (Nat.zero_le 1)))

/-- What a pull brings, and what it passes over, is settled afterwards. -/
lemma Synced.pull (h : Synced peerId namespaceId t r) {clock : Clock}
    (ht : ∀ n, clock.read n ≤ t) (hmeets : r.meets (.pull clock) = true) :
    Synced peerId namespaceId t (r.step peerId namespaceId (.pull clock)) := by
  obtain ⟨page, hpage, hnodup, hmem, hle, hall, hor⟩ :=
    h.sound.export_spec r.resume (clock.mono (Nat.zero_le 1))
  obtain ⟨hok, hsound, hro, htaken, hrest⟩ := h.replica.applyEach ht hnodup (by
    intro x hx
    obtain ⟨e, rfl, hnew, hlt, -⟩ := (hmem x).mp hx
    exact ⟨e, rfl, h.framed _ _ hnew, fun q hq => (h.older _ q hq).trans_lt hlt⟩) 2
  have hpage' : r.page clock = some page := hpage
  unfold step
  dsimp only
  rw [hpage']
  dsimp only
  rw [hok, if_pos rfl]
  -- a key of the page has the record of the primary, unless it is dead and was dropped
  have hkey : ∀ k, (∃ p, r.primary.newest k = some p ∧ p.changeSeq ≤ page.resume ∧
        Fades t (some p) ((r.replica.applyEach clock.read 2 page.records).1.newest k)) ∨
      (∀ p, r.primary.newest k = some p → r.resume < p.changeSeq →
          r.primary.overlooks r.resume (clock.read 0) (clock.read 1) k = true) ∧
        Fades t (r.replica.newest k)
          ((r.replica.applyEach clock.read 2 page.records).1.newest k) := by
    intro k
    by_cases hk : ∃ x ∈ page.records, x.key = k
    · obtain ⟨x, hx, hkey⟩ := hk
      obtain ⟨e, rfl, hp, -, -⟩ := (hmem x).mp hx
      obtain rfl : e.key = k := hkey
      exact .inl ⟨e.payload, hp, hall _ hx, htaken e (h.framed _ _ hp) hx⟩
    · refine .inr ⟨fun p hp hlt => ?_, hrest k fun x hx hkey => hk ⟨x, hx, hkey⟩⟩
      by_contra hno
      rw [Bool.not_eq_true] at hno
      exact hk ⟨_, (hmem _).mpr ⟨⟨k, p⟩, rfl, hp, hlt, hno⟩, rfl⟩
  refine ⟨h.sound, h.writable, h.framed, h.bounded, ?_, ?_, hsound, hro.trans h.readOnly, ?_, ?_⟩
  · obtain hsame | ⟨x, hx, hsame⟩ := hor
    · exact hsame.trans_le h.resume_le
    · obtain ⟨e, rfl, hnew, -, -⟩ := (hmem x).mp hx
      exact hsame.trans_le (h.bounded _ _ hnew)
  · obtain ⟨c, hc, hcovers, hseq⟩ := h.cursor
    exact ⟨c, hc, hcovers, hseq.trans hle⟩
  · intro k q hq
    obtain ⟨p, -, hple, hfade | ⟨hnone, -⟩⟩ | ⟨-, hsame | ⟨hnone, -⟩⟩ := hkey k
    · cases hfade.symm.trans hq
      exact hple
    · cases hnone.symm.trans hq
    · exact (h.older k q (hsame.symm.trans hq)).trans hle
    · cases hnone.symm.trans hq
  · intro k
    right
    obtain ⟨p, hp, -, hfade⟩ | ⟨hover, hfade⟩ := hkey k
    · rw [hp]
      exact hfade.eq_or_gone
    · obtain ⟨p, hp, hlt⟩ | heq | ⟨hgone, hgone'⟩ := h.agree k
      · -- the export passed over the record, so the replica had nothing
        obtain ⟨hgone, hgone'⟩ := gone_of_overlooks ht hmeets hp (hover p hp hlt)
        exact .inr ⟨hgone, hfade.gone hgone'⟩
      · rw [← heq]
        exact hfade.eq_or_gone
      · exact .inr ⟨hgone, hfade.gone hgone'⟩

/-! ### Acknowledgements and sweeps of the replica -/

lemma find?_setCursor {cs : List Cursor} {c : Cursor} (seq : ℕ)
    (h : cs.find? (fun c => decide (c.peerId = peerId ∧ c.namespaceId = namespaceId)) = some c) :
    (setCursor peerId namespaceId seq cs).find?
      (fun c => decide (c.peerId = peerId ∧ c.namespaceId = namespaceId)) =
        some { c with seq := seq } := by
  induction cs with
  | nil => cases h
  | cons x cs ih =>
    unfold setCursor
    by_cases hx : x.peerId = peerId ∧ x.namespaceId = namespaceId
    · rw [find?_cons_of_pos (by simpa using hx)] at h
      cases h
      rw [if_pos hx, find?_cons_of_pos (by simpa using hx)]
    · rw [find?_cons_of_neg (by simpa using hx)] at h
      rw [if_neg hx, find?_cons_of_neg (by simpa using hx)]
      exact ih h

section

variable (h : Synced peerId namespaceId t r) {clock : Clock} (ht : ∀ n, clock.read n ≤ t)
include h ht

lemma Synced.ack (hmeets : r.meets (.ack clock) = true) :
    Synced peerId namespaceId t (r.step peerId namespaceId (.ack clock)) := by
  have hsync : Synced peerId namespaceId t
      { r with primary := r.primary.syncStore (clock.read 0) } := by
    refine h.maintained (maintained_flush r.primary (clock.read 0) (0 < r.primary.memUsage)) ?_
      hmeets
    intro s2 now hc
    unfold flushCompaction at hc
    split_ifs at hc
    cases hc
    exact ht 0
  obtain ⟨c, hc, hcovers, hseq⟩ := h.cursor
  unfold step replicaCursorAdvance
  dsimp only
  rw [hc]
  dsimp only
  rw [if_neg hseq.not_gt]
  split_ifs
  · exact hsync
  · obtain ⟨c', hc', hcovers', -⟩ := hsync.cursor
    refine { hsync with sound := { hsync.sound with }, cursor := ?_ }
    exact ⟨{ c' with seq := r.resume }, find?_setCursor _ hc', hcovers', le_rfl⟩

lemma Synced.tidy :
    Synced peerId namespaceId t (r.step peerId namespaceId (.tidy clock)) := by
  obtain ⟨hsound, hro, hthin⟩ : (r.replica.sweepExpired (clock.read 0) (clock.read 1)).Sound ∧
      (r.replica.sweepExpired (clock.read 0) (clock.read 1)).replicaReadOnly = true ∧
      Thins t r.replica (r.replica.sweepExpired (clock.read 0) (clock.read 1)) := by
    unfold sweepExpired
    rw [h.readOnly, if_pos rfl]
    split_ifs
    · refine ⟨(h.replica.compact _).1, (replicaReadOnly_compact _ _).trans h.readOnly, ?_⟩
      exact (h.replica.thins_compact _).trans (Thins.of_newest fun _ => rfl) (ht 0)
    · exact ⟨h.replica, h.readOnly, Thins.of_newest fun _ => rfl⟩
  refine { h with replica := hsound, readOnly := hro, older := ?_, agree := ?_ }
  · intro k q hq
    obtain hsame | ⟨hnone, -⟩ := hthin k
    · exact h.older k q (hsame.symm.trans hq)
    · cases hnone.symm.trans hq
  · intro k
    obtain hpend | heq | ⟨hgone, hgone'⟩ := h.agree k
    · exact .inl hpend
    · right
      have := (hthin k).eq_or_gone
      rw [heq] at this
      exact this
    · exact .inr (.inr ⟨hgone, (hthin k).gone hgone'⟩)

end

/-! ### Runs -/

/-- The steps are in the order of the clock, and none is a clear. -/
structure Admissible (acts : List Act) : Prop where
  clock : acts.Pairwise fun a b => ∀ n, a.clock.read n ≤ b.clock.read 0
  noClear : ∀ c, .call c ∈ acts → c.op ≠ .clear

lemma Synced.step (h : Synced peerId namespaceId t r) {a : Act}
    (hop : ∀ c, a = .call c → c.op ≠ .clear) (ht : ∀ n, a.clock.read n ≤ t)
    (hmeets : r.meets a = true) : Synced peerId namespaceId t (r.step peerId namespaceId a) := by
  cases a with
  | call c => exact h.call (hop c rfl) ht hmeets
  | pull => exact h.pull ht hmeets
  | ack => exact h.ack ht hmeets
  | tidy => exact h.tidy ht

lemma meetsAll_append {acts : List Act} {a : Act}
    (h : r.meetsAll peerId namespaceId (acts ++ [a]) = true) :
    r.meetsAll peerId namespaceId acts = true ∧
      (acts.foldl (Replication.step peerId namespaceId) r).meets a = true := by
  induction acts generalizing r with
  | nil => exact ⟨rfl, (Bool.and_eq_true _ _).mp h |>.1⟩
  | cons b acts ih =>
    rw [cons_append] at h
    unfold meetsAll at h ⊢
    rw [Bool.and_eq_true] at h ⊢
    obtain ⟨hall, hlast⟩ := ih h.2
    exact ⟨⟨h.1, hall⟩, hlast⟩

lemma synced_run (others : List Cursor) {acts : List Act} (hacts : Admissible acts)
    (hmeets : (start peerId namespaceId others).meetsAll peerId namespaceId acts = true)
    (ht : ∀ a ∈ acts, ∀ n, a.clock.read n ≤ t) :
    Synced peerId namespaceId t (run peerId namespaceId others acts) := by
  induction acts using List.reverseRecOn generalizing t with
  | nil => exact synced_start others t
  | append_singleton acts a ih =>
    obtain ⟨hbefore, -, hlast⟩ := pairwise_append.mp hacts.clock
    obtain ⟨hall, ha⟩ := meetsAll_append hmeets
    have hsynced := ih ⟨hbefore, fun c hc => hacts.noClear c (mem_append_left _ hc)⟩ hall
      fun b hb n => (hlast b hb a (mem_singleton_self a) n).trans
        (ht a (mem_append_right _ (mem_singleton_self a)) 0)
    unfold run
    rw [foldl_append]
    refine hsynced.step ?_ (ht a (mem_append_right _ (mem_singleton_self a))) ha
    rintro c rfl
    exact hacts.noClear c (mem_append_right _ (mem_singleton_self _))

/-- Where no step passes over a change that the replica misses, a pull that brings no records finds
the replica with the live keys and values of the primary. -/
theorem replication_converges (peerId namespaceId : List UInt8) (others : List Cursor)
    (acts : List Act) (clock : Clock) (hacts : Admissible (acts ++ [Act.pull clock]))
    (hmeets : (start peerId namespaceId others).meetsAll peerId namespaceId
      (acts ++ [Act.pull clock]) = true)
    (hquiet : ((run peerId namespaceId others acts).page clock).map Page.records = some [])
    (k : Key) (t : ℕ) (ht : ∀ n, clock.read n ≤ t) :
    (run peerId namespaceId others acts).replica.getUser k cleared t =
      (run peerId namespaceId others acts).primary.getUser k cleared t := by
  obtain ⟨hbefore, -, hlast⟩ := pairwise_append.mp hacts.clock
  obtain ⟨hall, hpull⟩ := meetsAll_append hmeets
  have hsynced : Synced peerId namespaceId t (run peerId namespaceId others acts) :=
    synced_run others ⟨hbefore, fun c hc => hacts.noClear c (mem_append_left _ hc)⟩ hall
      fun a ha n => (hlast a ha _ (mem_singleton_self _) n).trans (ht 0)
  change (run peerId namespaceId others acts).meets (.pull clock) = true at hpull
  generalize run peerId namespaceId others acts = r at *
  obtain ⟨page, hpage, -, hmem, -⟩ :=
    hsynced.sound.export_spec r.resume (clock.mono (Nat.zero_le 1))
  have hempty : page.records = [] := by
    have hpage' : r.page clock = some page := hpage
    rw [hpage'] at hquiet
    exact some_inj.mp hquiet
  have hgone (h : Gone t (r.primary.newest k) ∧ Gone t (r.replica.newest k)) :
      r.replica.getUser k cleared t = r.primary.getUser k cleared t := by
    rw [getUser_eq_none_iff.mpr h.1, getUser_eq_none_iff.mpr h.2]
  obtain ⟨p, hp, hlt⟩ | heq | hg := hsynced.agree k
  · -- the change was passed over, so neither has the key
    refine hgone (gone_of_overlooks ht hpull hp ?_)
    by_contra hno
    rw [Bool.not_eq_true] at hno
    have := (hmem _).mpr ⟨⟨k, p⟩, rfl, hp, hlt, hno⟩
    rw [hempty] at this
    cases this
  · rw [getUser_eq, getUser_eq, heq]
  · exact hgone hg

end Replication

namespace Sample

open Replication

/-- A key is set and pulled; then it gets a time to live, which is over before the next pull. -/
def expiredUnpulled : List Act :=
  [.call ⟨.set ⟨[97], notMem_a⟩ ⟨[98], notMem_b⟩ 0 0, still 1 (by decide) (by decide)⟩,
    .pull (still 2 (by decide) (by decide)), .ack (still 3 (by decide) (by decide)),
    .call ⟨.expire ⟨[97], notMem_a⟩ 1, still 4 (by decide) (by decide)⟩]

/-- The replica keeps the key for good: the pull brings nothing. -/
theorem expired_key_stays_on_replica :
    Admissible (expiredUnpulled ++ [Act.pull (still 9 (by decide) (by decide))]) ∧
      ((run [112] [42] [] expiredUnpulled).page (still 9 (by decide) (by decide))).map
        Page.records = some [] ∧
      (run [112] [42] [] expiredUnpulled).replica.getUser [97] cleared 9 = some [98] ∧
      (run [112] [42] [] expiredUnpulled).primary.getUser [97] cleared 9 = none := by
  refine ⟨⟨?_, ?_⟩, by decide +kernel⟩
  · simp [expiredUnpulled, still, Act.clock]
  · simp [expiredUnpulled]

/-- The same calls with a pull before the key expires. -/
def expiredPulled : List Act :=
  expiredUnpulled ++ [Act.pull (still 4 (by decide) (by decide))]

theorem replication_converges_expiredPulled :
    (run [112] [42] [] expiredPulled).replica.getUser [97] cleared 9 =
      (run [112] [42] [] expiredPulled).primary.getUser [97] cleared 9 := by
  refine replication_converges [112] [42] [] expiredPulled (still 9 (by decide) (by decide))
    ⟨?_, ?_⟩ (by decide +kernel) (by decide +kernel) [97] 9 fun _ => le_rfl
  · simp [expiredPulled, expiredUnpulled, still, Act.clock]
  · simp [expiredPulled, expiredUnpulled]

end Sample

end Qihse.Kv
