import Qihse.Kv.Crash

/-!
# Change sequences

Every mutation is given the sequence after the last one, and its record carries it. The last
sequence itself is stored nowhere: a store that is opened takes the largest one of the records it
finds. `Store.retainsLast` says that a store which is closed has a record with the last sequence.
-/

namespace Qihse.Kv

open List

/-- The sequence of the record that an operation appends to the log. -/
def FileOp.sequence : FileOp → Option ℕ
  | .append bytes => (readFrame.run bytes).map fun r => r.1.payload.changeSeq
  | .rename _ _ => none
  | .emptyWal => none
  | .unlink _ => none

def sequences (ops : List FileOp) : List ℕ := ops.filterMap FileOp.sequence

/-- No sequence was given yet, or a record of the memtable or of the files has the last one. -/
def Store.retainsLast (s : Store) : Bool :=
  decide (s.changeSeq = 0) ||
    s.memtable.any (fun e => decide (e.payload.changeSeq = s.changeSeq)) ||
    s.disk.files.entries.any fun file =>
      file.2.any fun e => decide (e.payload.changeSeq = s.changeSeq)

/-! ### A data directory in use -/

/-- The open store, and the sequences that were given to mutations since the directory was empty. -/
structure Lifetime where
  store : Store
  given : List ℕ

namespace Lifetime

inductive Act
  | call (c : Call)
  /-- `qihse_kv_store_destroy` and `qihse_kv_store_create` -/
  | reopen

def step (l : Lifetime) : Act → Lifetime
  | .call c =>
    let s := (l.store.exec c).1
    ⟨s, l.given ++ sequences (s.issued.drop l.store.issued.length)⟩
  | .reopen => ⟨.create l.store.disk, l.given⟩

def run (cursors : List Cursor) (acts : List Act) : Lifetime :=
  acts.foldl step ⟨.fresh cursors, []⟩

/-- The condition on an act: a store that is closed retains the last sequence. -/
def meets (l : Lifetime) : Act → Bool
  | .call _ => true
  | .reopen => l.store.retainsLast

def meetsAll (l : Lifetime) : List Act → Bool
  | [] => true
  | a :: acts => l.meets a && (l.step a).meetsAll acts

end Lifetime

open Lifetime

namespace Store

variable {s s' s'' : Store} {e : Entry} {k : Key} {now : ℕ}

/-! ### The moves of a call -/

/-- What the calls are made of. -/
inductive Move : Store → Store → Prop
  | put {s : Store} {e : Entry} (framed : e.Framed) (seq : s.changeSeq < e.payload.changeSeq) :
      Move s (s.put e)
  | flush (s : Store) : Move s s.flushMemtable
  | compact (s : Store) (now : ℕ) : Move s (s.compactSstablesStream now)

def Moves : Store → Store → Prop := Relation.ReflTransGen Move

lemma Inv.moves_exec (h : s.Inv) (c : Call) : Moves s (s.exec c).1 := by
  have hkept : Kept fun s' => s'.Inv ∧ Moves s s' := by
    refine ⟨?_, fun h => ⟨kept_inv.flushMemtable h.1, h.2.tail (.flush _)⟩,
      fun now h => ⟨kept_inv.compact now h.1, h.2.tail (.compact _ now)⟩⟩
    rintro s1 _ h ⟨e, he, hlt, rfl⟩
    exact ⟨kept_inv.put h.1 ⟨e, he, hlt, rfl⟩, h.2.tail (.put (he h.1.framed) hlt)⟩
  exact (hkept.exec ⟨h, .refl⟩ c).2

/-! ### Sequences of a call -/

/-- The operations between two stores give sequences that ascend from that of the first store and
are at most that of the second. -/
def Gives (s s' : Store) : Prop :=
  ∃ ops, s'.issued = s.issued ++ ops ∧ (s.changeSeq :: sequences ops).Pairwise (· < ·) ∧
    ∀ q ∈ s.changeSeq :: sequences ops, q ≤ s'.changeSeq

lemma Gives.refl (s : Store) : Gives s s :=
  ⟨[], (append_nil _).symm, pairwise_singleton _ _, fun _ hq =>
    (mem_singleton.mp hq).le⟩

lemma Gives.trans (h : Gives s s') (h' : Gives s' s'') : Gives s s'' := by
  obtain ⟨ops, hissued, hasc, hle⟩ := h
  obtain ⟨ops', hissued', hasc', hle'⟩ := h'
  have hseq : sequences (ops ++ ops') = sequences ops ++ sequences ops' := filterMap_append
  refine ⟨ops ++ ops', by rw [hissued', hissued, append_assoc], ?_, ?_⟩
  · rw [hseq, ← cons_append]
    refine pairwise_append.mpr ⟨hasc, (pairwise_cons.mp hasc').2, fun a ha b hb => ?_⟩
    exact (hle a ha).trans_lt ((pairwise_cons.mp hasc').1 b hb)
  · rw [hseq, ← cons_append]
    obtain ⟨hlast, hgiven⟩ := forall_mem_cons.mp hle'
    exact forall_mem_append.mpr ⟨fun q hq => (hle q hq).trans hlast, hgiven⟩

/-- Operations that append nothing give no sequences. -/
lemma gives_nothing {ops : List FileOp} (hissued : s'.issued = s.issued ++ ops)
    (hops : ∀ op ∈ ops, op.isAppend = false) (hle : s.changeSeq ≤ s'.changeSeq) : Gives s s' := by
  have hnone : sequences ops = [] := by
    refine filterMap_eq_nil_iff.mpr fun op hop => ?_
    cases op with
    | append => cases hops _ hop
    | rename | emptyWal | unlink => rfl
  refine ⟨ops, hissued, ?_, ?_⟩
  · rw [hnone]
    exact pairwise_singleton _ _
  · rw [hnone]
    exact fun q hq => (mem_singleton.mp hq).trans_le hle

lemma Move.gives (h : Move s s') : Gives s s' := by
  cases h with
  | @put e framed seq =>
    have hread := e.reads_frame framed .localSeq []
    rw [append_nil] at hread
    have hseq : sequences [.append (e.frame .localSeq)] = [e.payload.changeSeq] := by
      simp [sequences, FileOp.sequence, hread]
    refine ⟨[.append (e.frame .localSeq)], rfl, ?_, ?_⟩
    · rw [hseq]
      exact pairwise_pair.mpr seq
    · rw [hseq]
      exact forall_mem_cons.mpr ⟨seq.le, forall_mem_singleton.mpr le_rfl⟩
  | flush =>
    have hissued : s.flushMemtable.issued =
        s.issued ++ [FileOp.rename s.sstableCounter s.memtable, .emptyWal] := by
      simp [flushMemtable, issueAll_eq]
    refine gives_nothing hissued ?_ le_rfl
    intro op hop
    rcases mem_pair.mp hop with rfl | rfl
    · rfl
    · rfl
  | compact now =>
    by_cases hc : s.sstableCounter = 0
    · rw [compactSstablesStream, if_pos hc]
      exact .refl s
    · exact gives_nothing (s.compact_fields now hc).1 (s.isAppend_compactOps now)
        (changeSeq_le_compact s now)

lemma Moves.gives (h : Moves s s') : Gives s s' := by
  induction h with
  | refl => exact .refl s
  | tail _ hmove ih => exact ih.trans hmove.gives

/-! ### Opening -/

lemma changeSeq_le_walReplayRecord (h : s.walReplayRecord e = some s') :
    s.changeSeq ≤ s'.changeSeq := by
  unfold walReplayRecord at h
  split at h
  · split_ifs at h
    · cases h
      exact le_rfl
    · cases h
      exact le_max_left _ _
  · cases h
    exact le_max_left _ _

lemma changeSeq_le_walReplay (n : ℕ) (s : Store) (bytes : List UInt8) (good : ℕ) :
    s.changeSeq ≤ (walReplay n s bytes good).1.changeSeq := by
  induction n generalizing s bytes good with
  | zero => exact le_rfl
  | succ n ih =>
    unfold walReplay
    split
    · exact le_rfl
    · split
      · exact le_rfl
      · next hrecord => exact (changeSeq_le_walReplayRecord hrecord).trans (ih _ _ _)

/-- The files raise the sequence to that of each of their records. -/
lemma changeSeq_le_loadFiles (hs : s.sstMeta = ∅) {n id : ℕ} (hid : id < n)
    {records : List Entry} (hf : s.disk.files.lookup id = some records) (he : e ∈ records) :
    e.payload.changeSeq ≤ ((List.range n).foldl sstIndexLoadFile s).changeSeq := by
  induction n with
  | zero => cases hid
  | succ n ih =>
    rw [range_succ, foldl_append, foldl_cons, foldl_nil]
    rcases Nat.lt_succ_iff_lt_or_eq.mp hid with hlt | rfl
    · exact (ih hlt).trans (changeSeq_le_sstIndexLoadFile _ _)
    · have hdisk := (loadFiles s hs id).2.1
      generalize (List.range id).foldl sstIndexLoadFile s = s' at hdisk ⊢
      unfold sstIndexLoadFile
      rw [hdisk, hf]
      exact (le_foldl_max (·.payload.changeSeq) _ _).2 e he

/-- Where the last sequence is retained, a store that is opened goes on from it. -/
lemma Inv.changeSeq_le_create (h : s.Inv) (hlast : s.retainsLast = true) :
    s.changeSeq ≤ (create s.disk).changeSeq := by
  unfold retainsLast at hlast
  simp only [Bool.or_eq_true, decide_eq_true_eq, any_eq_true] at hlast
  rcases hlast with (hzero | ⟨e, he, hseq⟩) | ⟨⟨id, records⟩, hfile, e, he, hseq⟩
  · rw [hzero]
    exact Nat.zero_le _
  · obtain ⟨es, hlog⟩ := h.logged
    have hwal : s.disk.wal = frames es ++ [] := by rw [hlog.wal, append_nil]
    obtain ⟨-, hlogged, -⟩ := create_spec h.sound.keyed hlog.toJournaled torn_nil hwal
    rw [mem_memtable, hlog.trie, hlog.find_trieOf] at he
    rw [← hseq]
    exact hlogged.bound _ (mem_of_lastOf he)
  · rw [← hseq]
    have hlookup : s.disk.files.lookup id = some records := AList.mem_lookup_iff.mpr hfile
    refine le_trans ?_ (changeSeq_le_walReplay _ (scanned s.disk).loadIndex _ 0)
    refine changeSeq_le_loadFiles rfl ?_ hlookup he
    exact (le_foldl_max (· + 1) _ _).2 _
      (AList.mem_keys.mp (AList.lookup_isSome.mp (by rw [hlookup]; rfl)))

end Store

/-! ### Lifetimes -/

namespace Lifetime

/-- The sequences ascend up to that of the store. -/
structure Ascends (l : Lifetime) : Prop where
  inv : l.store.Inv
  ascending : l.given.Pairwise (· < ·)
  bound : ∀ q ∈ l.given, q ≤ l.store.changeSeq

lemma Ascends.step {l : Lifetime} (h : l.Ascends) {a : Act} (ha : l.meets a = true) :
    (l.step a).Ascends := by
  cases a with
  | call c =>
    obtain ⟨ops, hissued, hasc, hle⟩ := (h.inv.moves_exec c).gives
    have hdrop : (l.step (.call c)).given = l.given ++ sequences ops := by
      simp [Lifetime.step, hissued]
    refine ⟨Store.kept_inv.exec h.inv c, ?_, ?_⟩
    · rw [hdrop]
      refine pairwise_append.mpr ⟨h.ascending, (pairwise_cons.mp hasc).2, ?_⟩
      exact fun a ha b hb => (h.bound a ha).trans_lt ((pairwise_cons.mp hasc).1 b hb)
    · rw [hdrop]
      obtain ⟨hlast, hgiven⟩ := forall_mem_cons.mp hle
      exact forall_mem_append.mpr ⟨fun q hq => (h.bound q hq).trans hlast, hgiven⟩
  | reopen =>
    exact ⟨(h.inv.recovers 0).1, h.ascending, fun q hq =>
      (h.bound q hq).trans (h.inv.changeSeq_le_create ha)⟩

lemma Ascends.run {l : Lifetime} (h : l.Ascends) {acts : List Act}
    (hacts : l.meetsAll acts = true) : (acts.foldl Lifetime.step l).Ascends := by
  induction acts generalizing l with
  | nil => exact h
  | cons a acts ih =>
    rw [meetsAll, Bool.and_eq_true] at hacts
    exact ih (h.step hacts.1) hacts.2

/-- If a record with the last sequence is there whenever the store is closed, then every sequence
that is given to a mutation is greater than all those before it. -/
theorem sequences_ascend (cursors : List Cursor) (acts : List Act)
    (hacts : meetsAll ⟨.fresh cursors, []⟩ acts = true) :
    (run cursors acts).given.Pairwise (· < ·) := by
  have hfresh : Ascends ⟨.fresh cursors, []⟩ :=
    ⟨Store.inv_fresh cursors, List.Pairwise.nil, fun _ hq => absurd hq not_mem_nil⟩
  exact (hfresh.run hacts).ascending

end Lifetime

namespace Sample

/-- A key that expires in the files and is swept before the store is closed. -/
def sweptAndReopened : List Act :=
  [.call firstSet,
    .call ⟨.expire ⟨[97], notMem_a⟩ 1, still 5 five_pos five_lt⟩,
    .call ⟨.sync, still 5 five_pos five_lt⟩,
    .call ⟨.sweep, still 9 (by decide) (by decide)⟩,
    .reopen,
    .call ⟨.set ⟨[98], notMem_b⟩ ⟨[99], notMem_c⟩ 0 0, still 10 (by decide) (by decide)⟩]

/-- The sequence of the first mutation is given again. -/
theorem sequence_given_again : (run [] sweptAndReopened).given = [1, 2, 1] := by
  decide +kernel

/-- A store that is closed with a key in its log. -/
def setAndReopened : List Act :=
  [.call firstSet, .reopen,
    .call ⟨.set ⟨[98], notMem_b⟩ ⟨[99], notMem_c⟩ 0 0, still 10 (by decide) (by decide)⟩]

theorem sequences_ascend_setAndReopened : meetsAll ⟨.fresh [], []⟩ setAndReopened = true ∧
      (run [] setAndReopened).given.Pairwise (· < ·) := by
  have hmeets : meetsAll ⟨.fresh [], []⟩ setAndReopened = true := by decide +kernel
  exact ⟨hmeets, sequences_ascend [] setAndReopened hmeets⟩

end Sample

end Qihse.Kv
