import Qihse.Kv.Refine
import Qihse.Kv.Reopen

/-!
# Crashes of the store

A crash leaves the files after some of the operations that a call issues, and of an append possibly
only a part. `Store.Spans` follows the crash points of a call through its parts: an append, a flush
and a compaction. Whatever they leave, a store that is opened on it answers as before the call or as
after it.
-/

namespace Qihse.Kv

open List Store Disk

/-- What a crash can leave of a directory while operations are carried out. -/
inductive CrashPoint : Disk → List FileOp → Disk → Prop
  | stop (d : Disk) (ops : List FileOp) : CrashPoint d ops d
  | torn (d : Disk) (bytes : List UInt8) (ops : List FileOp) (n : ℕ) (hn : n < bytes.length) :
      CrashPoint d (.append bytes :: ops) (d.apply (.append (bytes.take n)))
  | step {d d' : Disk} {op : FileOp} {ops : List FileOp} (h : CrashPoint (d.apply op) ops d') :
      CrashPoint d (op :: ops) d'

def FileOp.isAppend : FileOp → Bool
  | .append _ => true
  | _ => false

section CrashPoint

variable {d d' : Disk} {ops ops' : List FileOp}

lemma CrashPoint.append (h : CrashPoint d (ops ++ ops') d') :
    CrashPoint d ops d' ∨ CrashPoint (ops.foldl apply d) ops' d' := by
  induction ops generalizing d with
  | nil => exact .inr h
  | cons op ops ih =>
    cases h with
    | stop => exact .inl (.stop _ _)
    | torn _ bytes _ n hn => exact .inl (.torn _ _ _ n hn)
    | step h =>
      obtain h | h := ih h
      · exact .inl (.step h)
      · exact .inr h

/-- Operations that append nothing are done or not. -/
lemma CrashPoint.exists_take (h : CrashPoint d ops d') (hops : ∀ op ∈ ops, op.isAppend = false) :
    ∃ i, d' = (ops.take i).foldl apply d := by
  induction h with
  | stop => exact ⟨0, rfl⟩
  | torn => cases hops _ mem_cons_self
  | step _ ih =>
    obtain ⟨i, hi⟩ := ih fun op hop => hops op (mem_cons_of_mem _ hop)
    exact ⟨i + 1, hi⟩

end CrashPoint

namespace Store

variable {s s' s'' : Store} {d : Disk} {e : Entry} {k : Key} {p : Payload} {now : ℕ}

/-! ### The invariant -/

/-- A store that runs: the index is right, the log has the memtable, and whatever is found can be
logged. -/
structure Inv (s : Store) : Prop where
  sound : s.Sound
  logged : ∃ es, s.Logged es
  framed : ∀ k p, s.newest k = some p → (⟨k, p⟩ : Entry).Framed

lemma inv_fresh (cursors : List Cursor) : (fresh cursors).Inv where
  sound := sound_fresh cursors
  logged := ⟨[], ⟨by simp, List.Pairwise.nil⟩, rfl, rfl, by simp⟩
  framed k p h := by
    rw [newest_fresh] at h
    cases h

lemma Thins.framed (h : Thins now s s') (hs : s.Framed) : s'.Framed := by
  intro k p hp
  obtain hk | ⟨hk, -⟩ := h k
  · exact hs k p (hk ▸ hp)
  · rw [hk] at hp
    cases hp

/-- A directory opens to a store that runs and answers like this one. -/
def Recovers (now : ℕ) (s : Store) (d : Disk) : Prop := (create d).Inv ∧ Alike now s (create d)

lemma Recovers.of_alike (h : Recovers now s' d) (hs : Alike now s s') : Recovers now s d :=
  ⟨h.1, hs.trans h.2⟩

lemma Recovers.mono {now' : ℕ} (h : Recovers now s d) (hle : now ≤ now') : Recovers now' s d :=
  ⟨h.1, h.2.mono hle⟩

/-- A directory with the log of a store, a torn frame after it, and files that only lost records
which are dead. -/
lemma Inv.recovers_of_thins (h : s.Inv) {es : List Entry} (hes : Journaled es)
    (hfiles : d.files.Keyed) {tail : List UInt8} (htail : Torn tail)
    (hwal : d.wal = frames es ++ tail)
    (hthin : ∀ k, (lastOf es k).or (d.files.latest k) = s.newest k ∨
      (lastOf es k).or (d.files.latest k) = none ∧ ∃ p, s.newest k = some p ∧ p.isDead now) :
    Recovers now s d := by
  obtain ⟨hsound, hlog, hnew⟩ := create_spec hfiles hes htail hwal
  have hthins : Thins now s (create d) := by
    intro k
    rw [hnew k]
    exact hthin k
  exact ⟨⟨hsound, ⟨es, hlog⟩, hthins.framed h.framed⟩, hthins.alike⟩

/-- The directory of a store that stands still. -/
lemma Inv.recovers (h : s.Inv) (now : ℕ) : Recovers now s s.disk := by
  obtain ⟨es, hlog⟩ := h.logged
  refine h.recovers_of_thins hlog.toJournaled h.sound.keyed torn_nil
    (by rw [hlog.wal, append_nil]) fun k => .inl (h.sound.newest_eq hlog k).symm

/-! ### Crash points -/

/-- The operations that lead from one store to another, with a property of all their crash
points. -/
def Spans (P : Disk → Prop) (s s' : Store) : Prop :=
  ∃ ops, s'.issued = s.issued ++ ops ∧ s'.disk = ops.foldl apply s.disk ∧
    ∀ d, CrashPoint s.disk ops d → P d

variable {P Q : Disk → Prop}

lemma Spans.refl (h : P s.disk) : Spans P s s := by
  refine ⟨[], (append_nil _).symm, rfl, fun d hd => ?_⟩
  cases hd
  exact h

lemma Spans.trans (h : Spans P s s') (h' : Spans P s' s'') : Spans P s s'' := by
  obtain ⟨ops, hi, hd, hP⟩ := h
  obtain ⟨ops', hi', hd', hP'⟩ := h'
  refine ⟨ops ++ ops', ?_, ?_, fun d hcrash => ?_⟩
  · rw [hi', hi, append_assoc]
  · rw [hd', hd, foldl_append]
  · obtain hcrash | hcrash := hcrash.append
    · exact hP d hcrash
    · rw [← hd] at hcrash
      exact hP' d hcrash

lemma Spans.imp (h : Spans P s s') (hPQ : ∀ d, P d → Q d) : Spans Q s s' := by
  obtain ⟨ops, hi, hd, hP⟩ := h
  exact ⟨ops, hi, hd, fun d hcrash => hPQ d (hP d hcrash)⟩

/-! ### Append -/

lemma Inv.put (h : s.Inv) (he : e.Framed) (hseq : s.changeSeq < e.payload.changeSeq) (now : ℕ) :
    (s.put e).Inv ∧ Spans (fun d => Recovers now s d ∨ Recovers now (s.put e) d) s (s.put e) := by
  obtain ⟨es, hlog⟩ := h.logged
  have hinv : (s.put e).Inv := by
    refine ⟨h.sound.put e, ⟨es ++ [e], ⟨?_, ?_⟩, ?_, ?_, ?_⟩, ?_⟩
    · exact forall_mem_append.mpr ⟨hlog.framed, forall_mem_singleton.mpr he⟩
    · exact pairwise_append.mpr ⟨hlog.ascending, pairwise_singleton _ _, fun a ha =>
        forall_mem_singleton.mpr ((hlog.bound a ha).trans_lt hseq)⟩
    · have : (s.put e).disk.wal = s.disk.wal ++ e.frame .localSeq := rfl
      rw [this, hlog.wal]
      simp [frames]
    · have : (s.put e).trie = s.trie.insert e.key e.payload := rfl
      rw [this, hlog.trie]
      simp [trieOf]
    · exact forall_mem_append.mpr ⟨fun x hx => (hlog.bound x hx).trans hseq.le,
        forall_mem_singleton.mpr le_rfl⟩
    · intro k p hp
      rw [newest_put he.key.1] at hp
      split_ifs at hp with hk
      · cases hp
        subst hk
        exact he
      · exact h.framed k p hp
  refine ⟨hinv, [.append (e.frame .localSeq)], rfl, rfl, fun d hcrash => ?_⟩
  cases hcrash with
  | stop => exact .inl (h.recovers now)
  | torn _ _ _ n hn =>
    left
    refine h.recovers_of_thins hlog.toJournaled h.sound.keyed (he.torn hn) ?_ fun k =>
      .inl (h.sound.newest_eq hlog k).symm
    simp [apply, hlog.wal]
  | step hcrash =>
    cases hcrash
    exact .inr (hinv.recovers now)

/-! ### Flush -/

lemma Inv.flushMemtable (h : s.Inv) (now : ℕ) :
    s.flushMemtable.Inv ∧ Spans (Recovers now s) s s.flushMemtable := by
  obtain ⟨es, hlog⟩ := h.logged
  have hdisk : s.flushMemtable.disk =
      (s.disk.apply (.rename s.sstableCounter s.memtable)).apply .emptyWal := rfl
  have hinv : s.flushMemtable.Inv := by
    refine ⟨h.sound.flushMemtable.1, ⟨[], ⟨by simp, List.Pairwise.nil⟩, ?_, rfl, by simp⟩, ?_⟩
    · rfl
    · intro k p hp
      rw [h.sound.newest_flushMemtable] at hp
      exact h.framed k p hp
  have hflushed : Alike now s s.flushMemtable :=
    (Thins.of_newest h.sound.newest_flushMemtable).alike
  refine ⟨hinv, [.rename s.sstableCounter s.memtable, .emptyWal], ?_, hdisk, fun d hcrash => ?_⟩
  · simp [Store.flushMemtable, issueAll_eq]
  cases hcrash with
  | stop => exact h.recovers now
  | step hcrash =>
    cases hcrash with
    | stop =>
      -- the records are in the new file and still in the log
      have hfiles : s.flushMemtable.disk.files =
          (s.disk.apply (.rename s.sstableCounter s.memtable)).files := rfl
      refine h.recovers_of_thins hlog.toJournaled ?_ torn_nil
        (by rw [append_nil]; exact hlog.wal) fun k => .inl ?_
      · exact hinv.sound.keyed
      · have hlatest : s.flushMemtable.disk.files.latest k = s.newest k := by
          rw [← h.sound.flushMemtable.2 k, hinv.sound.latest k,
            Files.newestBelow_eq_latest hinv.sound.below]
        rw [← hfiles, hlatest, h.sound.newest_eq hlog k, ← Option.or_assoc, Option.or_self]
    | step hcrash =>
      cases hcrash
      exact (hinv.recovers now).of_alike hflushed

/-! ### Compaction -/

/-- Without the oldest files the last record of a key is the same or missing. -/
lemma newestBelow_of_unlinked {f g : Files} {j n : ℕ}
    (h : ∀ id < n, g.lookup id = if id < j then none else f.lookup id) :
    g.newestBelow n k = f.newestBelow n k ∨ g.newestBelow n k = none := by
  induction n with
  | zero => exact .inl rfl
  | succ n ih =>
    have ih := ih fun id hid => h id (Nat.lt_succ_of_lt hid)
    by_cases hj : n < j
    · right
      refine Files.newestBelow_eq_none fun id hid => ?_
      rw [h id hid, if_pos (lt_of_le_of_lt (Nat.le_of_lt_succ hid) hj)]
    · rw [Files.newestBelow, Files.newestBelow, h n n.lt_succ_self, if_neg hj]
      cases lastOf ((f.lookup n).getD []) k with
      | some => exact .inl rfl
      | none => exact ih

/-- The files of a compaction that was stopped. -/
lemma exists_unlinked {i : ℕ} (hd : d = ((s.compactOps now).take i).foldl apply s.disk) :
    d = s.disk ∨ d.wal = s.disk.wal ∧ ∃ j ≤ s.sstableCounter, ∀ id, d.files.lookup id =
      if id < j then none
      else if id = s.sstableCounter ∧ s.compacted now ≠ [] then some (s.compacted now)
      else s.disk.files.lookup id := by
  have hunlink : ∀ (i : ℕ) (d0 : Disk),
      d = (((List.range s.sstableCounter).map FileOp.unlink).take i).foldl apply d0 →
      d.wal = d0.wal ∧ ∃ j ≤ s.sstableCounter, ∀ id,
        d.files.lookup id = if id < j then none else d0.files.lookup id := by
    rintro i d0 rfl
    clear hd
    rw [← map_take, take_range]
    refine ⟨?_, min i s.sstableCounter, min_le_right _ _, fun id => lookup_unlink _ _ _⟩
    generalize List.range (min i s.sstableCounter) = ids
    induction ids generalizing d0 with
    | nil => rfl
    | cons id ids ih => exact ih (d0.apply (.unlink id))
  unfold compactOps at hd
  by_cases hw : s.compacted now = []
  · right
    rw [if_pos hw, nil_append] at hd
    obtain ⟨hwal, j, hj, hlookup⟩ := hunlink i s.disk hd
    refine ⟨hwal, j, hj, fun id => ?_⟩
    rw [hlookup id]
    simp [hw]
  · rw [if_neg hw] at hd
    cases i with
    | zero => exact .inl hd
    | succ i =>
      right
      rw [singleton_append, take_succ_cons, foldl_cons] at hd
      obtain ⟨hwal, j, hj, hlookup⟩ := hunlink i _ hd
      refine ⟨hwal, j, hj, fun id => ?_⟩
      rw [hlookup id]
      by_cases hid : id = s.sstableCounter
      · subst hid
        simp [apply, hw, AList.lookup_insert]
      · simp [apply, hid, AList.lookup_insert_ne hid]

/-- A compaction that is stopped anywhere has lost nothing but dead records: an old record only
comes back when the newer ones of its key are all there. -/
lemma Inv.recovers_unlinked (h : s.Inv) {j : ℕ} (hj : j ≤ s.sstableCounter)
    (hwal : d.wal = s.disk.wal) (hd : ∀ id, d.files.lookup id = if id < j then none
      else if id = s.sstableCounter ∧ s.compacted now ≠ [] then some (s.compacted now)
      else s.disk.files.lookup id) : Recovers now s d := by
  obtain ⟨es, hlog⟩ := h.logged
  have hfresh : s.disk.files.lookup s.sstableCounter = none :=
    AList.lookup_eq_none.mpr fun hmem => lt_irrefl _ (h.sound.below _ hmem)
  have hbelow : ∀ id ∈ d.files, id < s.sstableCounter + 1 := by
    intro id hid
    rw [← AList.lookup_isSome, hd] at hid
    split_ifs at hid with h1 h2
    · cases hid
    · exact h2.1 ▸ Nat.lt_succ_self _
    · exact Nat.lt_succ_of_lt (h.sound.below id (AList.lookup_isSome.mp hid))
  have hkeyed : d.files.Keyed := by
    intro id records hr x hx
    rw [hd] at hr
    split_ifs at hr with h1 h2
    · cases hr
      obtain ⟨-, hp, -⟩ := h.sound.mem_compacted.mp hx
      refine h.sound.key_ne_nil (k := x.key) (p := x.payload) ?_
      unfold newest
      rw [(h.sound.mem_compacted.mp hx).1, hp]
      rfl
    · exact h.sound.keyed id records hr x hx
  have htop : (d.files.lookup s.sstableCounter).getD [] = s.compacted now := by
    rw [hd, if_neg (not_lt.mpr hj)]
    by_cases hw : s.compacted now = []
    · simp [hw, hfresh]
    · simp [hw]
  refine h.recovers_of_thins hlog.toJournaled hkeyed torn_nil
    (by rw [hwal, hlog.wal, append_nil]) fun k => ?_
  have hrest := newestBelow_of_unlinked (k := k) (f := s.disk.files) (g := d.files) (j := j)
    (n := s.sstableCounter) fun id hid => by rw [hd]; simp [hid.ne]
  rw [← h.sound.latest k] at hrest
  rw [← Files.newestBelow_eq_latest hbelow, Files.newestBelow, htop,
    h.sound.lastOf_compacted k, ← hlog.find_trieOf k, ← hlog.trie]
  unfold newest
  cases ht : s.trie.find k with
  | some => exact .inl rfl
  | none =>
    cases hp : s.pinned k with
    | none =>
      rw [hp] at hrest
      left
      simpa using hrest
    | some p =>
      rw [hp] at hrest
      cases hk : s.keeps now k p with
      | true =>
        left
        simp [Option.filter, hk]
      | false =>
        simp only [Option.filter, hk, Bool.false_eq_true, if_false, Option.none_or]
        obtain hrest | hrest := hrest
        · exact .inl hrest
        · exact .inr ⟨hrest, p, rfl, isDead_of_keeps hk⟩

lemma wal_foldl_compactOps (s : Store) (now : ℕ) :
    ((s.compactOps now).foldl apply s.disk).wal = s.disk.wal := by
  have h := exists_unlinked (i := (s.compactOps now).length)
    (by rw [take_length] : (s.compactOps now).foldl apply s.disk = _)
  obtain h | h := h
  · rw [h]
  · exact h.1

lemma isAppend_compactOps (s : Store) (now : ℕ) : ∀ op ∈ s.compactOps now, op.isAppend = false := by
  intro op hop
  obtain hop | hop := mem_append.mp hop
  · split_ifs at hop
    · cases hop
    · rw [mem_singleton.mp hop]
      rfl
  · obtain ⟨id, -, rfl⟩ := mem_map.mp hop
    rfl

/-- The fields that a compaction sets from the operations that it issues. -/
lemma compact_fields (s : Store) (now : ℕ) (hc : s.sstableCounter ≠ 0) :
    (s.compactSstablesStream now).issued = s.issued ++ s.compactOps now ∧
      (s.compactSstablesStream now).disk = (s.compactOps now).foldl apply s.disk := by
  unfold compactSstablesStream sstIndexLoadFile
  simp only [issueAll_eq, if_neg hc]
  split_ifs
  · exact ⟨rfl, rfl⟩
  · split <;> exact ⟨rfl, rfl⟩

lemma Inv.compact (h : s.Inv) (now : ℕ) : (s.compactSstablesStream now).Inv ∧
    Spans (Recovers now s) s (s.compactSstablesStream now) := by
  obtain ⟨es, hlog⟩ := h.logged
  by_cases hc : s.sstableCounter = 0
  · have hsame : s.compactSstablesStream now = s := if_pos hc
    rw [hsame]
    exact ⟨h, Spans.refl (h.recovers now)⟩
  · obtain ⟨hissued, hdisk⟩ := s.compact_fields now hc
    have hinv : (s.compactSstablesStream now).Inv := by
      refine ⟨(h.sound.compact now).1, ⟨es, hlog.toJournaled, ?_, ?_, ?_⟩,
        (h.sound.thins_compact now).framed h.framed⟩
      · rw [hdisk, wal_foldl_compactOps, hlog.wal]
      · rw [trie_compact, hlog.trie]
      · exact fun x hx => (hlog.bound x hx).trans (changeSeq_le_compact s now)
    refine ⟨hinv, s.compactOps now, hissued, hdisk, fun d hcrash => ?_⟩
    obtain ⟨i, hi⟩ := hcrash.exists_take (s.isAppend_compactOps now)
    obtain rfl | ⟨hwal, j, hj, hlookup⟩ := exists_unlinked hi
    · exact h.recovers now
    · exact h.recovers_unlinked hj hwal hlookup

lemma kept_inv : Kept Inv where
  put := by
    rintro s _ h ⟨e, he, hlt, rfl⟩
    exact (h.put (he h.framed) hlt 0).1
  flushMemtable h := (h.flushMemtable 0).1
  compact now h := (h.compact now).1

lemma Inv.flush (h : s.Inv) (now : ℕ) :
    Spans (Recovers now s) s (s.flushMemtableToSstable now) := by
  obtain ⟨hinv, hspan⟩ := h.flushMemtable now
  have hflushed : Alike now s s.flushMemtable :=
    (Thins.of_newest h.sound.newest_flushMemtable).alike
  unfold flushMemtableToSstable
  split_ifs
  · exact hspan.trans ((hinv.compact now).2.imp fun d hd => hd.of_alike hflushed)
  · exact hspan

/-! ### Calls -/

/-- A crash in a call leaves the answers before it or those after it. -/
def Consistent (now : ℕ) (s s' : Store) : Prop :=
  Spans (fun d => (create d).Inv ∧ (Alike now s (create d) ∨ Alike now s' (create d))) s s'

lemma Consistent.of_alike (h : Spans (Recovers now s) s s') : Consistent now s s' :=
  Spans.imp h fun _ hd => ⟨hd.1, .inl hd.2⟩

lemma Alike.symm (h : Alike now s s') : Alike now s' s := fun k user t ht => (h k user t ht).symm

/-- A record is appended, and the memtable flushed if it is full. -/
lemma Inv.puts_flush (h : s.Inv) (hputs : Puts s s') (now : ℕ) :
    Consistent now s (s'.flushIfFull now) := by
  obtain ⟨e, he, hlt, rfl⟩ := hputs
  obtain ⟨hinv, hspan⟩ := h.put (he h.framed) hlt now
  have hspan' : Spans (Recovers now (s.put e)) (s.put e) ((s.put e).flushIfFull now) := by
    unfold flushIfFull
    split_ifs
    · exact hinv.flush now
    · exact Spans.refl (hinv.recovers now)
  have hflushed : Alike now ((s.put e).flushIfFull now) (s.put e) :=
    (hinv.sound.flushIfFull now).2.alike.symm
  refine Spans.trans (hspan.imp ?_) (hspan'.imp ?_)
  · rintro d (hd | hd)
    · exact ⟨hd.1, .inl hd.2⟩
    · exact ⟨hd.1, .inr (hflushed.trans hd.2)⟩
  · exact fun d hd => ⟨hd.1, .inr (hflushed.trans hd.2)⟩

lemma Inv.tombstoneExpiredKeys (h : s.Inv) {ks : List Key}
    (hks : ∀ k ∈ ks, ∀ p, s.trie.find k = some p → p.isDead now = true) :
    Spans (Recovers now s) s (ks.foldl tombstoneExpiredKey s) := by
  induction ks generalizing s with
  | nil => exact Spans.refl (h.recovers now)
  | cons k ks ih =>
    obtain ⟨hfind, hget⟩ := alike_tombstoneExpiredKey (hks k mem_cons_self)
    have hstep : (s.tombstoneExpiredKey k).Inv ∧
        Spans (Recovers now s) s (s.tombstoneExpiredKey k) := by
      obtain hsame | ⟨e, he, hlt, hput⟩ := s.puts_tombstoneExpiredKey k
      · rw [hsame]
        exact ⟨h, Spans.refl (h.recovers now)⟩
      · rw [hput] at hget ⊢
        obtain ⟨hinv, hspan⟩ := h.put (he h.framed) hlt now
        exact ⟨hinv, hspan.imp fun d hd => hd.elim id fun hd => hd.of_alike hget⟩
    refine hstep.2.trans ((ih hstep.1 fun k' hk' p hp => ?_).imp fun d hd => hd.of_alike hget)
    obtain hp | ⟨-, hp⟩ := hfind k' p hp
    · exact hks k' (mem_cons_of_mem _ hk') p hp
    · exact hp

lemma Inv.sweepExpired (h : s.Inv) {now' : ℕ} (hnow : now ≤ now') :
    Consistent now' s (s.sweepExpired now now') := by
  have hspan : Spans (Recovers now s) s ((s.expiredKeys now).foldl tombstoneExpiredKey s) :=
    h.tombstoneExpiredKeys fun _ => isDead_of_mem_expiredKeys
  have hinv := kept_tombstoneExpiredKeys kept_inv.put h (s.expiredKeys now)
  have hswept : Alike now' s ((s.expiredKeys now).foldl tombstoneExpiredKey s) :=
    (alike_tombstoneExpiredKeys fun _ => isDead_of_mem_expiredKeys).mono hnow
  refine Consistent.of_alike ?_
  unfold Store.sweepExpired
  split_ifs
  · exact (h.compact now).2.imp fun d hd => hd.mono hnow
  · exact Spans.refl (h.recovers now')
  · exact Spans.trans (hspan.imp fun d hd => hd.mono hnow)
      ((hinv.compact now').2.imp fun d hd => hd.of_alike hswept)
  · exact hspan.imp fun d hd => hd.mono hnow

lemma Consistent.mono {now' : ℕ} (h : Consistent now s s') (hle : now ≤ now') :
    Consistent now' s s' :=
  Spans.imp h fun _ hd => ⟨hd.1, hd.2.imp (Alike.mono · hle) (Alike.mono · hle)⟩

/-- Every call but a clear, which is many mutations, is consistent. -/
lemma Inv.exec (h : s.Inv) (c : Call) (hop : c.op ≠ .clear) {t : ℕ} (ht : ∀ n, c.clock.read n ≤ t) :
    Consistent t s (s.exec c).1 := by
  have hstay : Consistent t s s := Consistent.of_alike (Spans.refl (h.recovers t))
  -- a call that is refused or writes a record
  have hanswer : ∀ (o : Option Store) (n : ℕ), (∀ s', o = some s' → Puts s s') →
      Consistent t s (s.answer (o.map fun s' => s'.flushIfFull (c.clock.read n))).1 := by
    intro o n ho
    cases o with
    | none => exact hstay
    | some s' => exact (h.puts_flush (ho s' rfl) _).mono (ht n)
  obtain ⟨op, clock⟩ := c
  cases op with
  | set key value =>
    exact hanswer _ 0 fun s' hs =>
      puts_setRecord key.noNul (fun _ => value.noNul) (Nat.two_pow_pos 64) hs
  | del =>
    unfold Store.exec delUser
    split_ifs
    · exact hstay
    · exact hanswer _ 1 fun s' hs => puts_delRecord hs
  | expire key =>
    exact hanswer _ 2 fun s' hs => puts_expireRecord key.noNul (clock.lt 1) hs
  | sweep => exact (h.sweepExpired (clock.mono (Nat.zero_le 1))).mono (ht 1)
  | clear => exact absurd rfl hop
  | sync =>
    unfold Store.exec syncStore
    split_ifs
    · exact (Consistent.of_alike (h.flush (clock.read 0))).mono (ht 0)
    · exact hstay

end Store

/-! ### Histories -/

/-- The stores that calls and crashes lead to. A crash comes at any point of a call, and the store
is opened again on what it left. -/
inductive Reachable (cursors : List Cursor) : Store → Prop
  | fresh : Reachable cursors (fresh cursors)
  | call {s : Store} (h : Reachable cursors s) (c : Call) (hop : c.op ≠ .clear) :
      Reachable cursors (s.exec c).1
  | crash {s : Store} (h : Reachable cursors s) (c : Call) (hop : c.op ≠ .clear)
      (ops : List FileOp) (hops : (s.exec c).1.issued = s.issued ++ ops) (d : Disk)
      (hd : CrashPoint s.disk ops d) : Reachable cursors (create d)

/-- The last reading of a call. -/
noncomputable def Clock.last (c : Clock) : ℕ := ⨆ n, c.read n

lemma Clock.le_last (c : Clock) (n : ℕ) : c.read n ≤ c.last :=
  le_ciSup (f := c.read) ⟨2 ^ 64, by rintro _ ⟨n, rfl⟩; exact (c.lt n).le⟩ n

lemma Clock.last_le {c : Clock} {t : ℕ} (h : ∀ n, c.read n ≤ t) : c.last ≤ t := ciSup_le h

lemma Reachable.inv {cursors : List Cursor} {s : Store} (h : Reachable cursors s) : s.Inv := by
  induction h with
  | fresh => exact inv_fresh cursors
  | call _ c hop ih => exact kept_inv.exec ih c
  | crash _ c hop ops hops d hd ih =>
    obtain ⟨ops', hissued, -, hpoints⟩ := ih.exec c hop c.clock.le_last
    rw [hops] at hissued
    rw [← append_cancel_left hissued] at hpoints
    exact (hpoints d hd).1

/-- A crash between any two file operations of a call, or within an append, loses nothing: a store
that is opened on the files answers every key as the store did before the call or as after it. -/
theorem crash_keeps_answers (cursors : List Cursor) (s : Store) (hs : Reachable cursors s)
    (c : Call) (hop : c.op ≠ .clear) : ∃ ops, (s.exec c).1.issued = s.issued ++ ops ∧
      (s.exec c).1.disk = ops.foldl apply s.disk ∧ ∀ d, CrashPoint s.disk ops d →
        (∀ k user t, (∀ n, c.clock.read n ≤ t) →
          (create d).getUser k user t = s.getUser k user t) ∨
        (∀ k user t, (∀ n, c.clock.read n ≤ t) →
          (create d).getUser k user t = (s.exec c).1.getUser k user t) := by
  obtain ⟨ops, hissued, hdisk, hpoints⟩ := hs.inv.exec c hop c.clock.le_last
  refine ⟨ops, hissued, hdisk, fun d hd => (hpoints d hd).2.imp ?_ ?_⟩
  all_goals exact fun halike k user t ht => halike k user t (Clock.last_le ht)

namespace Sample

def firstSet : Call :=
  ⟨.set ⟨[97], notMem_a⟩ ⟨[98], notMem_b⟩ 0 0, still 5 five_pos five_lt⟩

def stored : Store := ((fresh []).exec firstSet).1

def flush : Call := ⟨.sync, still 5 five_pos five_lt⟩

/-- A crash while a key that was set is flushed: the log may still have it when the file does. -/
theorem crash_keeps_answers_flush : ∃ records,
    (stored.exec flush).1.issued = stored.issued ++ [.rename 0 records, .emptyWal] ∧
      ∀ d, CrashPoint stored.disk [.rename 0 records, .emptyWal] d →
        (∀ k user, (create d).getUser k user 5 = stored.getUser k user 5) ∨
        (∀ k user, (create d).getUser k user 5 = (stored.exec flush).1.getUser k user 5) := by
  obtain ⟨ops, hissued, -, hpoints⟩ := crash_keeps_answers [] stored (.call .fresh firstSet nofun)
    flush nofun
  have hflush : (stored.exec flush).1.issued = stored.issued ++ [.rename 0 _, .emptyWal] := rfl
  obtain rfl := append_cancel_left (hflush.symm.trans hissued)
  refine ⟨_, hflush, fun d hd => (hpoints d hd).imp ?_ ?_⟩
  all_goals exact fun h k user => h k user 5 fun _ => le_rfl

end Sample

/-! ### Appends that fail -/

/-- A set or, without a value, a deletion, with the readings of the clock for its lookup and its
flush. If `wal_append` fails, `failed` has the number of bytes that it has written by then. -/
structure Attempt where
  key : CString
  value : Option CString
  classification : UInt16
  sciCompartment : UInt16
  user : Access
  now : ℕ
  now' : ℕ
  failed : Option ℕ

namespace Store

variable {s s' : Store} {a : Attempt} {t : ℕ}

/-- The record of a call goes to the log and to the memtable. -/
def record (s : Store) (a : Attempt) : Option Store :=
  match a.value with
  | some v => s.setRecord a.key.bytes v.bytes 0 a.classification a.sciCompartment a.user
  | none => if s.replicaReadOnly then none else s.delRecord a.key.bytes a.user a.now

/-- Of the way to `s'` only the sequence and `n` bytes of the frame remain. -/
def walFails (s s' : Store) (n : ℕ) : Store :=
  { s with changeSeq := s'.changeSeq }.issue
    (.append ((s'.disk.wal.drop s.disk.wal.length).take n))

/-- The store after a call, and what the calls that returned true have left in each key. -/
def attempt (x : Store × (Key → Option Value)) (a : Attempt) : Store × (Key → Option Value) :=
  match x.1.record a, a.failed with
  | none, _ => x
  | some s', some n => (x.1.walFails s' n, x.2)
  | some s', none =>
    (s'.flushIfFull a.now', Function.update x.2 a.key.bytes (a.value.map CString.bytes))

/-- Calls on a fresh store, of which none has returned true yet. -/
def attempts (cursors : List Cursor) (as : List Attempt) : Store × (Key → Option Value) :=
  as.foldl attempt (fresh cursors, fun _ => none)

lemma record_eq_some (h : s.Sound) (hs : s.record a = some s') : Puts s s' ∧
    ∀ k t, s'.getUser k cleared t =
      if k = a.key.bytes then a.value.map CString.bytes else s.getUser k cleared t := by
  unfold record at hs
  split at hs
  · next v hv =>
    refine ⟨puts_setRecord a.key.noNul (fun _ => v.noNul) (Nat.two_pow_pos 64) hs, fun k t => ?_⟩
    obtain ⟨seq, -, hne, -, -, rfl⟩ := setRecord_eq_some hs
    refine (getUser_put hne k cleared t).trans ?_
    simp [readable, Payload.isDead, Payload.expired, cleared, hv]
  · next hv =>
    split_ifs at hs
    refine ⟨puts_delRecord hs, fun k t => ?_⟩
    obtain ⟨p, seq, hp, -, -, rfl⟩ := delRecord_eq_some hs
    refine (getUser_put (h.key_ne_nil hp) k cleared t).trans ?_
    simp [readable, Payload.isDead, tombstone, hv]

/-- A failure that leaves nothing in the log. -/
lemma Inv.walFails (h : s.Inv) (hputs : Puts s s') : (s.walFails s' 0).Inv := by
  obtain ⟨e, -, hlt, rfl⟩ := hputs
  obtain ⟨es, hlog⟩ := h.logged
  refine ⟨{ h.sound with }, ⟨es, hlog.toJournaled, ?_, hlog.trie, ?_⟩, h.framed⟩
  · simp [walFails, issue, apply, hlog.wal]
  · exact fun x hx => (hlog.bound x hx).trans hlt.le

lemma Inv.attempt {m : Key → Option Value} (h : s.Inv) (hm : ∀ k, s.getUser k cleared t = m k)
    (ha : ∀ n ∈ a.failed, n = 0) (ht : a.now' ≤ t) : (attempt (s, m) a).1.Inv ∧
      ∀ k, (attempt (s, m) a).1.getUser k cleared t = (attempt (s, m) a).2 k := by
  unfold Store.attempt
  split
  · exact ⟨h, hm⟩
  · next s' n hs hn =>
    obtain rfl := ha n hn
    exact ⟨h.walFails (record_eq_some h.sound hs).1, hm⟩
  · next s' hs _ =>
    obtain ⟨hputs, hget⟩ := record_eq_some h.sound hs
    have hinv := kept_inv.put h hputs
    refine ⟨kept_inv.flushIfFull hinv a.now', fun k => ?_⟩
    refine ((hinv.sound.flushIfFull a.now').2.alike k cleared t ht).trans ((hget k t).trans ?_)
    simp [Function.update_apply, hm]

/-- If no failed append has left a part of its frame, then a store that is opened again reflects all
sets and deletions that returned true. -/
theorem acknowledged_reopened (cursors : List Cursor) (as : List Attempt)
    (h : ∀ a ∈ as, ∀ n ∈ a.failed, n = 0) (k : Key) (t : ℕ) (ht : ∀ a ∈ as, a.now' ≤ t) :
    (create (attempts cursors as).1.disk).getUser k cleared t = (attempts cursors as).2 k := by
  have hfresh : ∀ k, (fresh cursors).getUser k cleared t = none := by
    intro k
    rw [getUser_eq, newest_fresh]
    rfl
  have hrun : (attempts cursors as).1.Inv ∧
      ∀ k, (attempts cursors as).1.getUser k cleared t = (attempts cursors as).2 k :=
    List.foldlRecOn (motive := fun x => x.1.Inv ∧ ∀ k, x.1.getUser k cleared t = x.2 k) as attempt
      ⟨inv_fresh cursors, hfresh⟩ fun x hx a ha => hx.1.attempt hx.2 (h a ha) (ht a ha)
  exact ((hrun.1.recovers t).2 k cleared t le_rfl).trans (hrun.2 k)

end Store

namespace Sample

/-- A set whose append fails after `n` bytes, and one that returns true. -/
def failThenSet (n : ℕ) : List Attempt :=
  [⟨⟨[97], notMem_a⟩, some ⟨[98], notMem_b⟩, 0, 0, cleared, 5, 5, some n⟩,
    ⟨⟨[99], by decide⟩, some ⟨[100], by decide⟩, 0, 0, cleared, 5, 5, none⟩]

theorem acknowledged_reopened_failed :
    (create (attempts [] (failThenSet 0)).1.disk).getUser [99] cleared 5 = some [100] :=
  (acknowledged_reopened [] (failThenSet 0) (by simp [failThenSet]) [99] 5
    (by simp [failThenSet])).trans (by decide +kernel)

/-- One byte of the failed append hides the set that returned true. -/
theorem failed_append_hides_set :
    (attempts [] (failThenSet 1)).2 [99] = some [100] ∧
      (create (attempts [] (failThenSet 1)).1.disk).getUser [99] cleared 5 = none := by
  decide +kernel

end Sample

end Qihse.Kv
