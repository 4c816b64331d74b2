import Qihse.Kv.Newest

/-!
# Opening a data directory

`Store.Logged` says which records the log holds: those of the memtable, in the order of their
sequences. `create` on a directory with such a log, whatever torn frame follows, finds the last
record of a key in the log, or else the last one in the files.
-/

namespace Qihse.Kv

open List Entry

/-- The frames of the records. -/
def frames (es : List Entry) : List UInt8 := es.flatMap (frame .localSeq)

/-- The records have frames and their sequences ascend. -/
structure Journaled (es : List Entry) : Prop where
  framed : ∀ e ∈ es, e.Framed
  ascending : es.Pairwise fun a b => a.payload.changeSeq < b.payload.changeSeq

/-- The records have frames, and those of one key are in the order of their sequences. -/
structure Replayable (es : List Entry) : Prop where
  framed : ∀ e ∈ es, e.Framed
  ascending : es.Pairwise fun a b => a.key = b.key → a.payload.changeSeq < b.payload.changeSeq

variable {es : List Entry}

lemma Journaled.replayable (h : Journaled es) : Replayable es where
  framed := h.framed
  ascending := h.ascending.imp (by intro a b hlt _; exact hlt)

/-- Bytes that begin no whole frame. -/
def Torn (bytes : List UInt8) : Prop := readFrame.run bytes = none

lemma torn_nil : Torn [] := rfl

variable {n : ℕ}

lemma Entry.Framed.torn {e : Entry} (h : e.Framed) {kind : FrameKind}
    (hn : n < (e.frame kind).length) : Torn ((e.frame kind).take n) :=
  stable_readFrame.torn (e.reads_frame h kind) hn

/-! ### The memtable of a log -/

/-- The memtable with the records of a log. -/
def trieOf (es : List Entry) : Tst.Trie UInt8 Payload :=
  es.foldl (fun t e => t.insert e.key e.payload) Tst.Trie.empty

lemma find_foldl_insert (h : ∀ e ∈ es, e.key ≠ []) (t : Tst.Trie UInt8 Payload) (k : Key) :
    (es.foldl (fun t e => t.insert e.key e.payload) t).find k = (lastOf es k).or (t.find k) := by
  induction es generalizing t with
  | nil => rfl
  | cons e es ih =>
    rw [foldl_cons, ih fun e' he' => h e' (mem_cons_of_mem _ he'),
      Tst.Trie.find_insert (h e mem_cons_self), lastOf, Option.or_assoc]
    congr 1
    by_cases hk : k = e.key
    · simp [hk]
    · simp [hk, Ne.symm hk]

lemma Replayable.find_trieOf (h : Replayable es) (k : Key) : (trieOf es).find k = lastOf es k := by
  unfold trieOf
  rw [find_foldl_insert fun e he => (h.framed e he).key.1, Tst.Trie.find_empty, Option.or_none]

lemma Journaled.find_trieOf (h : Journaled es) (k : Key) : (trieOf es).find k = lastOf es k :=
  h.replayable.find_trieOf k

/-! ### The last record in the files -/

/-- Every record of the files has a key. -/
def Files.Keyed (f : Files) : Prop :=
  ∀ id records, f.lookup id = some records → ∀ e ∈ records, e.key ≠ []

/-- The last record of a key in the files. -/
def Files.latest (f : Files) (k : Key) : Option Payload :=
  f.newestBelow (f.keys.foldl (fun n id => max n (id + 1)) 0) k

lemma Files.newestBelow_eq_of_le {f : Files} {m : ℕ} {k : Key} (hm : ∀ id ∈ f, id < m)
    (hmn : m ≤ n) : f.newestBelow n k = f.newestBelow m k := by
  induction n, hmn using Nat.le_induction with
  | base => rfl
  | succ n hn ih =>
    have : f.lookup n = none := AList.lookup_eq_none.mpr fun hmem => not_lt.mpr hn (hm n hmem)
    rw [newestBelow, this, ih]
    rfl

lemma Files.newestBelow_eq_latest {f : Files} {k : Key} (hn : ∀ id ∈ f, id < n) :
    f.newestBelow n k = f.latest k := by
  have hm : ∀ id ∈ f, id < f.keys.foldl (fun n id => max n (id + 1)) 0 :=
    fun id hid => (le_foldl_max (· + 1) 0 f.keys).2 id (AList.mem_keys.mp hid)
  obtain h | h := le_total n (f.keys.foldl (fun n id => max n (id + 1)) 0)
  · exact (newestBelow_eq_of_le hn h).symm
  · exact newestBelow_eq_of_le hm h

namespace Store

variable {s : Store} {d : Disk} {es : List Entry} {e : Entry} {k : Key}

/-- The log holds the records of the memtable. -/
structure Logged (s : Store) (es : List Entry) : Prop extends Journaled es where
  wal : s.disk.wal = frames es
  trie : s.trie = trieOf es
  bound : ∀ e ∈ es, e.payload.changeSeq ≤ s.changeSeq

/-! ### Replay -/

/-- A record that is replayed. -/
def replayed (s : Store) (e : Entry) : Store :=
  { s.insertInternal e with changeSeq := max s.changeSeq e.payload.changeSeq }

lemma walReplayRecord_eq (h : ∀ p, s.trie.find e.key = some p →
    p.changeSeq < e.payload.changeSeq) : s.walReplayRecord e = some (s.replayed e) := by
  unfold walReplayRecord
  cases hf : s.trie.find e.key with
  | none => rfl
  | some p =>
    dsimp only
    rw [if_neg (not_le.mpr (h p hf))]
    rfl

variable {tail : List UInt8}

/-- The replay takes the frames one by one and stops at what is torn. -/
lemma walReplay_frames (kind : FrameKind) (hes : Replayable es) (htail : Torn tail) {n : ℕ}
    (hn : es.length ≤ n) (good : ℕ)
    (hold : ∀ e ∈ es, ∀ p, s.trie.find e.key = some p → p.changeSeq < e.payload.changeSeq) :
    walReplay n s (es.flatMap (frame kind) ++ tail) good =
      (es.foldl replayed s, good + (es.flatMap (frame kind)).length) := by
  induction es generalizing s n good with
  | nil =>
    cases n with
    | zero => rfl
    | succ =>
      have : readFrame.run ([].flatMap (frame kind) ++ tail) = none := htail
      rw [walReplay, this]
      rfl
  | cons e es ih =>
    obtain ⟨n, rfl⟩ := Nat.exists_eq_add_one.mpr (lt_of_lt_of_le (Nat.zero_lt_succ _) hn)
    have hrun : readFrame.run ((e :: es).flatMap (frame kind) ++ tail) =
        some (e, es.flatMap (frame kind) ++ tail) := by
      have := e.reads_frame (hes.framed e mem_cons_self) kind
        (es.flatMap (frame kind) ++ tail)
      rw [← append_assoc] at this
      exact this
    rw [walReplay, hrun]
    dsimp only
    rw [walReplayRecord_eq fun p hp => hold e mem_cons_self p hp]
    dsimp only
    have hgood : good + (((e :: es).flatMap (frame kind) ++ tail).length -
        (es.flatMap (frame kind) ++ tail).length) + (es.flatMap (frame kind)).length =
          good + ((e :: es).flatMap (frame kind)).length := by
      simp only [flatMap_cons, length_append]
      omega
    have hkey := (hes.framed e mem_cons_self).key.1
    have hasc := pairwise_cons.mp hes.ascending
    rw [ih ⟨fun x hx => hes.framed x (mem_cons_of_mem _ hx), hasc.2⟩
      (Nat.le_of_succ_le_succ hn)]
    · rw [foldl_cons, hgood]
    · intro x hx p hp
      have hfind := (Tst.Trie.find_insert (t := s.trie) (v := e.payload) hkey).symm.trans hp
      split_ifs at hfind with hxe
      · cases hfind
        exact hasc.1 x hx hxe.symm
      · exact hold x (mem_cons_of_mem _ hx) p hfind

lemma foldl_replayed (s : Store) (es : List Entry) :
    (es.foldl replayed s).trie = es.foldl (fun t e => t.insert e.key e.payload) s.trie ∧
      (es.foldl replayed s).sstMeta = s.sstMeta ∧ (es.foldl replayed s).disk = s.disk ∧
      (es.foldl replayed s).sstableCounter = s.sstableCounter ∧
      s.changeSeq ≤ (es.foldl replayed s).changeSeq ∧
      ∀ e ∈ es, e.payload.changeSeq ≤ (es.foldl replayed s).changeSeq := by
  induction es generalizing s with
  | nil => exact ⟨rfl, rfl, rfl, rfl, le_rfl, by simp⟩
  | cons e es ih =>
    obtain ⟨htrie, hmeta, hdisk, hcounter, hle, hall⟩ := ih (s.replayed e)
    refine ⟨htrie, hmeta, hdisk, hcounter, (le_max_left _ _).trans hle, ?_⟩
    exact forall_mem_cons.mpr ⟨(le_max_right _ _).trans hle, hall⟩

/-! ### The index of a directory -/

/-- The index after the files below a number. -/
lemma loadFiles (s : Store) (hs : s.sstMeta = ∅) (n : ℕ) :
    ((List.range n).foldl sstIndexLoadFile s).trie = s.trie ∧
      ((List.range n).foldl sstIndexLoadFile s).disk = s.disk ∧
      ((List.range n).foldl sstIndexLoadFile s).sstableCounter = s.sstableCounter ∧
      ((List.range n).foldl sstIndexLoadFile s).sstMeta.Pins s.disk.files ∧
      ∀ k, ((List.range n).foldl sstIndexLoadFile s).sstMeta.pinned s.disk.files k =
        s.disk.files.newestBelow n k := by
  induction n with
  | zero =>
    rw [range_zero, foldl_nil, hs]
    exact ⟨rfl, rfl, rfl, Index.pins_empty _, fun _ => rfl⟩
  | succ n ih =>
    rw [range_succ, foldl_append, foldl_cons, foldl_nil]
    generalize (List.range n).foldl sstIndexLoadFile s = s' at ih ⊢
    obtain ⟨htrie, hdisk, hcounter, hpins, hpinned⟩ := ih
    unfold sstIndexLoadFile
    rw [hdisk]
    cases hf : s.disk.files.lookup n with
    | none =>
      refine ⟨htrie, hdisk, hcounter, hpins, fun k => ?_⟩
      rw [Files.newestBelow, hf]
      exact hpinned k
    | some =>
      refine ⟨htrie, rfl, hcounter, hpins.addFile [] hf, fun k => ?_⟩
      rw [Files.newestBelow, hf, ← hpinned k]
      exact Index.pinned_addFile _ k [] hf

/-! ### Opening -/

/-- A store that is opened has the records of the log and those of the files. -/
lemma create_replays (kind : FrameKind) (hfiles : d.files.Keyed) (hes : Replayable es)
    (htail : Torn tail) (hwal : d.wal = es.flatMap (frame kind) ++ tail) :
    (create d).Sound ∧ (create d).disk.wal = es.flatMap (frame kind) ∧
      (create d).trie = trieOf es ∧ (∀ e ∈ es, e.payload.changeSeq ≤ (create d).changeSeq) ∧
      ∀ k, (create d).newest k = (lastOf es k).or (d.files.latest k) := by
  obtain ⟨htrie, hdisk, hcounter, hpins, hpinned⟩ := loadFiles (scanned d) rfl
    (scanned d).sstableCounter
  change (scanned d).loadIndex.trie = Tst.Trie.empty at htrie
  change (scanned d).loadIndex.disk = d at hdisk
  have hlen : es.length ≤ d.wal.length := by
    rw [hwal, length_append]
    refine le_trans ?_ (Nat.le_add_right _ _)
    clear hwal hes
    induction es with
    | nil => exact le_rfl
    | cons e =>
      rw [flatMap_cons, length_append, length_cons]
      have : 0 < (e.frame kind).length := by cases kind <;> simp [frame, FrameKind.magic]
      omega
  have hreplay : walReplay d.wal.length (scanned d).loadIndex d.wal 0 =
      (es.foldl replayed (scanned d).loadIndex, (es.flatMap (frame kind)).length) := by
    have := walReplay_frames (s := (scanned d).loadIndex) kind hes htail hlen 0 (fun e _ p hp => by
      rw [htrie, Tst.Trie.find_empty] at hp
      cases hp)
    rw [zero_add, ← hwal] at this
    exact this
  obtain ⟨htrie', hmeta', hdisk', hcounter', -, hbound⟩ :=
    foldl_replayed (scanned d).loadIndex es
  have hcreate : create d =
      { es.foldl replayed (scanned d).loadIndex with
        disk := { d with wal := es.flatMap (frame kind) } } := by
    unfold create recoverFromWal
    rw [hdisk, hreplay]
    dsimp only
    rw [hdisk', hdisk, hwal, take_left]
  have htrieOf : (create d).trie = trieOf es := by
    rw [hcreate]
    rw [htrie', htrie]
    rfl
  have hpinned' : ∀ k, (create d).pinned k = d.files.newestBelow (scanned d).sstableCounter k := by
    intro k
    rw [hcreate]
    dsimp only
    rw [hmeta']
    exact hpinned k
  have hcount : (create d).sstableCounter = (scanned d).sstableCounter := by
    rw [hcreate]
    exact hcounter'.trans hcounter
  have hfiles' : (create d).disk.files = d.files := by rw [hcreate]
  refine ⟨⟨?_, ?_, ?_, ?_⟩, ?_, htrieOf, ?_, ?_⟩
  · rw [hcreate]
    rw [hmeta']
    exact hpins
  · intro id hid
    rw [hfiles'] at hid
    rw [hcount]
    exact (le_foldl_max (· + 1) _ _).2 id (AList.mem_keys.mp hid)
  · rw [hfiles']
    exact hfiles
  · intro k
    rw [hfiles', hcount]
    exact hpinned' k
  · rw [hcreate]
  · rw [hcreate]
    exact hbound
  · intro k
    unfold newest
    rw [htrieOf, hes.find_trieOf, hpinned' k]
    rfl

/-- A store that is opened on its own log. -/
lemma create_spec (hfiles : d.files.Keyed) (hes : Journaled es) (htail : Torn tail)
    (hwal : d.wal = frames es ++ tail) : (create d).Sound ∧ (create d).Logged es ∧
      ∀ k, (create d).newest k = (lastOf es k).or (d.files.latest k) := by
  obtain ⟨hsound, hwal', htrie, hbound, hnewest⟩ :=
    create_replays .localSeq hfiles hes.replayable htail hwal
  exact ⟨hsound, ⟨hes, hwal', htrie, hbound⟩, hnewest⟩

/-- What a running store answers from is what it finds when it is opened again. -/
lemma Sound.newest_eq (h : s.Sound) (hlog : s.Logged es) (k : Key) :
    s.newest k = (lastOf es k).or (s.disk.files.latest k) := by
  unfold newest
  rw [hlog.trie, hlog.find_trieOf, h.latest k, Files.newestBelow_eq_latest h.below]

end Store

end Qihse.Kv
