import Qihse.Consensus.Trace.Rules

/-!
# Operations are sequences of actions: snapshot transactions
-/

namespace Qihse.Consensus

open Crash Crash.Prog List Node

variable {F G : Prop} {n0 : Node} {inp : Input} {c0 c c' : Conf} {p0 p p' : Proc}

/-! ### The lines of a transaction -/

variable {version2 : Bool} {s : Snapshot} {d d' : List Line} {rs : List Record} {r : Record}

/-- The file `d'` is `d` with a snapshot transaction that was cut short; `G` says whether a cut line
or a line that was reported as failed may be among its lines. -/
def SnapshotCut (G : Prop) (version2 : Bool) (s : Snapshot) (d d' : List Line) : Prop :=
  ∃ rs torn, (PartialSnapshot version2 s rs ∨ G ∧ snapshotRecords version2 s = some rs) ∧
    (torn = [] ∨ G ∧ torn = [.torn]) ∧ d' = d ++ rs.map .record ++ torn

lemma PartialSnapshot.cut (h : PartialSnapshot version2 s rs) :
    SnapshotCut G version2 s d (d ++ rs.map .record) :=
  ⟨rs, [], .inl h, .inl rfl, by simp⟩

/-- An append inside a transaction that did not succeed cuts it short. -/
lemma PartialSnapshot.landed {l : Landing} (h : PartialSnapshot version2 s rs)
    (hnext : PartialSnapshot version2 s (rs ++ [r]) ∨ snapshotRecords version2 s = some (rs ++ [r]))
    (hl : l = .nothing ∨ G) (hd : d' = d ++ rs.map .record) :
    SnapshotCut G version2 s d (Consensus.landed d' r l) := by
  subst hd
  rcases landed_cases (d ++ rs.map .record) r l with heq | ⟨hne, heq | heq⟩ <;> rw [heq]
  · exact h.cut
  · exact ⟨rs, [.torn], .inl h, .inr ⟨hl.resolve_left hne, rfl⟩, rfl⟩
  · have hG := hl.resolve_left hne
    have hmap : d ++ rs.map .record ++ [Line.record r] = d ++ (rs ++ [r]).map .record := by simp
    rw [hmap]
    rcases hnext with hnext | hnext
    · exact hnext.cut
    · exact ⟨rs ++ [r], [], .inr ⟨hG, hnext⟩, .inl rfl, by simp⟩

/-- A transaction that started from `p0` is being written. -/
structure Writing (F : Prop) (p0 p : Proc) : Prop where
  node : p.node = p0.node
  out : p.out = p0.out
  io : IoOk F p
  fits : Fits p0.disk p.disk
  writable : p.disk = p0.disk ∨ p0.node.recQuarantined = false

/-- A transaction that started from `p0` ended in a crash. -/
structure Wrecked (version2 : Bool) (s : Snapshot) (p0 p : Proc) : Prop where
  out : p.out = p0.out
  fits : Fits p0.disk p.disk
  writable : p0.node.recQuarantined = false
  cut : SnapshotCut True version2 s p0.disk p.disk

lemma Writing.recordAppend {Q : Bool → Proc → Prop} (h : Writing F p0 p)
    (hpart : PartialSnapshot version2 s rs) (hd : p.disk = p0.disk ++ rs.map .record)
    (hnext : PartialSnapshot version2 s (rs ++ [r]) ∨ snapshotRecords version2 s = some (rs ++ [r]))
    (hok : ∀ p', Writing F p0 p' → p'.disk = p0.disk ++ (rs ++ [r]).map .record → Q true p')
    (hfail : ∀ p', Writing F p0 p' → SnapshotCut F version2 s p0.disk p'.disk → Q false p') :
    Sat (Consensus.recordAppend r) p Q (Wrecked version2 s p0) := by
  refine sat_recordAppend h.io ?_ ?_ ?_
  · intro p' hn hd' ho hio hfit hq
    refine hok p' ⟨hn.trans h.node, ho.trans h.out, hio, fun _ => hfit, .inr (h.node ▸ hq)⟩ ?_
    rw [hd', hd]
    simp
  · intro p' l hn hd' ho hio hl
    refine hfail p' ⟨hn.trans h.node, ho.trans h.out, hio, fun h0 => ?_, ?_⟩ ?_
    · exact hd' ▸ fits_landed _ _ l (h.fits h0)
    · rcases hl with rfl | ⟨-, hq⟩
      · exact hd' ▸ h.writable
      · exact .inr (h.node ▸ hq)
    · exact hd' ▸ hpart.landed hnext (hl.imp_right And.left) hd
  · intro p' l hd' ho hq
    refine ⟨ho.trans h.out, fun h0 => ?_, h.node ▸ hq, ?_⟩
    · exact hd' ▸ fits_landed _ _ l (h.fits h0)
    · exact hd' ▸ hpart.landed hnext (.inr trivial) hd

/-- The entry lines. -/
lemma Writing.persistSnapshotEntries {Q : Bool → Proc → Prop} {k : ℕ} {done : List Record}
    {rest : List Entry} (h : Writing F p0 p) (hrest : s.entries.drop k = rest)
    (hdone : (s.entries.take k).mapM Entry.persistSnapshotEntry = some done)
    (hd : p.disk = p0.disk ++ (s.beginRecord version2 :: done).map .record)
    (hok : ∀ p' es, Writing F p0 p' → s.entries.mapM Entry.persistSnapshotEntry = some es →
      p'.disk = p0.disk ++ (s.beginRecord version2 :: es).map .record → Q true p')
    (hfail : ∀ p', Writing F p0 p' → SnapshotCut F version2 s p0.disk p'.disk → Q false p') :
    Sat (Consensus.persistSnapshotEntries rest) p Q (Wrecked version2 s p0) := by
  have hpart : PartialSnapshot version2 s (s.beginRecord version2 :: done) :=
    .inr ⟨k, done, hdone, rfl⟩
  induction rest generalizing k p done with
  | nil =>
    have hlen : s.entries.length ≤ k := drop_eq_nil_iff.mp hrest
    rw [take_of_length_le hlen] at hdone
    exact hok p done h hdone hd
  | cons e rest ih =>
    have hk := getElem?_of_drop hrest
    simp only [persistSnapshotEntries, sat_bind, sat_ite, sat_pure]
    cases hr : e.persistSnapshotEntry with
    | none =>
      refine on_false (hfail p h (hd ▸ hpart.cut))
    | some r =>
      have hdone' : (s.entries.take (k + 1)).mapM Entry.persistSnapshotEntry =
          some (done ++ [r]) := by
        rw [take_add_one, hk]
        simp [mapM_append, hdone, hr]
      have hpart' : PartialSnapshot version2 s (s.beginRecord version2 :: (done ++ [r])) :=
        .inr ⟨k + 1, _, hdone', rfl⟩
      refine h.recordAppend hpart hd (.inl hpart') (fun p' h' hd' => ?_) fun p' h' hcut => ?_
      · exact on_true (ih h' (drop_succ_of_drop hrest) hdone' hd' hpart')
      · exact on_false (hfail p' h' hcut)

/-- All lines of a transaction. -/
lemma Writing.persistSnapshotLines {Q : Bool → Proc → Prop} (hio : IoOk F p0)
    (hok : ∀ p' rs, Writing F p0 p' → snapshotRecords version2 s = some rs →
      p'.disk = p0.disk ++ rs.map .record → Q true p')
    (hfail : ∀ p', Writing F p0 p' → SnapshotCut F version2 s p0.disk p'.disk → Q false p') :
    Sat (Consensus.persistSnapshotLines version2 s) p0 Q (Wrecked version2 s p0) := by
  simp only [Consensus.persistSnapshotLines, sat_bind, sat_ite, sat_pure]
  refine recordAppend ⟨rfl, rfl, hio, id, .inl rfl⟩
    (show PartialSnapshot version2 s [] from .inl rfl) (by simp)
    (.inl (.inr ⟨0, [], rfl, rfl⟩)) (fun p1 h1 hd1 => on_true ?_)
    fun p1 h1 hcut => on_false (hfail p1 h1 hcut)
  refine h1.persistSnapshotEntries (k := 0) rfl
    (show (s.entries.take 0).mapM Entry.persistSnapshotEntry = some [] from rfl) hd1
    (fun p2 es h2 hes hd2 => on_true ?_)
    fun p2 h2 hcut => on_false (hfail p2 h2 hcut)
  have hpart : PartialSnapshot version2 s (s.beginRecord version2 :: es) :=
    .inr ⟨s.entries.length, es, by rwa [take_length], rfl⟩
  have hall : snapshotRecords version2 s = some (s.beginRecord version2 :: es ++
      [.truncate (s.lastIncludedIndex + 1)]) := by
    simp [snapshotRecords, hes]
  exact h2.recordAppend hpart hd2 (.inr hall) (fun p3 h3 hd3 => hok p3 _ h3 hall hd3) hfail

/-! ### Transactions as actions -/

/-- A whole snapshot transaction: it makes the action `hact` durable or quarantines the file. -/
lemma Good.persistSnapshot {Q : Bool → Proc → Prop} {n' : Node} (hp : Good F n0 inp c0 p)
    (hs : p.node.compaction = some s ∧ version2 = decide (snapshotMaxEntries < s.entries.length) ∨
      version2 = false ∧ ∃ m b, inp = .msg m ∧ InstallOk p.node m b ∧ s = b.toSnapshot)
    (hact : ∀ rs, snapshotRecords version2 s = some rs →
      Act F n0 inp p.conf ⟨n', p.disk ++ rs.map .record, p.out⟩)
    (hok : ∀ p', p'.node = p.node → Good F n0 inp c0 { p' with node := n' } → Q true p')
    (hfail : ∀ p', p'.node = p.node.quarantine → Good F n0 inp c0 p' → Q false p') :
    Sat (Consensus.persistSnapshot version2 s) p Q (Dead F n0 inp c0) := by
  simp only [Consensus.persistSnapshot, sat_bind, sat_ite, sat_pure, sat_modifyNode]
  refine Sat.mono (Writing.persistSnapshotLines hp.io ?_ ?_) (fun _ _ => id) ?_
  · intro p' rs h hrs hd
    refine on_true (hok p' h.node ⟨?_, h.io⟩)
    refine hp.acts.tail ⟨?_, h.fits, h.writable.imp_right .inl⟩
    simp only [Proc.conf, hd, h.out]
    exact hact rs hrs
  · rintro p' h ⟨rs, torn, hrs, ht, hd⟩
    refine on_false (hfail _ (by simp only [h.node]) ⟨?_, h.io⟩)
    refine hp.acts.tail ⟨?_, h.fits, h.writable.imp_right .inl⟩
    simp only [Proc.conf, hd, h.out, h.node]
    exact .quarantine p.conf version2 s rs torn hs hrs ht
  · rintro p' ⟨ho, hfit, hq, rs, torn, hrs, ht, hd⟩
    have hsize : fileSize (p.disk ++ rs.map .record) = fileSize p'.disk := by
      rcases ht with rfl | ⟨-, rfl⟩ <;> rw [hd]
      · simp
      · rw [fileSize_torn]
    obtain ⟨n', hacts⟩ : ∃ n', Acts F n0 inp c0 ⟨n', p.disk ++ rs.map .record, p.out⟩ := by
      rcases hrs with hrs | ⟨-, hrs⟩
      · refine ⟨p.node.quarantine, hp.acts.tail ⟨?_, fun h => hsize ▸ hfit h, .inr (.inl hq)⟩⟩
        have : Act F n0 inp p.conf _ := .quarantine p.conf version2 s rs [] hs (.inl hrs) (.inl rfl)
        rwa [append_nil] at this
      · exact ⟨n', hp.acts.tail ⟨hact rs hrs, fun h => hsize ▸ hfit h, .inr (.inl hq)⟩⟩
    refine ⟨_, hacts, ho.symm, ?_⟩
    rcases ht with rfl | ⟨-, rfl⟩
    · exact .inl (by simpa using hd)
    · exact .inr hd

lemma Good.tryCompact (hp : Good F n0 inp c0 p) :
    Sat Consensus.tryCompact p (fun _ p' => Good F n0 inp c0 p' ∧ p'.node.role = p.node.role)
      (Dead F n0 inp c0) := by
  simp only [Consensus.tryCompact, sat_read]
  cases hs : p.node.compaction with
  | none => exact ⟨hp, rfl⟩
  | some s =>
    simp only [sat_bind, sat_ite, sat_pure, sat_modifyNode]
    refine hp.persistSnapshot (.inl ⟨hs, rfl⟩) (fun rs hrs => .compact p.conf s rs hs hrs) ?_ ?_
    · intro p' hn hgood
      rw [Proc.conf_node, ← hn] at hgood
      exact on_true ⟨hgood, by rw [hn]; rfl⟩
    · exact fun p' hn hgood => on_false ⟨hgood, by rw [hn]; rfl⟩

/-! ### Installed snapshots -/

/-- What the scan of `qcs_handle_snapshot` establishes. -/
structure Scanned (term : ℕ) (es : List Entry) (i t g : ℕ) (r : ℕ × ℕ) : Prop where
  numbered : ∀ k e, es[k]? = some e → e.index = i + k + 1
  small : ∀ e ∈ es, e.payload.length ≤ payloadMax
  bounded : ∀ e ∈ es, e.term ≤ term
  rising : es.Pairwise Entry.Before
  first : 0 < i → ∀ e ∈ es, t ≤ e.term ∧ g < e.journalGeneration
  last : ∀ e, es.getLast? = some e → r = (e.term, e.journalGeneration)

lemma scanned_of_scanSnapshot {term : ℕ} {es : List Entry} {i t g : ℕ} {r : ℕ × ℕ}
    (h : scanSnapshot term es i t g = some r) : Scanned term es i t g r := by
  induction es generalizing i t g with
  | nil => exact ⟨by simp, by simp, by simp, .nil, by simp, by simp⟩
  | cons x es ih =>
    unfold scanSnapshot at h
    split_ifs at h with hindex hbad
    simp only [not_or, not_and, not_lt, not_le] at hbad
    obtain ⟨hterm, hrise, hsmall, -, hgen⟩ := hbad
    have hs := ih h
    have hfirst := hs.first (Nat.succ_pos i)
    refine ⟨fun k e hk => ?_, ?_, ?_, pairwise_cons.mpr ⟨hfirst, hs.rising⟩, fun hi => ?_,
      fun e he => ?_⟩
    · cases k with
      | zero =>
        cases hk
        exact not_not.mp hindex
      | succ k =>
        have hk := hs.numbered k e hk
        omega
    · exact forall_mem_cons.mpr ⟨hsmall, hs.small⟩
    · exact forall_mem_cons.mpr ⟨hterm, hs.bounded⟩
    · refine forall_mem_cons.mpr ⟨⟨hrise, hgen hi⟩, fun e he => ?_⟩
      exact ⟨le_trans hrise (hfirst e he).1, lt_trans (hgen hi) (hfirst e he).2⟩
    · cases es with
      | nil =>
        cases he
        cases h
        rfl
      | cons => exact hs.last e he

variable {m : Msg} {b : SnapshotBody}

/-- The log starts with the entries of a snapshot. -/
def Node.Starts (n : Node) (es : List Entry) : Prop :=
  ∀ j e, es[j]? = some e → e.index = j + 1 ∧ ∃ l, n.entryAt (j + 1) = some l ∧ l.identical e

section

variable (hp : Good F n0 inp c0 p) (hm : Addressed inp p.node m) (hbody : m.body = .snapshot b)
include hp hm hbody

lemma Good.replyInstalled (hlen : b.entries.length = b.lastIncludedIndex)
    (hstarts : p.node.Starts b.entries) :
    Traced F n0 inp c0 (replySnapshot m.sender true b.lastIncludedIndex) p := by
  refine hp.send ⟨rfl, rfl, rfl, rfl, fun _ => ?_⟩ fun _ _ h => h
  exact ⟨m, b, hm.input, hbody, rfl, hm.dest, hm.term, rfl, hlen, hstarts⟩

lemma Good.handleSnapshot (hsame : n0.Intact p.node) :
    Traced F n0 inp c0 (Consensus.handleSnapshot m.sender m.term m.fencingEpoch b) p := by
  have hrefuse {q : Proc} (hq : Good F n0 inp c0 q) (k : ℕ) :
      Traced F n0 inp c0 (replySnapshot m.sender false k) q :=
    hq.send ⟨rfl, rfl, rfl, rfl, fun h => by simp at h⟩ fun _ _ h => h
  have hp1 := hp.followLeader m.sender
  simp only [Consensus.handleSnapshot, sat_bind, sat_ite, sat_pure, sat_modifyNode]
  refine ⟨fun _ => hp, fun _ => ⟨fun _ => hrefuse hp _, fun hacc => ?_⟩⟩
  have hacc : p.node.snapshotAcceptable m.term m.fencingEpoch b := by simpa using hacc
  have hchecks := hacc
  simp only [snapshotAcceptable, Bool.and_eq_true, decide_eq_true_eq] at hchecks
  obtain ⟨⟨⟨⟨⟨⟨⟨⟨hlen, -⟩, -⟩, hscan⟩, -⟩, -⟩, -⟩, -⟩, -⟩ := hchecks
  have hscanned := scanned_of_scanSnapshot hscan
  refine ⟨fun _ => ⟨fun hpre => ?_, fun _ => hrefuse hp _⟩, fun hnew => ?_⟩
  · refine hp1.replyInstalled (hm.congr rfl rfl rfl) hbody hlen ?_
    intro j e hj
    refine ⟨by simpa using hscanned.numbered j e hj, ?_⟩
    simp only [hasPrefix, all_eq_true] at hpre
    have h := hpre (e, j) (by rw [mem_zipIdx_iff_getElem?]; exact hj)
    change (p.node.entryAt (j + 1)).elim false _ = true at h
    cases hl : p.node.entryAt (j + 1) with
    | none => simp only [hl, Option.elim_none, Bool.false_eq_true] at h
    | some l =>
      simp only [hl, Option.elim_some, Bool.and_eq_true] at h
      exact ⟨l, hl, h.2⟩
  · rw [not_or] at hnew
    have hok : InstallOk (p.node.followLeader m.sender) m b :=
      ⟨hbody, hm.dest, hm.sender, hm.term, hacc, hm.epoch, Nat.lt_of_not_le hnew.1,
        Nat.lt_of_not_le hnew.2⟩
    refine hp1.persistSnapshot (.inr ⟨rfl, m, b, hm.input, hok, rfl⟩)
      (fun rs hrs => .install _ m b rs hm.input hok rfl (SameLog.entries ⟨hsame.snap, hsame.log⟩)
        hsame.commit hrs) ?_ ?_
    · intro p' hn hgood
      rw [Proc.conf_node, ← hn] at hgood
      refine on_true ?_
      have h := (p'.node.installed b.toSnapshot).refolded_recomputed
      have hgood' := hgood.recompute (by simp [Node.installed, hn, Node.followLeader])
      refine hgood'.replyInstalled ?_ hbody hlen ?_
      · have hm' : Addressed inp p'.node m := hn ▸ hm.congr rfl rfl rfl
        exact hm'.congr h.cfg h.term h.epoch
      · intro j e hj
        refine ⟨by simpa using hscanned.numbered j e hj, e, ?_, e.identical_refl⟩
        rw [entryAt_succ, h.sameLog.entries]
        simpa [entries, installed, SnapshotBody.toSnapshot] using hj
    · exact fun p' _ hgood => on_false (hrefuse hgood _)

end

end Qihse.Consensus
