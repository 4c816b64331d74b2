import Qihse.Consensus.Emit
import Qihse.Consensus.Agreement

/-!
# Messages that can be put on the wire

The handlers, the tick and the client calls keep a node regular and send sound messages, under the
conditions `Node.deliverOk`, `Node.tickOk` and `Node.roomFor`. Over the runs of a group every
message is sound, so that it encodes into a frame.
-/

namespace Qihse.Consensus

open Crash Crash.Prog List Node Consensus.Cluster Proc

variable {p : Proc} {C : Proc → Prop}

/-! ### Commitment and compaction -/

lemma sat_persistCommit_sound {commit : ℕ} (h : p.Sound) : Speaks (persistCommit commit) p := by
  simp only [persistCommit, sat_bind, sat_modifyNode, sat_ite, sat_pure]
  have hnew := h.touch (n := p.node.setCommit commit) rfl
  refine (sat_recordAppend_sound _ hnew).imp ?_
  rintro b q ⟨hq, -⟩
  exact ⟨fun _ => hq, fun _ => hq.touch rfl⟩

lemma sat_advanceCommit (h : p.Sound) : Speaks advanceCommit p := by
  simp only [advanceCommit, sat_read, sat_ite, sat_pure]
  refine ⟨fun _ => h, fun _ => ?_⟩
  cases p.node.commitTarget with
  | none => exact h
  | some =>
    simp only [sat_bind, sat_ite, sat_pure]
    exact ⟨fun _ => sat_persistCommit_sound h, fun _ => h⟩

variable {n : Node}

lemma Node.Regular.matchSelf (h : n.Regular) : n.matchSelf.Regular := by
  unfold Node.matchSelf
  cases n.selfIndex with
  | none => exact h
  | some => exact h.congr rfl rfl rfl ⟨rfl, rfl⟩ rfl rfl

lemma sat_matchAndAdvance (h : p.Sound) :
    Speaks advanceCommit { p with node := p.node.matchSelf } :=
  sat_advanceCommit (h.setNode h.node.matchSelf)

lemma sat_persistSnapshot {v2 : Bool} {s : Snapshot} (h : p.Sound) : Sat (persistSnapshot v2 s) p
      (fun b p' => p'.Sound ∧ (b = true → p'.node = p.node)) Spoken := by
  have hlines : Sat (persistSnapshotLines v2 s) p
      (fun _ p' => p'.Sound ∧ p'.node = p.node) Spoken :=
    sat_persistSnapshotLines (fun r q hq => (sat_recordAppend_sound r hq.1).imp
      fun _ _ hq' => ⟨hq'.1, hq'.2.trans hq.2⟩) ⟨h, rfl⟩
  simp only [persistSnapshot, sat_bind, sat_ite, sat_pure, sat_modifyNode]
  refine hlines.imp ?_
  rintro b q ⟨hq, hn⟩
  exact ⟨fun _ => ⟨hq, fun _ => hn⟩, fun _ => ⟨hq.touch rfl, by rintro ⟨⟩⟩⟩

section

variable {n : Node} {s : Snapshot}

lemma Node.Regular.compacted (hn : n.Regular) (h : n.compaction = some s) :
    (n.compacted s).Regular := by
  have hentries := entries_of_compaction h
  obtain ⟨target, -, -, -, -, hmax, rfl⟩ := compaction_snapshot h
  have hterm : (n.entries.take target).getLast?.elim 0 (·.term) ≤ n.term := by
    cases hl : (n.entries.take target).getLast? with
    | none => exact Nat.zero_le _
    | some l => exact hn.log.bounded l (mem_of_mem_take (mem_of_getLast? hl))
  refine ⟨hn.named, hn.members, hn.ducks, hn.epoch, ?_, ⟨fun e he => ?_, hterm.trans hn.epoch, ?_⟩,
    hterm, le_rfl⟩
  · rw [hentries]
    exact hn.log
  · have he : (n.entries.take target).getLast? = some e := he
    simp [compacted, he]
  · exact (length_take_le _ _).trans hmax

end

lemma sat_tryCompact (h : p.Sound) : Speaks tryCompact p := by
  simp only [tryCompact, sat_read]
  cases hc : p.node.compaction with
  | none => exact h
  | some =>
    simp only [sat_bind, sat_ite, sat_pure, sat_modifyNode]
    refine (sat_persistSnapshot h).imp ?_
    rintro b q ⟨hq, hn⟩
    refine ⟨fun hb => hq.setNode ?_, fun _ => hq⟩
    rw [hn hb]
    exact h.node.compacted hc

/-! ### Votes -/

variable {sender : Uuid}

section

variable {term lastLogIndex lastLogTerm : ℕ} (h : p.Sound) (hsender : sender.isNil = false)
include h hsender

lemma sat_confirmVote :
    Sat (confirmVote sender) p (fun _ => Sound) C := by
  simp only [confirmVote, sat_bind, sat_modifyNode]
  have hnew := h.touch (n := { p.node.resetTimer with role := .follower }) rfl
  exact (sat_send_plain hnew hsender rfl).imp fun _ _ hq => hq.1

lemma sat_refuse {body : MsgBody} (hplain : body.plain) :
    Sat (send sender body) p (fun _ => Sound) C :=
  (sat_send_plain h hsender hplain).imp fun _ _ hq => hq.1

lemma sat_handleRequestVote :
    Speaks (handleRequestVote sender lastLogIndex lastLogTerm) p := by
  simp only [handleRequestVote, sat_bind, sat_ite, sat_pure]
  refine ⟨fun _ => h, fun _ => ⟨fun _ => sat_refuse h hsender rfl, fun _ =>
    ⟨fun _ => sat_confirmVote h hsender, fun _ => ⟨fun _ => ?_,
      fun _ => sat_refuse h hsender rfl⟩⟩⟩⟩
  refine (sat_persistVoteFor h).imp ?_
  rintro b q ⟨hq, -⟩
  exact ⟨fun _ => sat_confirmVote hq hsender, fun _ => sat_refuse hq hsender rfl⟩

lemma sat_handlePreVote :
    Speaks (handlePreVote sender term lastLogIndex lastLogTerm) p := by
  simp only [handlePreVote, sat_read, sat_ite, sat_pure]
  exact ⟨fun _ => h, fun _ => ⟨fun _ => sat_refuse h hsender rfl, fun _ =>
    ⟨fun _ => sat_refuse h hsender rfl, fun _ => sat_refuse h hsender rfl⟩⟩⟩

end

variable {term : ℕ}

lemma sat_handlePreVoteReply {granted : Bool} (h : p.Sound) :
    Speaks (handlePreVoteReply sender term granted) p := by
  simp only [handlePreVoteReply, sat_read, sat_ite, sat_pure]
  refine ⟨fun _ => h, fun _ => ?_⟩
  cases p.node.memberIndex sender with
  | none => exact h
  | some i =>
    have hnew := h.touch (n := p.node.countVote i) rfl
    simp only [sat_bind, sat_modifyNode, sat_getNode, sat_ite, sat_pure]
    exact ⟨fun _ => sat_startElection hnew, fun _ => hnew⟩

/-! ### Configuration entries -/

section

variable {n : Node} {e : Entry}

lemma Node.SameLog.lastGen {n' : Node} (h : n.SameLog n') : n'.lastGen = n.lastGen := by
  simp [Node.lastGen, h.snap, h.log]

@[simp]
lemma Node.lastGen_push : (n.push e).lastGen = e.journalGeneration := by
  simp [lastGen, push]

lemma Node.Regular.push (h : n.Regular) (hindex : e.index = n.absLastIndex + 1)
    (hsmall : e.payload.length ≤ payloadMax) (hterm : e.term ≤ n.term)
    (hlast : ∀ l, n.entries.getLast? = some l → l.Before e) : (n.push e).Regular := by
  refine { h with log := ?_ }
  rw [n.entries_push]
  exact h.log.push (by rw [n.entries_length]; exact hindex) hsmall hterm hlast

/-- An entry of the node's own term with the next generation. -/
lemma Node.Regular.before_next (h : n.Regular) (hterm : e.term = n.term)
    (hgen : n.lastGen < e.journalGeneration) {l : Entry} (hl : n.entries.getLast? = some l) :
    l.Before e := by
  refine ⟨?_, ?_⟩
  · rw [hterm]
    exact h.log.bounded l (mem_of_getLast? hl)
  · rwa [lastGen_eq, hl] at hgen

end

/-- There are `k` more generations behind the last one. -/
def Node.roomFor (n : Node) (k : ℕ) : Bool := n.lastGen + k < 2 ^ 64

lemma u64_succ_lastGen {k : ℕ} (h : n.roomFor (k + 1)) : u64 (n.lastGen + 1) = n.lastGen + 1 := by
  have h := of_decide_eq_true h
  exact Nat.mod_eq_of_lt (by omega)

lemma Node.Regular.push_stamp {e : Entry} {k : ℕ} (h : n.Regular) (hroom : n.roomFor (k + 1))
    (hsmall : e.payload.length ≤ payloadMax) : (n.push (n.stamp e)).Regular := by
  refine h.push rfl hsmall le_rfl fun l hl => h.before_next rfl ?_ hl
  rw [stamp, u64_succ_lastGen hroom]
  exact Nat.lt_succ_self _

lemma sat_jointAppendOne {e : Entry} {k : ℕ} (h : p.Sound) (hroom : p.node.roomFor (k + 1))
    (hsmall : e.payload.length ≤ payloadMax) : Sat (jointAppendOne e (p.node.absLastIndex + 1)) p
      (fun b p' => p'.Sound ∧ (b = true → p'.node.absLastIndex = p.node.absLastIndex + 1 ∧
        p'.node.roomFor k)) Spoken := by
  simp only [jointAppendOne, sat_bind, sat_ite, sat_pure, logPush, sat_modifyNode,
    sat_recompute]
  refine ⟨fun _ => ⟨h, by rintro ⟨⟩⟩, fun _ => (sat_recordAppend?_sound _ h).imp ?_⟩
  rintro b q ⟨hq, hn⟩
  refine ⟨fun _ => ?_, fun _ => ⟨hq, by rintro ⟨⟩⟩⟩
  rw [hn]
  have hpush := h.node.push_stamp hroom hsmall
  have hfold := (p.node.push (p.node.stamp e)).refolded_recomputed
  refine ⟨hq.setNode hpush.recomputed, fun _ => ⟨?_, decide_eq_true ?_⟩⟩
  · exact hfold.sameLog.absLastIndex.trans (absLastIndex_push ..)
  · have hlt := of_decide_eq_true hroom
    change (p.node.push (p.node.stamp e)).recomputed.lastGen + k < 2 ^ 64
    have hgen := u64_succ_lastGen hroom
    rw [hfold.sameLog.lastGen, lastGen_push]
    change u64 (p.node.lastGen + 1) + k < 2 ^ 64
    omega

/-- The joint phase is open. -/
def Node.jointOpen (n : Node) : Bool :=
  n.foldAtCommit.elim false fun f => f.active && f.endIndex = 0

lemma sat_jointEnsureClosed (h : p.Sound) (hroom : p.node.jointOpen → p.node.roomFor 1) :
    Speaks jointEnsureClosed p := by
  simp only [jointEnsureClosed, sat_read, sat_ite, sat_pure]
  refine ⟨fun _ => h, fun _ => ?_⟩
  cases hf : p.node.foldAtCommit with
  | none => exact h
  | some =>
    simp only [sat_bind, sat_ite, sat_pure, sat_modifyNode]
    refine ⟨fun _ => h, fun hopen => ?_⟩
    have hroom := hroom (by
      simp only [not_or, Bool.not_eq_true, Bool.not_eq_false', not_not] at hopen
      simp [jointOpen, hf, hopen.1, hopen.2])
    refine (sat_jointAppendOne h hroom (by simp [Entry.ofConfig])).imp ?_
    rintro b q ⟨hq, -⟩
    exact ⟨fun _ => sat_matchAndAdvance hq, fun _ => hq⟩

lemma sat_handleVoteReply {granted : Bool} (h : p.Sound)
    (hroom : p.node.role = .candidate → granted → p.node.jointOpen → p.node.roomFor 1) :
    Speaks (handleVoteReply sender granted) p := by
  simp only [handleVoteReply, sat_read, sat_ite, sat_pure]
  refine ⟨fun _ => h, fun hcand => ?_⟩
  simp only [not_or, not_not, Bool.not_eq_true, Bool.not_eq_false'] at hcand
  cases p.node.memberIndex sender with
  | none => exact h
  | some i =>
    have hcount := h.touch (n := p.node.countVote i) rfl
    simp only [sat_bind, sat_modifyNode, sat_getNode, sat_ite, sat_pure]
    refine ⟨fun _ => ?_, fun _ => hcount⟩
    have hlead : (p.node.countVote i).lead.Regular :=
      h.node.congr rfl rfl rfl ⟨rfl, rfl⟩ rfl rfl
    have hclose : Speaks jointEnsureClosed
        { p with node := (p.node.countVote i).lead.matchSelf } := by
      refine sat_jointEnsureClosed (h.setNode hlead.matchSelf) ?_
      have hsame : ∀ m : Node, m.matchSelf.jointOpen = m.jointOpen ∧
          m.matchSelf.roomFor 1 = m.roomFor 1 := by
        intro m
        unfold matchSelf
        cases m.selfIndex <;> exact ⟨rfl, rfl⟩
      rw [(hsame _).1, (hsame _).2]
      exact hroom hcand.1 hcand.2
    exact hclose.imp fun _ q hq => (sat_sendAppends hq).imp fun _ _ hq' => hq'.1

/-! ### Replication -/

section

variable {e : Entry} {prev : ℕ} {touched : Bool}

/-- The node holds an entry at `prev + 1` that orders like `e`. -/
def Node.HoldsLike (n : Node) (prev : ℕ) (e : Entry) : Prop :=
  ∃ l, n.entries[prev]? = some l ∧ l.term = e.term ∧ l.journalGeneration = e.journalGeneration

/-- The last entry of a log that ends at `prev`. -/
lemma Node.getLast?_of_absLastIndex {n : Node} (hprev : n.absLastIndex = prev) :
    n.entries.getLast? = n.entryAt prev := by
  rw [getLast?_eq_getElem?, n.entries_length, hprev]
  cases prev with
  | zero =>
    rw [n.entryAt_zero, getElem?_eq_none]
    rw [n.entries_length, hprev]
  | succ => rw [n.entryAt_succ, Nat.add_sub_cancel]

lemma Node.Regular.truncateFrom {n : Node} (h : n.Regular) (hprev : n.snap.entries.length ≤ prev) :
    (n.truncateFrom (prev + 1)).Regular := by
  refine { h with log := ?_ }
  rw [n.entries_truncateFrom hprev]
  exact h.log.take prev

section

variable (h : p.Sound) (hsmall : e.payload.length ≤ payloadMax) (hterm : e.term ≤ p.node.term)
  (hcarry : ∀ l, p.node.entryAt prev = some l → l.Before e)
include h hsmall hterm hcarry

lemma sat_storeNew_sound (hprev : p.node.absLastIndex = prev) :
    Sat (storeNew e (prev + 1) touched) p (fun r p' => p'.Sound ∧ p'.node.term = p.node.term ∧
        ∀ b, r = .all b → p'.node.HoldsLike prev e) Spoken := by
  simp only [storeNew, sat_bind, sat_getNode, sat_ite, sat_pure, logPush, sat_modifyNode]
  refine ⟨fun _ => ⟨h, trivial, by rintro _ ⟨⟩⟩, fun hindex =>
    ⟨fun _ => ⟨h, trivial, by rintro _ ⟨⟩⟩, fun _ => ?_⟩⟩
  refine (sat_recordAppend?_sound _ h).imp ?_
  rintro b q ⟨hq, hn⟩
  refine ⟨fun _ => ⟨hq.setNode ?_, ?_, fun _ _ => ?_⟩, fun _ => ⟨hq, by rw [hn], by rintro _ ⟨⟩⟩⟩
  · rw [hn]
    refine h.node.push ((not_not.mp hindex).trans (by rw [hprev])) hsmall hterm fun l hl => ?_
    rw [getLast?_of_absLastIndex hprev] at hl
    exact hcarry l hl
  · rw [hn]
    rfl
  · refine ⟨e, ?_, rfl, rfl⟩
    rw [hn, entries_push, getElem?_append_right (by rw [entries_length, hprev]),
      entries_length, hprev, Nat.sub_self]
    rfl

lemma sat_storeOne_sound (hprev : prev ≤ p.node.absLastIndex) :
    Sat (storeOne e (prev + 1) touched) p (fun r p' => p'.Sound ∧ p'.node.term = p.node.term ∧
        ∀ b, r = .all b → p'.node.HoldsLike prev e) Spoken := by
  simp only [storeOne, sat_read, entryAt_succ]
  cases hl : p.node.entries[prev]? with
  | none =>
    rw [List.getElem?_eq_none_iff, entries_length] at hl
    exact sat_storeNew_sound h hsmall hterm hcarry (by omega)
  | some l =>
    simp only [sat_ite, sat_pure, sat_bind, sat_modifyNode]
    refine ⟨fun heq => ⟨fun hid => ⟨h, trivial, fun _ _ => ⟨l, hl, heq, ?_⟩⟩,
      fun _ => ⟨h, trivial, by rintro _ ⟨⟩⟩⟩,
      fun _ => ⟨fun _ => ⟨h, trivial, by rintro _ ⟨⟩⟩, fun hsnap => ?_⟩⟩
    · simp only [Entry.identical, Bool.and_eq_true, beq_iff_eq] at hid
      exact hid.1.1.1.1.2
    · have hlt : prev < p.node.absLastIndex := by
        rw [← entries_length]
        exact (List.getElem?_eq_some_iff.mp hl).1
      refine (sat_recordAppend_sound _ h).imp ?_
      rintro b q ⟨hq, hn⟩
      refine ⟨fun _ => ?_, fun _ => ⟨hq, by rw [hn], by rintro _ ⟨⟩⟩⟩
      have hcut := p.node.entries_truncateFrom (k := prev) (by omega)
      have hlen : (p.node.truncateFrom (prev + 1)).absLastIndex = prev := by
        rw [← entries_length, hcut, length_take, entries_length]
        omega
      rw [hn]
      refine sat_storeNew_sound (hq.setNode (h.node.truncateFrom (by omega))) hsmall hterm
        (fun x hx => hcarry x ?_) hlen
      rw [← hx]
      cases prev with
      | zero => rw [entryAt_zero, entryAt_zero]
      | succ k =>
        simp only [entryAt_succ]
        rw [hcut, getElem?_take, if_pos (Nat.lt_succ_self k)]

end

/-- The loop over a batch that rises from the entry it follows. -/
lemma sat_storeAll_sound {es : List Entry} (h : p.Sound) (hprev : prev ≤ p.node.absLastIndex)
    (hes : es.Pairwise Entry.Before)
    (hone : ∀ e ∈ es, e.payload.length ≤ payloadMax ∧ e.term ≤ p.node.term)
    (hcarry : ∀ l, p.node.entryAt prev = some l → ∀ e ∈ es, l.Before e) :
    Speaks (storeAll es prev touched) p := by
  induction es generalizing p prev touched with
  | nil => exact h
  | cons e es ih =>
    rw [pairwise_cons] at hes
    simp only [storeAll, sat_bind]
    refine (sat_storeOne_sound h (hone e (by simp)).1 (hone e (by simp)).2
      (fun l hl => hcarry l hl e (by simp)) hprev).imp ?_
    rintro r q ⟨hq, hterm, hr⟩
    cases r with
    | refused => exact hq
    | all b =>
      obtain ⟨l, hl, hlt, hlg⟩ := hr b rfl
      have hle : prev + 1 ≤ q.node.absLastIndex := by
        rw [← entries_length]
        exact (List.getElem?_eq_some_iff.mp hl).1
      refine ih hq hle hes.2 (fun x hx => ?_) fun l' hl' x hx => ?_
      · rw [hterm]
        exact hone x (by simp [hx])
      · -- what is held at the index orders like `e`, and `e` stands before the rest of the batch
        rw [entryAt_succ, hl, Option.some.injEq] at hl'
        subst hl'
        obtain ⟨hbt, hbg⟩ := hes.1 x hx
        exact ⟨hlt ▸ hbt, hlg ▸ hbg⟩

end

lemma sat_settleAppend_sound {leaderCommit verified : ℕ} (h : p.Sound)
    (hsender : sender.isNil = false) : Speaks (settleAppend sender leaderCommit verified) p := by
  simp only [settleAppend, sat_bind, sat_ite]
  refine ⟨fun _ => sat_refuse h hsender rfl, fun _ => ⟨fun _ => ?_, fun _ =>
    sat_refuse h hsender rfl⟩⟩
  exact (sat_persistCommit_sound h).imp fun b q hq =>
    ⟨fun _ => sat_refuse hq hsender rfl, fun _ => sat_refuse hq hsender rfl⟩

lemma Node.preflight_small {prev : ℕ} {es : List Entry} (h : n.preflight prev es) :
    ∀ e ∈ es, e.payload.length ≤ payloadMax := by
  intro e he
  obtain ⟨i, hi⟩ := mem_iff_getElem?.mp he
  have hmem : (e, i) ∈ es.zipIdx := mk_mem_zipIdx_iff_getElem?.mpr hi
  have hone := all_eq_true.mp h _ hmem
  simp only [Bool.and_eq_true, decide_eq_true_eq] at hone
  exact hone.1.2

lemma sat_handleAppend_sound {sender : Uuid} {prev prevTerm leaderCommit : ℕ} {es : List Entry}
    (h : p.Sound) (hsender : sender.isNil = false) (hes : es.Pairwise Entry.Before)
    (hterms : ∀ e ∈ es, prevTerm ≤ e.term ∧ e.term ≤ p.node.term)
    (hgen : ∀ l e, p.node.entryAt prev = some l → es.head? = some e →
      l.journalGeneration < e.journalGeneration) :
    Speaks (handleAppend sender prev prevTerm leaderCommit es) p := by
  simp only [handleAppend, sat_read, sat_ite, sat_pure]
  refine ⟨fun _ => h, fun _ => ⟨fun _ => h, fun _ => ⟨fun _ => h, fun hzero =>
    ⟨fun _ => sat_refuse h hsender rfl, fun hle =>
    ⟨fun _ => sat_refuse h hsender rfl, fun hprev =>
    ⟨fun _ => sat_refuse h hsender rfl, fun hflight =>
    ⟨fun _ => sat_refuse h hsender rfl, fun _ => ?_⟩⟩⟩⟩⟩⟩⟩
  simp only [Bool.not_eq_true, Bool.not_eq_false'] at hflight
  -- every entry of the batch stands behind the one that the batch follows
  have hcarry : ∀ l, p.node.entryAt prev = some l → ∀ e ∈ es, l.Before e := by
    intro l hl e he
    refine ⟨?_, ?_⟩
    · have hterm : p.node.termAt prev = l.term := by simp [termAt, hl]
      have hpos : 1 ≤ prev := by
        rcases Nat.eq_zero_or_pos prev with rfl | hpos
        · exact absurd hl (by rintro ⟨⟩)
        · exact hpos
      have heq : p.node.termAt prev = prevTerm := by
        by_contra hne
        exact hprev ⟨hpos, hne⟩
      rw [← hterm, heq]
      exact (hterms e he).1
    · cases es with
      | nil => exact absurd he (by simp)
      | cons x =>
        have hx := hgen l x hl rfl
        rcases mem_cons.mp he with rfl | he
        · exact hx
        · exact hx.trans ((pairwise_cons.mp hes).1 e he).2
  have hnew := h.touch (n := p.node.followLeader sender) rfl
  simp only [acceptAppend, sat_bind, sat_modifyNode]
  refine (sat_storeAll_sound hnew (not_lt.mp hle) hes
    (fun e he => ⟨preflight_small hflight e he, (hterms e he).2⟩) hcarry).imp fun r q hq => ?_
  cases r with
  | refused => exact sat_refuse hq hsender rfl
  | all touched =>
    cases touched with
    | false => exact sat_settleAppend_sound hq hsender
    | true => exact sat_settleAppend_sound (hq.setNode hq.node.recomputed) hsender

lemma sat_handleAppendReply {success : Bool} {matchIndex : ℕ} (h : p.Sound) :
    Speaks (handleAppendReply sender success matchIndex) p := by
  simp only [handleAppendReply, sat_read, sat_ite, sat_pure]
  refine ⟨fun _ => h, fun _ => ?_⟩
  cases p.node.memberIndex sender with
  | none =>
    refine h.setNode ⟨h.node.named, h.node.members, fun d hd => ?_, h.node.epoch, h.node.log,
      h.node.snap, h.node.snapTerm, h.node.snapEpoch⟩
    obtain ⟨d', hd', rfl⟩ := mem_map.mp hd
    have hid : (duckReply sender success matchIndex d').id = d'.id := by
      unfold duckReply
      split_ifs <;> rfl
    rw [hid]
    exact h.node.ducks d' hd'
  | some =>
    simp only [sat_ite, sat_bind, sat_modifyNode]
    exact ⟨fun _ => sat_advanceCommit (h.touch rfl),
      fun _ => h.touch rfl⟩

/-! ### Snapshots -/

lemma Node.Regular.installed {m : Node} {fencingEpoch : ℕ} {s : SnapshotBody} (h : n.Regular)
    (hs : m.snapshotAcceptable term fencingEpoch s) (hterm : term ≤ n.term)
    (hepoch : fencingEpoch ≤ n.epoch) : (n.installed s.toSnapshot).Regular := by
  simp only [snapshotAcceptable, Bool.and_eq_true, decide_eq_true_eq] at hs
  obtain ⟨⟨⟨⟨⟨⟨⟨⟨hlen, hpos⟩, hmax⟩, hscan⟩, hfenced⟩, hepoch'⟩, -⟩, -⟩, -⟩ := hs
  have hsc := scanned_of_scanSnapshot hscan
  obtain ⟨l, hl⟩ : ∃ l, s.entries.getLast? = some l := by
    refine ⟨_, getLast?_eq_some_getLast fun hnil => hpos ?_⟩
    rw [← hlen, hnil, length_nil]
  have hlast := hsc.last l hl
  rw [Prod.mk.injEq] at hlast
  have hentries : (n.installed s.toSnapshot).entries = s.entries := append_nil _
  refine ⟨h.named, h.members, h.ducks, h.epoch, ?_, ⟨fun e he => ?_, hfenced, ?_⟩, ?_,
    hepoch'.trans hepoch⟩
  · rw [hentries]
    refine ⟨fun k e hk => ?_, hsc.small, fun e he => (hsc.bounded e he).trans hterm, hsc.rising⟩
    rw [hsc.numbered k e hk, zero_add]
  · have heq : some l = some e := hl.symm.trans he
    cases heq
    exact ⟨hlast.1.symm, hlast.2.symm⟩
  · exact hmax.trans (by decide)
  · change s.lastIncludedTerm ≤ n.term
    rw [hlast.1]
    exact (hsc.bounded l (mem_of_getLast? hl)).trans hterm

lemma sat_handleSnapshot {fencingEpoch : ℕ} {s : SnapshotBody} (h : p.Sound)
    (hsender : sender.isNil = false) (hterm : term ≤ p.node.term)
    (hepoch : fencingEpoch ≤ p.node.epoch) :
    Speaks (handleSnapshot sender term fencingEpoch s) p := by
  have hnew := h.touch (n := p.node.followLeader sender) rfl
  simp only [handleSnapshot, sat_bind, sat_ite, sat_pure, sat_modifyNode, replySnapshot]
  refine ⟨fun _ => h, fun _ => ⟨fun _ => sat_refuse h hsender rfl, fun hs => ⟨fun _ =>
    ⟨fun _ => sat_refuse hnew hsender rfl, fun _ => sat_refuse h hsender rfl⟩, fun _ => ?_⟩⟩⟩
  simp only [Bool.not_eq_true, Bool.not_eq_false'] at hs
  refine (sat_persistSnapshot hnew).imp ?_
  rintro b q ⟨hq, hn⟩
  refine ⟨fun hb => ?_, fun _ => sat_refuse hq hsender rfl⟩
  simp only [sat_recompute]
  refine sat_refuse (hq.setNode (Regular.recomputed (hq.node.installed hs ?_ ?_))) hsender rfl
  · rw [hn hb]
    exact hterm
  · rw [hn hb]
    exact hepoch

/-! ### Receiving -/

/-- The delivered message does not break the order of the log: an APPEND brings a larger generation
than that of the entry it follows, and the election that a vote decides leaves a generation for the
entry that closes an open joint phase. -/
def Node.deliverOk (n : Node) (m : Msg) : Bool :=
  match m.body with
  | .append prev _ _ es =>
    (n.entryAt prev).elim true fun l => es.head?.elim true fun e =>
      l.journalGeneration < e.journalGeneration
  | .voteReply granted => !(n.role = .candidate && granted && n.jointOpen) || n.roomFor 1
  | _ => true

variable {m : Msg}

lemma sat_rejectStale (h : p.Sound) (hsender : m.sender.isNil = false) :
    Speaks (rejectStale m) p := by
  unfold rejectStale
  split
  iterate 3 · exact sat_refuse h hsender rfl
  · exact h

lemma sat_dispatch (h : p.Sound) (hm : m.Sound) (hsender : m.sender.isNil = false)
    (hterm : m.body.isPreVote ∨ m.term ≤ p.node.term ∧ m.fencingEpoch ≤ p.node.epoch)
    (hok : p.node.deliverOk m) : Speaks (dispatch m) p := by
  obtain ⟨group, sender, dest, term, fencingEpoch, body⟩ := m
  unfold deliverOk at hok
  cases body with
  | requestVote => exact sat_handleRequestVote h hsender
  | voteReply =>
    simp only [Bool.or_eq_true, Bool.not_eq_true', Bool.and_eq_false_iff,
      decide_eq_false_iff_not] at hok
    refine sat_handleVoteReply h fun hrole hgranted hopen => hok.resolve_left ?_
    rintro ((hno | hno) | hno)
    · exact hno hrole
    · simp [hgranted] at hno
    · simp [hopen] at hno
  | preVote => exact sat_handlePreVote h hsender
  | preVoteReply => exact sat_handlePreVoteReply h
  | append =>
    obtain ⟨hes, hterms⟩ := hm.batch _ _ _ _ rfl
    have hle := (hterm.resolve_left (by simp [MsgBody.isPreVote])).1
    refine sat_handleAppend_sound h hsender hes
      (fun e he => ⟨(hterms e he).1, (hterms e he).2.trans hle⟩) fun l e hl he => ?_
    simpa [hl, he] using hok
  | appendReply | snapshotReply => exact sat_handleAppendReply h
  | snapshot =>
    have hle := hterm.resolve_left (by simp [MsgBody.isPreVote])
    exact sat_handleSnapshot h hsender hle.1 hle.2
  | snapshotChunk => exact h

/-- A term that is adopted first changes nothing of `Node.deliverOk` but an ended candidacy. -/
lemma Node.Adopted.deliverOk {n' : Node} (h : n.Adopted n') (hok : n.deliverOk m) :
    n'.deliverOk m := by
  have hentry : ∀ k, n'.entryAt k = n.entryAt k := by
    intro k
    simp [entryAt, h.snap, h.log]
  have hopen : n'.jointOpen = n.jointOpen := by
    simp [jointOpen, foldAtCommit, h.cfg, h.commit, h.entries]
  have hroom : n'.roomFor 1 = n.roomFor 1 := by
    simp [roomFor, h.lastGen]
  obtain ⟨_, _, _, _, _, body⟩ := m
  unfold deliverOk at hok ⊢
  cases body with
  | append => simpa only [hentry] using hok
  | voteReply =>
    simp only [hopen, hroom]
    rcases h.role with hrole | hrole
    · rwa [hrole]
    · simp [hrole]
  | _ => rfl

lemma sat_receive (h : p.Sound) (hm : m.Sound) (hok : p.node.Drops m ∨ p.node.deliverOk m) :
    Speaks (receive m) p := by
  simp only [receive, sat_bind, sat_ite, sat_pure]
  refine ⟨fun _ => h, fun _ => ⟨fun _ => h, fun hother => ⟨fun _ => h, fun hknown =>
    ⟨fun _ => h, fun _ => ⟨fun _ => h, fun hepoch => ?_⟩⟩⟩⟩⟩
  -- the sender is a member or a tracked former member
  have hsender : m.sender.isNil = false := by
    cases hi : p.node.memberIndex m.sender with
    | some =>
      obtain ⟨hlt, hid, -⟩ := findIdx?_eq_some_iff_getElem.mp hi
      rw [decide_eq_true_eq] at hid
      rw [← hid]
      exact h.node.members _ (getElem_mem hlt)
    | none =>
      simp only [hi, true_and, Bool.not_eq_true, Bool.not_eq_false', any_eq_true,
        decide_eq_true_eq] at hknown
      obtain ⟨d, hd, hid⟩ := hknown
      rw [← hid]
      exact h.node.ducks d hd
  refine ⟨fun _ => sat_rejectStale h hsender, fun hterm => ?_⟩
  replace hok := hok.resolve_left (by rintro (h | h | h | h | h | h) <;> contradiction)
  refine ⟨fun _ => ?_, fun hsync => ?_⟩
  · refine (sat_syncTermEpoch h).imp ?_
    rintro b q ⟨hq, hadopt, hle⟩
    refine ⟨fun hb => ?_, fun _ => hq⟩
    exact sat_dispatch hq hm hsender (.inr (hle hb (not_lt.mp hterm))) (hadopt.deliverOk hok)
  · refine sat_dispatch h hm hsender ?_ hok
    by_cases hpre : m.body.isPreVote
    · exact .inl hpre
    · simp only [hpre, Bool.not_false, true_and, not_or, not_lt] at hsync
      exact .inr hsync

/-! ### Tick -/

lemma sat_offerDuck {d : LameDuck} (h : p.Sound) (hd : d.id.isNil = false) :
    Sat (offerDuck d) p (fun _ => Sound) C := by
  simp only [offerDuck, sat_bind, sat_ite, sat_pure, sat_modifyNode]
  refine ⟨fun _ => (sat_sendAppendFrom h hd).imp fun _ q hq => ⟨fun _ => hq.1.setNode ?_,
    fun _ => hq.1⟩, fun _ => h⟩
  have hn := hq.1.node
  refine { hn with ducks := fun x hx => ?_ }
  obtain ⟨x', hx', rfl⟩ := mem_map.mp hx
  split_ifs <;> exact hn.ducks x' hx'

lemma sat_heartbeat (h : p.Sound) : Sat heartbeat p (fun _ => Sound) C := by
  simp only [heartbeat, sat_bind, sat_ite, sat_pure, sat_modifyNode]
  refine ⟨fun _ => ?_, fun _ => h⟩
  have hnew := h.touch (n := { p.node with lastHeartbeatMs := p.node.nowMs }) rfl
  have hpeers := sat_sendAppends (C := C) hnew
  refine Sat.imp hpeers fun _ q hq => Sat.forEach hq.1 fun d hd r hr => ?_
  exact sat_offerDuck hr (h.node.ducks d hd)

/-- A tick at time `now` that starts a pre-vote round starts it with a term that the epoch covers.
-/
def Node.tickOk (n : Node) (now : ℕ) : Bool :=
  n.role = .leader || sub64 now n.lastLeaderContactMs < n.electionTimeoutMs n.term ||
    !n.cfg.enablePrevote || n.prevoteFenced

lemma sat_tick {now : ℕ} (h : p.Sound) (hok : p.node.tickOk now) : Speaks (tick now) p := by
  simp only [tick, sat_bind, sat_ite, sat_pure, sat_modifyNode]
  have hnew := h.touch (n := { p.node with nowMs := now }) rfl
  refine ⟨fun _ => ?_, fun hrole => ⟨fun htime => ⟨fun hpre => ?_, fun _ => ?_⟩, fun _ => hnew⟩⟩
  · exact (sat_tryCompact hnew).imp fun _ q hq => sat_heartbeat hq
  · refine sat_startPrevote hnew ?_
    simp only [tickOk, Bool.or_eq_true, decide_eq_true_eq, Bool.not_eq_true'] at hok
    have hlate : ¬ sub64 now p.node.lastLeaderContactMs < p.node.electionTimeoutMs p.node.term :=
      not_lt.mpr htime.2
    rcases hok with ((hok | hok) | hok) | hok
    · exact absurd hok hrole
    · exact absurd hok hlate
    · rw [hok] at hpre
      cases hpre
    · exact hok
  · exact sat_startElection hnew

/-! ### Client paths -/

variable {user : User}

lemma sat_propose_sound {gen : ℕ} {hlc : Hlc} {classif sci : ℕ} {payload : List UInt8}
    (h : p.Sound) : Speaks (propose user gen hlc classif sci payload) p := by
  simp only [propose, sat_bind, sat_ite, sat_pure, logPush, sat_modifyNode]
  refine ⟨fun _ => h, fun _ => ⟨fun _ => h, fun hlen => ⟨fun _ => h, fun hgen =>
    ⟨fun _ => h, fun _ => ⟨fun _ => h, fun _ => ?_⟩⟩⟩⟩⟩
  refine (sat_recordAppend?_sound _ h).imp ?_
  rintro b q ⟨hq, hn⟩
  refine ⟨fun _ => ?_, fun _ => hq⟩
  refine sat_matchAndAdvance (hq.setNode (n := q.node.push _) ?_)
  rw [hn]
  refine h.node.push rfl (not_lt.mp (not_or.mp hlen).2) le_rfl fun l hl => ?_
  refine h.node.before_next rfl ?_ hl
  have hpos : 0 < p.node.absLastIndex := by
    rw [← entries_length]
    exact length_pos_of_mem (mem_of_getLast? hl)
  exact not_le.mp fun hle => hgen ⟨hpos, hle⟩

lemma sat_proposeMembershipRole_sound {op : MembershipOp} {member : Uuid} {role : MemberRole}
    {weight : ℕ} (h : p.Sound) (hroom : p.node.roomFor 1) :
    Speaks (proposeMembershipRole user op member role weight) p := by
  simp only [proposeMembershipRole, sat_bind, sat_ite, sat_pure, logPush,
    sat_modifyNode, sat_recompute]
  refine ⟨fun _ => h, fun _ => ⟨fun _ => h, fun _ => ?_⟩⟩
  refine (sat_recordAppend?_sound _ h).imp ?_
  rintro b q ⟨hq, hn⟩
  refine ⟨fun _ => ?_, fun _ => hq⟩
  have hpayload : (membershipPayload op member role weight).length ≤ payloadMax := by
    unfold membershipPayload
    split_ifs <;> simp [member.size, payloadMax]
  have hpush := h.node.push_stamp hroom
    (e := .ofConfig op.entryType (membershipPayload op member role weight)) hpayload
  rw [hn]
  have hnew := hq.setNode hpush.recomputed
  exact ⟨fun _ => sat_matchAndAdvance hnew, fun _ => hnew⟩

lemma sat_jointAppendAll (h : p.Sound) (hroom : p.node.roomFor es.length)
    (hsmall : ∀ e ∈ es, e.payload.length ≤ payloadMax) :
    Speaks (jointAppendAll es (p.node.absLastIndex + 1)) p := by
  induction es generalizing p with
  | nil => exact h
  | cons e es ih =>
    simp only [jointAppendAll, sat_bind, sat_ite, sat_pure]
    refine (sat_jointAppendOne h hroom (hsmall e (by simp))).imp fun b q ⟨hq, hb⟩ =>
      ⟨fun htrue => ?_, fun _ => hq⟩
    obtain ⟨hindex, hrest⟩ := hb htrue
    have hall := ih hq hrest fun x hx => hsmall x (by simp [hx])
    rwa [hindex] at hall

lemma jointSequence_small {add remove : List Uuid} :
    ∀ e ∈ jointSequence add remove, e.payload.length ≤ payloadMax := by
  intro e he
  simp only [jointSequence, cons_append, mem_cons, mem_append, mem_map,
    not_mem_nil, or_false] at he
  rcases he with rfl | (⟨u, -, rfl⟩ | ⟨u, -, rfl⟩) | rfl <;>
    simp [Entry.ofConfig, payloadMax, Uuid.size]

lemma sat_proposeJoint_sound {add remove : List Uuid} (h : p.Sound)
    (hroom : p.node.roomFor (jointSequence add remove).length) :
    Speaks (proposeJoint user add remove) p := by
  simp only [proposeJoint, sat_bind, sat_ite, sat_pure, sat_modifyNode]
  refine ⟨fun _ => h, fun _ => ?_⟩
  exact (sat_jointAppendAll h hroom jointSequence_small).imp fun b q hq =>
    ⟨fun _ => sat_matchAndAdvance hq, fun _ => hq⟩

/-! ### Groups -/

/-- What has to hold of a group and its next event for all messages to stay valid: an opened node
knows every member by a proper identifier, a pre-vote round starts with a term that the epoch
covers, and the generations of the log keep rising. -/
def Op.sendOk (cfg : Uuid → Config) (w : Cluster) : Op → Bool
  | .openNode u _ => (cfg u).members.all (!·.id.isNil)
  | .tick u now _ => (w.node u).all (·.tickOk now.toNat)
  | .deliver u k _ => (w.node u).all fun n => w.sent[k]?.all fun m => n.Drops m || n.deliverOk m
  | .proposeMembership u _ _ _ _ | .proposeMembershipRole u _ _ _ _ _ _ =>
    (w.node u).all (·.roomFor 1)
  | .proposeJoint u _ add remove _ =>
    (w.node u).all (·.roomFor (jointSequence add remove).length)
  | .crash _ | .copyRecord _ _ | .propose _ _ _ _ _ _ _ _ _ => true

namespace Cluster

/-- All nodes are regular, and all messages sound. -/
structure Sound (w : Cluster) : Prop where
  node : ∀ u n, w.node u = some n → n.Regular
  sent : ∀ m ∈ w.sent, m.Sound

variable {w : Cluster} {cfg : Uuid → Config}

lemma sound_init : init.Sound :=
  ⟨fun u n hn => absurd hn (by simp [init, node, Slot.empty]), by simp [init]⟩

lemma Sound.setSlot (h : w.Sound) {u : Uuid} {s : Slot} (hs : ∀ n, s.node = some n → n.Regular) :
    (w.setSlot u s).Sound := by
  refine ⟨fun v n hn => ?_, h.sent⟩
  by_cases hv : v = u
  · subst hv
    rw [node_setSlot_self] at hn
    exact hs n hn
  · rw [node_setSlot_ne w s hv] at hn
    exact h.node v n hn

/-- A call of one node. -/
lemma Sound.runAt {α : Type} {u : Uuid} {io : List Io} {m : M α} (h : w.Sound)
    (hm : ∀ p : Proc, w.node u = some p.node → p.Sound → Speaks m p) : (w.runAt u io m).Sound := by
  unfold Cluster.runAt
  cases hn : (w.slots u).node with
  | none => exact h
  | some cs =>
    have hsat := hm ⟨cs, (w.slots u).disk.getD [], [], io, false⟩ hn
      ⟨h.node u cs hn, by simp [Spoken]⟩
    unfold Speaks Sat at hsat
    simp only
    rcases hr : m ⟨cs, (w.slots u).disk.getD [], [], io, false⟩ with ⟨r, p⟩
    rw [hr] at hsat
    have hout : p.Spoken := by
      cases r with
      | none => exact hsat
      | some => exact hsat.out
    have hslot : (w.setSlot u ⟨if r.isSome then some p.node else none, some p.disk⟩).Sound := by
      refine h.setSlot fun n hn' => ?_
      cases r with
      | none => cases hn'
      | some =>
        cases hn'
        exact hsat.node
    exact ⟨hslot.node, forall_mem_append.mpr ⟨h.sent, hout⟩⟩

lemma Sound.step (h : w.Sound) {op : Op} (hok : op.sendOk cfg w) : (w.step cfg op).Sound := by
  cases op with
  | openNode u io =>
    simp only [Cluster.step]
    cases (w.slots u).node with
    | some => exact h
    | none =>
      have hnamed : ∀ m ∈ (cfg u).members, m.id.isNil = false := by
        simpa [Op.sendOk] using hok
      have hslot : (w.setSlot u (openSlot (cfg u) (w.slots u).disk io).1).Sound :=
        h.setSlot fun n hn => regular_openSlot hnamed hn
      exact ⟨hslot.node, hslot.sent⟩
  | crash =>
    exact h.setSlot (by simp)
  | copyRecord source u =>
    simp only [Cluster.step]
    cases (w.slots u).disk with
    | some => exact h
    | none => exact h.setSlot (by simp)
  | tick =>
    refine h.runAt fun p hp hsound => sat_tick hsound ?_
    simpa [Op.sendOk, hp] using hok
  | deliver u k =>
    simp only [Cluster.step]
    cases hm : w.sent[k]? with
    | none => exact h
    | some m =>
      refine h.runAt fun p hp hsound => sat_receive hsound (h.sent m (mem_of_getElem? hm)) ?_
      simpa [Op.sendOk, hp, hm] using hok
  | propose =>
    exact h.runAt fun p _ hsound => sat_propose_sound hsound
  | proposeMembership | proposeMembershipRole =>
    refine h.runAt fun p hp hsound => sat_proposeMembershipRole_sound hsound ?_
    simpa [Op.sendOk, hp] using hok
  | proposeJoint =>
    refine h.runAt fun p hp hsound => sat_proposeJoint_sound hsound ?_
    simpa [Op.sendOk, hp] using hok

lemma Sound.run (h : w.Sound) {ops : List Op}
    (hok : Meets cfg (fun w op => op.sendOk cfg w) w ops) : (w.run cfg ops).Sound := by
  induction ops generalizing w with
  | nil => exact h
  | cons op ops ih => exact ih (h.step hok.1) hok.2

/-- Whatever a group did, every message that was handed to the transport passes the validation of
the wire format and fits its frame, for every active principal that may see its entries. -/
theorem sent_encodes (ops : List Op) (hok : Meets cfg (fun w op => op.sendOk cfg w) init ops)
    (m : Msg) (hm : m ∈ (init.run cfg ops).sent) (user : Principal) (huser : user.Cleared m) :
    prevalidate user m ∧ ∀ binding : Option Binding, binding.all Binding.valid →
      wireEncode user binding wireMax m = some (m.encode binding) := by
  have hvalid := ((sound_init.run hok).sent m hm).passes user huser
  refine ⟨hvalid, fun binding hbinding => ?_⟩
  rw [wireEncode, hvalid, hbinding, decide_eq_true (Msg.length_encode hvalid binding).2]
  rfl

end Cluster

namespace Sample

theorem sent_encodes_replicated : 9 ≤ (init.run (config trio 1) replicated).sent.length ∧
      ∀ m ∈ (init.run (config trio 1) replicated).sent, prevalidate cleared m ∧
        wireEncode cleared (some history) wireMax m = some (m.encode (some history)) := by
  have hok : Meets (config trio 1) (fun w op => op.sendOk (config trio 1) w) .init
      replicated := by decide +kernel
  refine ⟨by decide +kernel, fun m hm => ?_⟩
  have hsent := sent_encodes replicated hok m hm cleared ⟨rfl, fun _ _ => rfl⟩
  exact ⟨hsent.1, hsent.2 _ (by decide)⟩

/-- A group with pre-votes. -/
def prevoting (u : Uuid) : Config := { config trio 0 u with enablePrevote := true }

/-- The first round of pre-votes asks for term 1 under epoch 0: no frame can carry it. -/
theorem preVote_unsendable : ∃ m ∈ (init.run prevoting [opens 1, ticks 1 1000]).sent,
    cleared.Cleared m ∧ prevalidate cleared m = false ∧
      ∀ binding, wireEncode cleared binding wireMax m = none := by
  have hsent : (init.run prevoting [opens 1, ticks 1 1000]).sent[0]? =
      some ⟨['g'], peer 1, peer 2, 1, 0, .preVote 0 0⟩ := by decide +kernel
  refine ⟨_, mem_of_getElem? hsent, ⟨rfl, fun _ _ => rfl⟩, by decide +kernel, fun binding => ?_⟩
  have hinvalid : prevalidate cleared ⟨['g'], peer 1, peer 2, 1, 0, .preVote 0 0⟩ = false := by
    decide +kernel
  rw [wireEncode, hinvalid]
  rfl

end Sample

end Qihse.Consensus
