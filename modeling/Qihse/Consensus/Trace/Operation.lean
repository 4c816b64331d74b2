import Qihse.Consensus.Trace.Election
import Qihse.Consensus.Trace.Leader
import Qihse.Consensus.Trace.Follower
import Qihse.Consensus.Trace.Compaction

/-!
# Operations are sequences of actions: the entry points
-/

namespace Qihse.Consensus

open Crash Crash.Prog List Node

variable {F : Prop} {n0 : Node} {inp : Input} {c0 c c' : Conf} {p p' : Proc}

/-! ### Messages -/

variable {m : Msg}

lemma Good.rejectStale (hp : Good F n0 inp c0 p) (m : Msg) :
    Traced F n0 inp c0 (Consensus.rejectStale m) p := by
  unfold Consensus.rejectStale
  split
  · exact hp.send ⟨rfl, rfl, rfl, rfl, fun h => by simp at h⟩ fun _ _ h => h
  · exact hp.replyRefusal _ _
  · exact hp.send ⟨rfl, rfl, rfl, rfl⟩ fun _ _ h => h
  · exact hp

/-- A message that passed the filter of `qihse_consensus_receive`; a tentative vote is not matched
with the term of the node. -/
structure Passed (n0 : Node) (inp : Input) (n : Node) (m : Msg) : Prop where
  addressed : m.body.isPreVote = false → Addressed inp n m
  heeded : ¬ n0.Drops m
  intact : n0.Intact n
  folded : n.JointFolded

lemma Good.dispatch (hp : Good F n0 inp c0 p) (hm : Passed n0 inp p.node m) :
    Traced F n0 inp c0 (Consensus.dispatch m) p := by
  have haddr := hm.addressed
  unfold Consensus.dispatch
  generalize hbody : m.body = body at haddr
  cases body with
  | requestVote => exact hp.handleRequestVote (haddr rfl) hbody
  | voteReply => exact hp.handleVoteReply (haddr rfl) hbody hm.folded
  | append =>
    exact hp.handleAppend (haddr rfl) hbody hm.intact.toSameLog hm.intact.commit hm.heeded
  | appendReply => exact hp.handleAppendReply (haddr rfl) (.inl hbody)
  | snapshot => exact hp.handleSnapshot (haddr rfl) hbody hm.intact
  | snapshotReply => exact hp.handleAppendReply (haddr rfl) (.inr hbody)
  | snapshotChunk => exact hp
  | preVote => exact hp.handlePreVote _ _ _ _
  | preVoteReply => exact hp.handlePreVoteReply hm.intact _ _ _

lemma Passed.of_synced (hs : Synced m.term m.fencingEpoch p.conf p'.conf)
    (hheed : ¬ p.node.Drops m) (hle : p.node.term ≤ m.term) (hdest : m.dest = p.node.cfg.self)
    (hsender : m.sender ≠ p.node.cfg.self) (hfold : p.node.JointFolded) :
    Passed p.node (.msg m) p'.node m := by
  generalize hc : p'.conf = c' at hs
  have hnode : p'.node = c'.node := congrArg Conf.node hc
  cases hs with
  | stale ht => exact absurd hle (by simpa using ht)
  | same ht he =>
    rw [hnode]
    refine ⟨fun _ => ⟨rfl, hdest, ht, ?_, hsender⟩, hheed, ⟨⟨rfl, rfl⟩, rfl, rfl⟩, hfold⟩
    have : m.fencingEpoch ≤ max (max p.conf.node.epoch m.fencingEpoch) m.term := by omega
    exact he ▸ this
  | adopt | floor =>
    rw [hnode]
    refine ⟨fun _ => ⟨rfl, hdest, rfl, ?_, hsender⟩, hheed, ⟨⟨rfl, rfl⟩, rfl, rfl⟩,
      hfold.congr rfl rfl rfl rfl rfl⟩
    simp only [stepDown, setTermEpoch]
    omega

/-- The node's own slot is where its member list says. -/
def Node.SelfIndexed (n : Node) : Prop := n.selfIndex = n.memberIndex n.cfg.self

lemma Good.receive (hp : Good F p.node (.msg m) c0 p) (hself : p.node.SelfIndexed)
    (hfold : p.node.JointFolded) : Traced F p.node (.msg m) c0 (Consensus.receive m) p := by
  simp only [Consensus.receive, sat_bind, sat_ite, sat_pure]
  refine ⟨fun _ => hp, fun _ => ⟨fun _ => hp, fun hne => ⟨fun _ => hp, fun _ => ⟨fun _ => hp,
    fun hdest => ⟨fun _ => hp, fun hepoch => ⟨fun _ => hp.rejectStale m, fun hterm =>
    ⟨fun hnew => ?_, fun hold => ?_⟩⟩⟩⟩⟩⟩⟩
  all_goals
    have hheed : ¬ p.node.Drops m := by rintro (h | h | h | h | h | h) <;> contradiction
    have hdest : m.dest = p.node.cfg.self := by simpa using hdest
    have hsender : m.sender ≠ p.node.cfg.self := fun h => hne (by rw [h]; exact hself.symm)
  · refine hp.syncTermEpoch (by simp) (fun _ => .inl ⟨m, rfl, by simpa using hnew.1, rfl⟩) ?_ ?_
    · intro p' hs hgood
      refine on_true (hgood.dispatch ?_)
      exact .of_synced hs hheed (by omega) hdest hsender hfold
    · exact fun p' _ hgood => on_false hgood
  · refine hp.dispatch ⟨fun hpre => ?_, hheed, ⟨⟨rfl, rfl⟩, rfl, rfl⟩, hfold⟩
    simp only [hpre, Bool.not_false, true_and, not_or] at hold
    exact ⟨rfl, hdest, by omega, by omega, hsender⟩

/-! ### Tick -/

section

variable (hp : Good F n0 inp c0 p) (hrole : p.node.role = .leader)
include hp hrole

lemma Good.offerDuck (d : LameDuck) :
    Sat (Consensus.offerDuck d) p (fun _ p' => Good F n0 inp c0 p' ∧ p'.node.role = .leader)
      (Dead F n0 inp c0) := by
  simp only [Consensus.offerDuck, sat_bind, sat_ite, sat_pure, sat_modifyNode]
  refine ⟨fun _ => ?_, fun _ => ⟨hp, hrole⟩⟩
  refine (hp.sendAppendFrom hrole _ _).imp fun _ q hq => ?_
  have hr : q.node.role = .leader := hq.2 ▸ hrole
  exact ⟨fun _ => ⟨hq.1.quiet (.keep _), hr⟩, fun _ => ⟨hq.1, hr⟩⟩

lemma Good.heartbeat :
    Traced F n0 inp c0 Consensus.heartbeat p := by
  simp only [Consensus.heartbeat, sat_bind, sat_ite, sat_pure, sat_modifyNode]
  refine ⟨fun _ => ?_, fun _ => hp⟩
  have hp1 : Good F n0 inp c0 { p with node := { p.node with lastHeartbeatMs := p.node.nowMs } } :=
    hp.quiet (.keep _)
  refine (hp1.sendAppends hrole _).imp fun _ q hq => ?_
  have hr : q.node.role = .leader := hq.2 ▸ hrole
  refine (Sat.forEach (I := fun q => Good F n0 inp c0 q ∧ q.node.role = .leader) ⟨hq.1, hr⟩
    fun d _ q hq => hq.1.offerDuck hq.2 d).imp fun _ _ h => h.1

end

lemma Good.tick (hp : Good F p.node inp c0 p) (now : ℕ) :
    Traced F p.node inp c0 (Consensus.tick now) p := by
  simp only [Consensus.tick, sat_bind, sat_ite, sat_pure, sat_modifyNode]
  have hp1 : Good F p.node inp c0 { p with node := { p.node with nowMs := now } } :=
    hp.quiet (.keep _)
  have hsame : p.node.Intact { p.node with nowMs := now } := ⟨⟨rfl, rfl⟩, rfl, rfl⟩
  refine ⟨fun hrole => ?_, fun _ => ⟨fun _ => ⟨fun _ => hp1.startPrevote hsame, fun _ =>
    hp1.startElection hsame⟩, fun _ => hp1⟩⟩
  exact hp1.tryCompact.imp fun _ q hq => hq.1.heartbeat (hq.2.trans hrole)

/-! ### Client calls -/

lemma Good.propose {gen : ℕ} {hlc : Hlc} {classif sci : ℕ} {payload : List UInt8}
    (hp : Good F n0 (.entry gen hlc classif sci payload) c0 p) (user : User) :
    Traced F n0 (.entry gen hlc classif sci payload) c0
      (Consensus.propose user gen hlc classif sci payload) p := by
  simp only [Consensus.propose, sat_bind, sat_ite, sat_pure, sat_modifyNode, logPush]
  refine ⟨fun _ => hp, fun hrole => ⟨fun _ => hp, fun hlen => ⟨fun _ => hp, fun hgen =>
    ⟨fun _ => hp, fun _ => ⟨fun _ => hp, fun _ => ?_⟩⟩⟩⟩⟩
  have hok : AppendOk n0 (.entry gen hlc classif sci payload) p.node
      ⟨p.node.absLastIndex + 1, p.node.term, gen, hlc, classif, sci, .data, payload⟩ := by
    refine .data (by simpa using hrole) rfl rfl rfl rfl ?_ fun h => ?_
    · show 0 < payload.length ∧ payload.length ≤ payloadMax
      omega
    · by_contra hle
      exact hgen ⟨h, by simpa using hle⟩
  refine hp.store (e := ⟨p.node.absLastIndex + 1, p.node.term, gen, hlc, classif, sci, .data,
    payload⟩) (fun r hr => .append p.conf _ r hok hr) (.inl hok) ?_ ?_
  · intro p' hn hgood
    refine on_true ?_
    rw [hn]
    exact (hgood.quiet (.matchSelf _)).advanceCommit.imp fun _ _ h => h.1
  · exact fun p' _ hgood => on_false hgood

lemma Good.proposeMembershipRole {op : MembershipOp} {member : Uuid} {role : MemberRole}
    {weight : ℕ} (hp : Good F n0 (.single op member role weight) c0 p) (user : User) :
    Traced F n0 (.single op member role weight) c0
      (Consensus.proposeMembershipRole user op member role weight) p := by
  simp only [Consensus.proposeMembershipRole, sat_bind, sat_ite, sat_pure,
    sat_modifyNode, logPush]
  refine ⟨fun _ => hp, fun hacc => ⟨fun _ => hp, fun hfold => ?_⟩⟩
  simp only [membershipAcceptable, Bool.not_eq_true, Bool.not_eq_false', Bool.and_eq_true,
    decide_eq_true_eq] at hacc
  obtain ⟨⟨⟨⟨⟨⟨⟨hrole, -⟩, -⟩, hnil⟩, hweight⟩, hcommit⟩, hactive⟩, hop⟩ := hacc
  have hany : ∀ e : Entry, e.type = op.entryType → e.persistAny = e.persistConfigEntry := by
    intro e he
    cases op <;> simp [Entry.persistAny, he, MembershipOp.entryType]
  have hok : AppendOk n0 (.single op member role weight) p.node (p.node.stamp
      (.ofConfig op.entryType (membershipPayload op member role weight))) := by
    refine .single op member role weight rfl hrole hnil ?_ hcommit (by simpa using hactive) ?_ rfl
      hfold
    · rintro rfl
      simp only [ne_eq, not_true_eq_false, decide_false, Bool.false_or, Bool.and_eq_true,
        decide_eq_true_eq] at hweight
      omega
    · cases op with
      | add =>
        simp only [Bool.and_eq_true] at hop
        simp [Option.isNone_iff_eq_none.mp hop.1.1]
      | remove =>
        simp only [Bool.and_eq_true] at hop
        simp [hop.1]
  rw [← hany _ rfl]
  refine hp.store (fun r hr => .append p.conf _ r hok hr) (.inl hok) ?_ ?_
  · intro p' hn hgood
    refine on_true ?_
    have htype : op.entryType ≠ .data := by cases op <;> simp [MembershipOp.entryType]
    rw [Proc.conf_node, pushed, if_neg (by exact htype)] at hgood
    rw [hn]
    refine ⟨fun _ => ?_, fun _ => hgood⟩
    exact (hgood.quiet (.matchSelf _)).advanceCommit.imp fun _ _ h => h.1
  · exact fun p' _ hgood => on_false hgood

/-- A joint sequence of which the first `j` entries are in the log. -/
structure Joining (n0 : Node) (add remove : List Uuid) (j : ℕ) (n : Node) : Prop where
  term : n.term = n0.term
  role : n.role ≠ .candidate
  last : n.absLastIndex = n0.absLastIndex + j
  commit : n.commit = n0.commit
  before : n.entries.take n0.absLastIndex = n0.entries
  done : ∀ i x, i < j → n.entries[n0.absLastIndex + i]? = some x →
    ∃ d, (jointSequence add remove)[i]? = some d ∧ x.type = d.type ∧ x.payload = d.payload

variable {add remove : List Uuid} {j : ℕ} {n : Node}

lemma jointSequence_type {d : Entry} (hd : (jointSequence add remove)[j]? = some d) :
    d.type ≠ .data := by
  have hmem := mem_of_getElem? hd
  simp only [jointSequence, mem_append, mem_cons, mem_map, not_mem_nil,
    or_false] at hmem
  rcases hmem with ((rfl | ⟨u, -, rfl⟩) | ⟨u, -, rfl⟩) | rfl <;> simp [Entry.ofConfig]

lemma Joining.next {d : Entry} (h : Joining n0 add remove j n)
    (hd : (jointSequence add remove)[j]? = some d) :
    Joining n0 add remove (j + 1) (n.push (n.stamp d)).recomputed := by
  have hr := (n.push (n.stamp d)).refolded_recomputed
  have hent : (n.push (n.stamp d)).recomputed.entries = n.entries ++ [n.stamp d] :=
    hr.sameLog.entries.trans (n.entries_push _)
  refine ⟨hr.term.trans h.term, ?_, ?_, hr.commit.trans h.commit, ?_, fun i x hi hx => ?_⟩
  · rcases hr.role with hrole | hrole <;> rw [hrole]
    · exact h.role
    · simp
  · rw [hr.sameLog.absLastIndex, absLastIndex_push, h.last, add_assoc]
  · rw [hent, take_append_of_le_length (by rw [entries_length, h.last]; omega)]
    exact h.before
  · rw [hent] at hx
    rcases Nat.lt_succ_iff_lt_or_eq.mp hi with hlt | rfl
    · rw [getElem?_append_left (by rw [entries_length, h.last]; omega)] at hx
      exact h.done i x hlt hx
    · rw [← h.last, ← entries_length, getElem?_concat_length, Option.some.injEq] at hx
      subst hx
      exact ⟨d, hd, rfl, rfl⟩

lemma Good.jointAppendAll {user : User} (hacc : n0.jointAcceptable user add remove)
    {rest : List Entry} (hp : Good F n0 (.joint add remove) c0 p)
    (hj : Joining n0 add remove j p.node)
    (hrest : (jointSequence add remove).drop j = rest) :
    Traced F n0 (.joint add remove) c0
      (Consensus.jointAppendAll rest (n0.absLastIndex + j + 1)) p := by
  induction rest generalizing j p with
  | nil => exact hp
  | cons d rest ih =>
    have hd := getElem?_of_drop hrest
    simp only [jointAppendAll, sat_bind, sat_ite, sat_pure]
    refine hp.jointAppendOne (by rw [hj.last]) (jointSequence_type hd) ?_ ?_ ?_
    · exact fun hfold => .joint user add remove j d rfl hacc hj.term hj.last hj.commit hd rfl
        hj.before hj.done hfold
    · intro p' _ hn hgood
      refine on_true ?_
      exact ih hgood (hn ▸ hj.next hd) (drop_succ_of_drop hrest)
    · exact fun p' _ hgood => on_false hgood

lemma Good.proposeJoint (hp : Good F p.node (.joint add remove) c0 p) (user : User) :
    Traced F p.node (.joint add remove) c0 (Consensus.proposeJoint user add remove) p := by
  simp only [Consensus.proposeJoint, sat_bind, sat_ite, sat_pure, sat_modifyNode]
  refine ⟨fun _ => hp, fun hacc => ?_⟩
  have hacc : p.node.jointAcceptable user add remove := by simpa using hacc
  have hrole : p.node.role = .leader := by
    simp only [jointAcceptable, Bool.and_eq_true, decide_eq_true_eq] at hacc
    exact hacc.1.1.1.1.1.1.1.1.1.1.1
  have hj : Joining p.node add remove 0 p.node :=
    ⟨rfl, by simp [hrole], rfl, rfl, take_of_length_le (by simp),
      fun _ _ h => absurd h (Nat.not_lt_zero _)⟩
  refine (hp.jointAppendAll hacc hj rfl).imp fun r q hq => ⟨fun _ => ?_, fun _ => hq⟩
  exact (hq.quiet (.matchSelf _)).advanceCommit.imp fun _ _ h => h.1

end Qihse.Consensus
