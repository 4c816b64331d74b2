import Qihse.Consensus.Trace.Rules
import Qihse.Consensus.Fold

/-!
# Operations are sequences of actions: the leader
-/

namespace Qihse.Consensus

open Crash Crash.Prog List Node

variable {F : Prop} {n0 : Node} {inp : Input} {c0 c c' : Conf} {p p' : Proc}

/-! ### Commitment -/

lemma Node.commitTarget_spec {n : Node} {k : ℕ} (h : n.commitTarget = some k) :
    n.commit < k ∧ k ≤ n.absLastIndex ∧ n.termAt k = n.term ∧ n.ackQuorum k := by
  obtain hmem := mem_of_find?_eq_some h
  have hprop := find?_some h
  simp only [mem_reverse, mem_range'_1] at hmem
  simp only [Bool.and_eq_true, decide_eq_true_eq] at hprop
  exact ⟨by omega, by omega, hprop.1, hprop.2⟩

/-- The leader moves its commit index or does nothing. -/
lemma Good.advanceCommit (hp : Good F n0 inp c0 p) :
    Sat Consensus.advanceCommit p (fun _ p' => Good F n0 inp c0 p' ∧
      ∃ k, p'.node = p.node.setCommit k)
      (Dead F n0 inp c0) := by
  have hsame : ∃ k, p.node = p.node.setCommit k := ⟨p.node.commit, rfl⟩
  simp only [Consensus.advanceCommit, sat_read, sat_ite, sat_pure]
  refine ⟨fun _ => ⟨hp, hsame⟩, fun hrole => ?_⟩
  have hrole : p.node.role = .leader := by simpa using hrole
  cases hk : p.node.commitTarget with
  | none => exact ⟨hp, hsame⟩
  | some k =>
    obtain ⟨hlt, hle, hterm, hq⟩ := commitTarget_spec hk
    simp only [sat_ite, sat_bind, sat_pure]
    refine ⟨fun _ => ?_, fun _ => ⟨hp, hsame⟩⟩
    refine hp.persistCommit (.commit p.conf k hrole hlt hle hterm hq) ?_ ?_
    · exact fun p' hn hgood => ⟨hgood, k, hn⟩
    · exact fun p' hn hgood => ⟨hgood, by rw [hn]; exact hsame⟩

/-! ### Replication by the leader -/

section

variable (hp : Good F n0 inp c0 p)
include hp

section

variable (hrole : p.node.role = .leader)
include hrole

lemma Good.sendSnapshotTo (dest : Uuid) (next : ℕ) :
    Sat (Consensus.sendSnapshotTo dest next) p (fun _ p' => Good F n0 inp c0 p' ∧ p'.node = p.node)
      (Dead F n0 inp c0) := by
  simp only [Consensus.sendSnapshotTo, sat_read, sat_ite, sat_pure]
  refine ⟨fun _ => ⟨fun _ => ?_, fun _ => ⟨fun _ => ⟨hp, trivial⟩, fun _ => ⟨fun _ => ?_,
    fun _ => ?_⟩⟩⟩, fun _ => ?_⟩
  · exact hp.send ⟨rfl, rfl, rfl, rfl, hrole, .inl ⟨rfl, rfl, rfl, .inl rfl⟩⟩ fun _ hn h => ⟨h, hn⟩
  · exact hp.send ⟨rfl, rfl, rfl, rfl, hrole, .inl ⟨rfl, rfl, rfl, .inr rfl⟩⟩ fun _ hn h => ⟨h, hn⟩
  · exact hp.send ⟨rfl, rfl, rfl, rfl⟩ fun _ hn h => ⟨h, hn⟩
  · exact hp.send ⟨rfl, rfl, rfl, rfl, hrole, rfl⟩ fun _ hn h => ⟨h, hn⟩

lemma Good.sendAppendFrom (dest : Uuid) (next : ℕ) :
    Sat (Consensus.sendAppendFrom dest next) p (fun _ p' => Good F n0 inp c0 p' ∧ p'.node = p.node)
      (Dead F n0 inp c0) := by
  simp only [Consensus.sendAppendFrom, sat_read, sat_ite]
  refine ⟨fun _ => hp.sendSnapshotTo hrole dest _, fun _ => ?_⟩
  exact hp.send ⟨rfl, rfl, rfl, rfl, hrole, .inr ⟨rfl, rfl, rfl⟩⟩ fun _ hn h => ⟨h, hn⟩

lemma Good.sendAppends (xs : List (Member × ℕ)) :
    Sat (forEach xs sendAppendTo) p (fun _ p' => Good F n0 inp c0 p' ∧ p'.node = p.node)
      (Dead F n0 inp c0) := by
  refine hp.sendAll fun x _ q hq hgood => ?_
  simp only [sendAppendTo, sat_read]
  exact (hgood.sendAppendFrom (hq ▸ hrole) _ _).imp fun _ _ h => ⟨h.1, h.2.trans hq⟩

end

end

/-! ### Appends by the leader -/

lemma Quiet.matchSelf (n : Node) : Quiet n n.matchSelf := by
  cases hself : n.selfIndex with
  | none =>
    have heq : n.matchSelf = n := by simp [Node.matchSelf, hself]
    rw [heq]
    exact .keep n
  | some i =>
    have heq : n.matchSelf = { n with matchIndex := n.matchIndex.set i n.absLastIndex } := by
      simp [Node.matchSelf, hself]
    rw [heq]
    refine ⟨rfl, rfl, rfl, rfl, rfl, rfl, rfl, rfl, rfl, rfl, .inl rfl, fun _ => rfl, ?_⟩
    intro _ k
    by_cases hki : i = k
    · subst hki
      refine .inr ⟨hself.symm, ?_⟩
      simp only [getD_eq_getElem?_getD, getElem?_set_self']
      cases n.matchIndex[i]? <;> simp
    · exact .inl (by simp [getD_eq_getElem?_getD, getElem?_set_ne hki])

lemma Node.matchSelf_role (n : Node) : n.matchSelf.role = n.role := by
  unfold matchSelf
  split <;> rfl

lemma Good.jointAppendOne (hp : Good F n0 inp c0 p) {d : Entry} {index : ℕ} {Q : Bool → Proc → Prop}
    (hindex : index = p.node.absLastIndex + 1) (htype : d.type ≠ .data)
    (hok : p.node.foldMembership (some (p.node.stamp d)) ≠ none →
      AppendOk n0 inp p.node (p.node.stamp d))
    (hdone : ∀ p', p.node.foldMembership (some (p.node.stamp d)) ≠ none →
      p'.node = (p.node.push (p.node.stamp d)).recomputed → Good F n0 inp c0 p' → Q true p')
    (hfail : ∀ p', p'.node = p.node → Good F n0 inp c0 p' → Q false p') :
    Sat (Consensus.jointAppendOne d index) p Q (Dead F n0 inp c0) := by
  subst hindex
  simp only [Consensus.jointAppendOne, sat_bind, sat_ite, sat_pure]
  refine ⟨fun _ => hfail p rfl hp, fun hfold => ?_⟩
  refine hp.store (fun r hr => .append p.conf _ r (hok hfold) hr) (.inl (hok hfold)) ?_ ?_
  · intro p' hn hgood
    refine on_true ?_
    have hpushed : p.node.pushed (p.node.stamp d) = (p.node.push (p.node.stamp d)).recomputed :=
      if_neg htype
    rw [Proc.conf_node, hpushed] at hgood
    refine hdone _ hfold (by rw [hn]; rfl) ?_
    rw [hn]
    exact hgood
  · exact fun p' hn hgood => on_false (hfail p' hn hgood)

lemma Node.foldMembership_push (n : Node) (e : Entry) :
    (n.push e).foldMembership none = n.foldMembership (some e) := by
  unfold foldMembership
  rw [entries_push, foldFull_push]
  rfl

/-- Closing a joint phase leaves the folded members alone. -/
lemma Node.foldMembership_marker {n : Node} {e : Entry} {ms : List Member}
    (htype : e.type ≠ .configAdd ∧ e.type ≠ .configRemove) (hms : n.foldMembership none = some ms)
    (hfold : n.foldMembership (some e) ≠ none) : n.foldMembership (some e) = some ms := by
  obtain ⟨ms', hms'⟩ := Option.ne_none_iff_exists'.mp hfold
  obtain ⟨f, g, k, hstep, rfl, rfl⟩ := foldMembership_step hms hms'
  rw [hms', Fold.step_members hstep htype]

lemma Node.JointFolded.congr {n n' : Node} (h : n.JointFolded) (hcfg : n'.cfg = n.cfg)
    (hsnap : n'.snap = n.snap) (hlog : n'.log = n.log) (hcommit : n'.commit = n.commit)
    (hmembers : n'.members = n.members) : n'.JointFolded := by
  simpa only [JointFolded, foldAtCommit, foldMembership, entries, hcfg, hsnap,
    hlog, hcommit, hmembers] using h

section

variable (hp : Good F n0 inp c0 p)
include hp

lemma Good.jointEnsureClosed (hfold : p.node.JointFolded) : Sat Consensus.jointEnsureClosed p
      (fun _ p' => Good F n0 inp c0 p' ∧ p'.node.role = p.node.role) (Dead F n0 inp c0) := by
  simp only [Consensus.jointEnsureClosed, sat_read, sat_ite, sat_pure]
  refine ⟨fun _ => ⟨hp, trivial⟩, fun hrole => ?_⟩
  have hrole : p.node.role = .leader := by simpa using hrole
  cases hf : p.node.foldAtCommit with
  | none => exact ⟨hp, rfl⟩
  | some f =>
    simp only [sat_bind, sat_ite, sat_pure, sat_modifyNode]
    refine ⟨fun _ => ⟨hp, trivial⟩, fun hopen => ?_⟩
    obtain ⟨hactive, hend⟩ : f.active ∧ f.endIndex = 0 := by simpa using hopen
    refine hp.jointAppendOne rfl (by rintro ⟨⟩) ?_ ?_ ?_
    · exact fun h => .close f hrole hf hactive hend rfl h
    · intro p' hok hn hgood
      have hsame : (p.node.push (p.node.stamp (.ofConfig .jointEnd []))).recomputed =
          p.node.push (p.node.stamp (.ofConfig .jointEnd [])) := by
        have hms := foldMembership_marker (by simp [stamp, Entry.ofConfig])
          (hfold f hf hactive) hok
        unfold recomputed recomputeMembership
        rw [foldMembership_push, hms]
        simp [push]
      refine on_true ?_
      refine ((hgood.quiet (.matchSelf _)).advanceCommit).imp fun _ q hq => ⟨hq.1, ?_⟩
      obtain ⟨k, hk⟩ := hq.2
      rw [hk, hn, hsame]
      exact matchSelf_role _
    · exact fun p' hn hgood => on_false ⟨hgood, by rw [hn]⟩

lemma Good.handleVoteReply {m : Msg} {granted : Bool}
    (hm : Addressed inp p.node m) (hbody : m.body = .voteReply granted)
    (hfold : p.node.JointFolded) :
    Traced F n0 inp c0 (Consensus.handleVoteReply m.sender granted) p := by
  simp only [Consensus.handleVoteReply, sat_bind, sat_ite, sat_pure]
  refine ⟨fun _ => hp, fun hcand => ?_⟩
  obtain ⟨hrole, rfl⟩ : p.node.role = .candidate ∧ granted = true := by simpa using hcand
  cases hi : p.node.memberIndex m.sender with
  | none => exact hp
  | some i =>
    simp only [sat_bind, sat_ite, sat_pure, sat_modifyNode]
    have hp1 : Good F n0 inp c0 { p with node := p.node.countVote i } :=
      hp.node (.tally p.conf m i hm hbody hrole hi)
    refine ⟨fun hwin => ?_, fun _ => hp1⟩
    have hp2 := hp1.node (.win _ hrole hwin)
    have hlead : (p.node.countVote i).lead.matchSelf.role = .leader := matchSelf_role _
    have hq := Quiet.matchSelf (p.node.countVote i).lead
    have hfold2 : (p.node.countVote i).lead.matchSelf.JointFolded :=
      hfold.congr hq.cfg hq.snap hq.log hq.commit hq.members
    refine (hp2.jointEnsureClosed hfold2).imp fun _ q hq => ?_
    exact (hq.1.sendAppends (hq.2.trans hlead) _).imp fun _ _ h => h.1

lemma Good.handleAppendReply {m : Msg} {success : Bool} {k : ℕ} (hm : Addressed inp p.node m)
    (hbody : m.body = .appendReply success k ∨ m.body = .snapshotReply success k) :
    Traced F n0 inp c0 (Consensus.handleAppendReply m.sender success k) p := by
  simp only [Consensus.handleAppendReply, sat_read, sat_ite, sat_pure]
  refine ⟨fun _ => hp, fun hrole => ?_⟩
  have hrole : p.node.role = .leader := by simpa using hrole
  cases hi : p.node.memberIndex m.sender with
  | none => exact hp.quiet (.keep _)
  | some i =>
    simp only [sat_bind, sat_ite, sat_modifyNode]
    refine ⟨?_, fun _ => ?_⟩
    · rintro rfl
      exact ((hp.node (.matched p.conf m i k hm hbody hrole hi)).advanceCommit).imp fun _ _ h => h.1
    · exact hp.quiet (.keep _)

end

end Qihse.Consensus
