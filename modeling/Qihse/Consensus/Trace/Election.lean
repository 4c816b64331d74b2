import Qihse.Consensus.Trace.Rules

/-!
# Operations are sequences of actions: terms, votes and elections
-/

namespace Qihse.Consensus

open Crash Crash.Prog

variable {F : Prop} {n0 : Node} {inp : Input} {c0 c c' : Conf} {p p' : Proc}

/-! ### Terms and votes -/

/-- How `syncTermEpoch` may have changed the node. -/
inductive Synced (t e : ℕ) (c : Conf) : Conf → Prop
  | stale (ht : t < c.node.term) : Synced t e c c
  | same (ht : t = c.node.term) (he : max (max c.node.epoch e) t = c.node.epoch) : Synced t e c c
  | adopt (ht : c.node.term < t) :
      Synced t e c ⟨(c.node.setTermEpoch t (max (max c.node.epoch e) t) none).stepDown,
        c.disk ++ [Line.record (.vote t none (max (max c.node.epoch e) t))], c.out⟩
  | floor (ht : t = c.node.term) (he : c.node.epoch < max (max c.node.epoch e) t) :
      Synced t e c ⟨c.node.setTermEpoch t (max (max c.node.epoch e) t) c.node.votedFor,
        c.disk ++ [Line.record (.vote t c.node.votedFor (max (max c.node.epoch e) t))], c.out⟩

lemma Good.syncTermEpoch (hp : Good F n0 inp c0 p) {t e : ℕ} {reset : Bool}
    {Q : Bool → Proc → Prop} (hreset : reset → t ≠ p.node.term)
    (hsrc : p.node.term < t → Heard inp t ∨ t = p.node.term + 1)
    (hok : ∀ p', Synced t e p.conf p'.conf → Good F n0 inp c0 p' → Q true p')
    (hfail : ∀ p', p'.node = p.node → Good F n0 inp c0 p' → Q false p') :
    Sat (Consensus.syncTermEpoch t e reset) p Q (Dead F n0 inp c0) := by
  simp only [Consensus.syncTermEpoch, sat_bind, sat_ite, sat_modifyNode, sat_pure]
  refine ⟨fun ht => hok p (.stale ht) hp, fun ht => ⟨fun hsame => ?_, fun hnew => ?_⟩⟩
  · have htt : t = p.node.term := by omega
    refine hok p (.same htt ?_) hp
    rw [hsame.1, ← htt] at hsame
    exact hsame.2
  rcases lt_or_eq_of_le (Nat.le_of_not_lt ht) with hlt | rfl
  · -- a newer term
    have hmax : max t p.node.term = t := by omega
    have he : max p.node.epoch t ≤ max (max p.node.epoch e) t := by omega
    simp only [hmax, hlt, or_true, if_true]
    refine hp.persistTo (hp.reach (.adopt p.conf t _ hlt he (hsrc hlt)))
      (.adopt t _ hlt he (hsrc hlt)) rfl ?_ ?_
    · intro p' hn hd ho hio hgood
      refine on_true ⟨fun _ => ?_, fun h => absurd trivial h⟩
      rw [hn]
      refine hok _ ?_ hgood
      simp only [Proc.conf, hd, ho]
      exact .adopt hlt
    · intro p' hn hgood
      refine on_false ?_
      rw [hn]
      exact hfail _ rfl hgood
  · -- only the epoch moves
    have hr : reset = false := by simpa using fun hr => hreset hr rfl
    simp only [Nat.max_self, hr, lt_irrefl, Bool.false_eq_true, or_self, if_false] at hnew ⊢
    have he : p.node.epoch < max (max p.node.epoch e) p.node.term := by
      have hne : max (max p.node.epoch e) p.node.term ≠ p.node.epoch := fun h => hnew ⟨trivial, h⟩
      omega
    have ht : p.node.term ≤ max (max p.node.epoch e) p.node.term := by omega
    refine hp.persistTo (hp.reach (.floor p.conf _ he ht)) (.floor _ he) rfl ?_ ?_
    · intro p' hn hd ho hio hgood
      refine on_true ⟨fun h => h.elim, fun _ => ?_⟩
      have hconf : p'.conf = _ := congrArg₂ (Conf.mk · · p'.out) hn hd
      rw [ho] at hconf
      refine hok p' ?_ ⟨?_, hio⟩
      · rw [hconf]
        exact .floor rfl he
      · rw [hconf, ← hd, ← ho]
        exact hgood.acts
    · intro p' hn hgood
      refine on_false ?_
      rw [hn]
      exact hfail _ rfl hgood

/-- A vote made durable, where `f` is what the caller goes on to do with the node. -/
lemma Good.persistVoteFor (hp : Good F n0 inp c0 p) {u : Uuid} {Q : Bool → Proc → Prop}
    (f : Node → Node)
    (hacts : fileSize (p.disk ++ [Line.record (.vote p.node.term (some u) p.node.epoch)]) ≤
      fileSizeMax → p.node.recQuarantined = false → Acts F n0 inp c0 ⟨f (p.node.setVote (some u)),
        p.disk ++ [Line.record (.vote p.node.term (some u) p.node.epoch)], p.out⟩)
    (hv : p.node.votedFor = none ∨ 2 ^ 64 ≤ p.node.term + 1)
    (hok : ∀ p', p'.node = p.node.setVote (some u) →
      Good F n0 inp c0 { p' with node := f p'.node } → Q true p')
    (hfail : ∀ p', p'.node = p.node → Good F n0 inp c0 p' → Q false p') :
    Sat (Consensus.persistVoteFor u) p Q (Dead F n0 inp c0) := by
  simp only [Consensus.persistVoteFor, sat_bind, sat_ite, sat_modifyNode, sat_pure]
  refine hp.persistTo hacts (.ballot u hv) rfl ?_ ?_
  · intro p' hn _ _ _ hgood
    rw [← hn] at hgood
    exact on_true (hok p' hn hgood)
  · intro p' hn hgood
    refine on_false ?_
    rw [hn]
    exact hfail _ rfl hgood

/-! ### Elections -/

lemma Good.resetTimer (hp : Good F n0 inp c0 p) :
    Good F n0 inp c0 { p with node := p.node.resetTimer } :=
  hp.quiet (.keep _)

lemma Good.requestVotes {i : ℕ}
    (hp : Good F n0 inp c0 { p with node := p.node.runFor .candidate i }) :
    Traced F n0 inp c0 (Consensus.requestVotes i) p := by
  refine (hp.sendAll fun x _ q hq hgood => ?_).imp fun _ _ h => h.1
  refine hgood.send ?_ fun p' hn h => ⟨h, hn.trans hq⟩
  rw [hq]
  exact ⟨rfl, rfl, rfl, rfl, rfl, rfl, rfl⟩

lemma tame_syncTermEpoch (t e : ℕ) (b : Bool) : Tame F (Consensus.syncTermEpoch t e b) :=
  tame_getNode.bind fun _ => .ite (tame_pure _) <| .ite (tame_pure _) <|
    (tame_modifyNode _).bind fun _ => (tame_recordAppend _).bind fun _ =>
      .ite (.ite ((tame_modifyNode _).bind fun _ => tame_pure _) (tame_pure _))
        ((tame_modifyNode _).bind fun _ => tame_pure _)

lemma tame_persistVoteFor (u : Uuid) : Tame F (Consensus.persistVoteFor u) :=
  tame_getNode.bind fun _ => (tame_modifyNode _).bind fun _ => (tame_recordAppend _).bind fun _ =>
    .ite (tame_pure _) ((tame_modifyNode _).bind fun _ => tame_pure _)

lemma tame_requestVotes (i : ℕ) : Tame F (Consensus.requestVotes i) :=
  (tame_modifyNode _).bind fun _ => tame_getNode.bind fun _ =>
    .forEach fun _ => tame_getNode.bind fun _ _ hp => ⟨id, hp⟩

lemma Good.startElection (hp : Good F n0 inp c0 p) (hsame : n0.Intact p.node) :
    Traced F n0 inp c0 Consensus.startElection p := by
  simp only [Consensus.startElection, sat_read]
  cases hself : p.node.selfIndex with
  | none => exact hp
  | some i =>
    rcases lt_or_ge (p.node.term + 1) (2 ^ 64) with hlt | hge
    · have hu : u64 (p.node.term + 1) = p.node.term + 1 := Nat.mod_eq_of_lt hlt
      simp only [sat_ite, sat_bind, sat_pure, sat_getNode, sat_modifyNode, hu]
      refine ⟨fun _ => hp, fun hlearn => ?_⟩
      have hlearn : p.node.selfIsLearner = false := by simpa using hlearn
      refine hp.syncTermEpoch (fun _ => by omega) (fun _ => .inr rfl) ?_ ?_
      · intro p1 hs hgood1
        refine on_true ?_
        generalize hc : p1.conf = c1 at hs
        cases hs with
        | stale ht | same ht | floor ht => exact absurd ht (by simp)
        | adopt =>
          obtain ⟨n1, d1, o1, io1, f1⟩ := p1
          obtain ⟨rfl, rfl, rfl⟩ : n1 = _ ∧ d1 = _ ∧ o1 = _ := by simpa [Proc.conf] using hc
          refine ⟨fun h => by simp [Node.stepDown, Node.setTermEpoch] at h, fun _ => ?_⟩
          refine hgood1.persistVoteFor (·.runFor .candidate i) (fun hfit hq => ?_) (.inl rfl)
            ?_ ?_
          · have hact : Act F n0 inp p.conf _ := .campaign p.conf i
              (max p.node.epoch (max (u64 (p.node.epoch + 1)) (p.node.term + 1)))
              hsame hself hlearn hlt (by simp only [Proc.conf_node]; omega)
            refine hp.acts.tail ⟨?_, fun _ => hfit, .inr (.inl hq)⟩
            rw [List.append_assoc]
            exact hact
          · exact fun p' _ hgood => on_true hgood.requestVotes
          · exact fun p' hn hgood => on_false hgood.resetTimer
      · intro p1 hn hgood
        exact on_false hgood.resetTimer
    · refine hp.wrapped ?_ hge
      refine .ite (tame_pure _) ((tame_syncTermEpoch _ _ _).bind fun _ =>
        .ite ?_ (tame_modifyNode _))
      refine tame_getNode.bind fun _ => .ite (tame_requestVotes _) ?_
      exact (tame_persistVoteFor _).bind fun _ => .ite (tame_requestVotes _) (tame_modifyNode _)

lemma Quiet.of_preCandidate {n n' : Node} (hrole : n'.role = .preCandidate)
    (hcore : n' = { n with
      role := n'.role, leader := n'.leader, votesGrantedMask := n'.votesGrantedMask,
      lastLeaderContactMs := n'.lastLeaderContactMs }) : Quiet n n' := by
  refine ⟨?_, ?_, ?_, ?_, ?_, ?_, ?_, ?_, ?_, ?_, .inr (.inr hrole), fun h => ?_, fun h => ?_⟩
  any_goals rw [hcore]
  all_goals simp [hrole] at h

section

variable (hp : Good F n0 inp c0 p)
include hp

lemma Good.startPrevote (hsame : n0.Intact p.node) :
    Traced F n0 inp c0 Consensus.startPrevote p := by
  simp only [Consensus.startPrevote, sat_read]
  cases p.node.selfIndex with
  | none => exact hp
  | some i =>
    simp only [sat_ite, sat_bind, sat_pure, sat_modifyNode]
    have hp1 : Good F n0 inp c0 { p with node := p.node.runFor .preCandidate i } :=
      hp.quiet (.of_preCandidate rfl rfl)
    have hsame1 : n0.Intact (p.node.runFor .preCandidate i) :=
      ⟨⟨hsame.snap, hsame.log⟩, hsame.commit, hsame.members⟩
    refine ⟨fun _ => hp, fun _ => ⟨fun _ => hp1.startElection hsame1, fun _ => ?_⟩⟩
    refine (hp1.sendAll fun x _ q hq hgood => ?_).imp fun _ _ h => h.1
    exact ⟨hgood.step (.send q.conf _ ⟨rfl, rfl, rfl, trivial⟩) (fits_refl _) (.inl rfl)
      hgood.io, hq⟩

lemma Good.handlePreVote (sender : Uuid) (t lastIndex lastTerm : ℕ) :
    Traced F n0 inp c0 (Consensus.handlePreVote sender t lastIndex lastTerm) p := by
  have hreply (b : Bool) : Traced F n0 inp c0 (Consensus.send sender (.preVoteReply b)) p :=
    hp.send ⟨rfl, rfl, rfl, rfl⟩ fun _ _ h => h
  simp only [Consensus.handlePreVote, sat_read, sat_ite, sat_pure]
  exact ⟨fun _ => hp, fun _ => ⟨fun _ => hreply _, fun _ => ⟨fun _ => hreply _, fun _ => hreply _⟩⟩⟩

lemma Good.handlePreVoteReply (hsame : n0.Intact p.node) (sender : Uuid) (t : ℕ) (granted : Bool) :
    Traced F n0 inp c0 (Consensus.handlePreVoteReply sender t granted) p := by
  simp only [Consensus.handlePreVoteReply, sat_bind, sat_ite, sat_pure]
  refine ⟨fun _ => hp, fun hpre => ?_⟩
  have hrole : p.node.role = .preCandidate := by simpa using fun h => hpre (.inl h)
  cases p.node.memberIndex sender with
  | none => exact hp
  | some i =>
    simp only [sat_bind, sat_ite, sat_pure, sat_modifyNode]
    have hp1 : Good F n0 inp c0 { p with node := p.node.countVote i } :=
      hp.quiet (.of_preCandidate hrole rfl)
    have hsame1 : n0.Intact (p.node.countVote i) :=
      ⟨⟨hsame.snap, hsame.log⟩, hsame.commit, hsame.members⟩
    exact ⟨fun _ => hp1.startElection hsame1, fun _ => hp1⟩

end

/-! ### Votes -/

lemma Good.confirmVote {sender : Uuid}
    (hp : Good F n0 inp c0 { p with node := { p.node.resetTimer with role := .follower } })
    (hv : p.node.votedFor = some sender) :
    Traced F n0 inp c0 (Consensus.confirmVote sender) p := by
  simp only [Consensus.confirmVote, sat_bind, sat_modifyNode]
  exact hp.send ⟨rfl, rfl, rfl, rfl, fun _ => hv⟩ fun _ _ h => h

lemma Good.handleRequestVote (hp : Good F n0 inp c0 p) {m : Msg} {lastIndex lastTerm : ℕ}
    (hm : Addressed inp p.node m) (hbody : m.body = .requestVote lastIndex lastTerm) :
    Traced F n0 inp c0 (Consensus.handleRequestVote m.sender lastIndex lastTerm) p := by
  have hrefuse {q : Proc} (hq : Good F n0 inp c0 q) :
      Traced F n0 inp c0 (Consensus.send m.sender (.voteReply false)) q :=
    hq.send ⟨rfl, rfl, rfl, rfl, fun h => by simp at h⟩ fun _ _ h => h
  simp only [Consensus.handleRequestVote, sat_bind, sat_ite, sat_pure]
  refine ⟨fun _ => hp, fun hmem => ⟨fun _ => hrefuse hp, fun hlearn => ⟨fun hv => ?_, fun _ =>
    ⟨fun hv => ?_, fun _ => hrefuse hp⟩⟩⟩⟩
  · refine confirmVote (hp.quiet ?_) hv.2
    exact ⟨rfl, rfl, rfl, rfl, rfl, rfl, rfl, rfl, rfl, rfl, .inr (.inl rfl),
      by rintro ⟨⟩, by rintro ⟨⟩⟩
  · push Not at hmem
    refine hp.persistVoteFor (fun n => { n.resetTimer with role := .follower }) ?_ (.inl hv.2) ?_ ?_
    · exact fun hfit hq => hp.acts.tail ⟨.grant p.conf m lastIndex lastTerm hm hbody hv.2 hv.1
        hmem.2 (by simpa using hlearn) hmem.1, fun _ => hfit, .inr (.inl hq)⟩
    · intro p' hn hgood
      exact on_true (hgood.confirmVote (by rw [hn]; rfl))
    · exact fun p' _ hgood => on_false (hrefuse hgood)

end Qihse.Consensus
