import Qihse.Consensus.Sim.Relation

/-!
# Actions as steps of the replicated log protocol

Every action of a node is matched by steps of its counterpart.
-/

namespace Qihse.Consensus

open Replay Replog Replog.History List Node Line

/-- What a kind of group has to provide for the actions of one of its nodes. -/
structure Legal (D : Design) (h : History Uuid Entry) (u : Uuid) (n0 : Node) (inp : Input)
    (n : Node) : Prop where
  self : n.cfg.self = u
  indexed : n.SelfIndexed
  term : n.term + 1 < 2 ^ 64
  wins : ∀ S : Set Uuid, n.role = .candidate → n.hasVoteMajority n.votesGrantedMask →
    (∀ i m, n.members[i]? = some m → n.votesGrantedMask.testBit i → m.id ∈ S) →
      D.quorum n.entries n.commit S
  commits : ∀ (k : ℕ) (S : Set Uuid), n.role = .leader → n.ackQuorum k →
    (∀ i m, n.members[i]? = some m → n.acked k i → m.id ∈ S) → D.quorum n.entries n.commit S
  appends : ∀ e r, AppendOk n0 inp n e → e.persistAny = some r → h.leader n.term = some u ∧
    e.Canonical ∧ D.allowed h.commits n.term n.entries e
  verified : D.strict → ∀ m, inp = .msg m → n0.CommitVerified m
  tailFree : ∀ m, inp = .msg m → n0.TailFree m
  uncompacted : ¬ D.strict → n.cfg.snapshotThreshold = 0

/-- A node in the middle of an operation and its counterpart in the state `σ`. -/
structure At (D : Design) (σ : State Uuid Entry) (u : Uuid) (c : Conf) : Prop where
  inv : Inv D.rules σ
  sim : NodeSim σ.hist u c.node (σ.nodes u)
  file : Recovers (σ.nodes u) (c.node.recQuarantined = false) c.disk

/-- The protocol can follow an action of node `u` from `c` to `c'`. -/
def Matched (D : Design) (σ : State Uuid Entry) (u : Uuid) (c c' : Conf) : Prop :=
  ∃ σ', Steps D.rules u σ σ' ∧ NodeSim σ'.hist u c'.node (σ'.nodes u) ∧
    Recovers (σ'.nodes u) (c'.node.recQuarantined = false) c'.disk ∧
      ∀ m, c'.out = c.out ++ [m] → MsgOk D σ'.hist m

section

variable {D : Design} {σ : State Uuid Entry} {u : Uuid} {c c' : Conf} {n0 n' : Node} {inp : Input}

lemma At.ok (ha : At D σ u c) : NodeOk D.rules σ.hist u c.node.abs :=
  ha.sim.abs ▸ ha.inv.node u

/-- A leader is the one of its term, and its log is the log of the term. -/
lemma At.leads (ha : At D σ u c) (hrole : c.node.role = .leader) :
    σ.hist.leader c.node.term = some u ∧ c.node.entries = σ.hist.tlog c.node.term :=
  have hlead := ha.ok.leading (by simp [Node.abs, hrole, Role.abs])
  ⟨hlead, ha.ok.tlog_eq hlead⟩

/-- Nothing happens in the protocol. -/
lemma Matched.stay (hn : NodeSim σ.hist u c'.node (σ.nodes u))
    (hd : Recovers (σ.nodes u) (c'.node.recQuarantined = false) c'.disk)
    (hout : c'.out = c.out) : Matched D σ u c c' :=
  ⟨σ, .refl, hn, hd, fun m hm => by simp [hout] at hm⟩

variable {h : History Uuid Entry}

/-- One step of the protocol. -/
lemma Matched.step {x : Replog.Node Uuid Entry} (hstep : Step D.rules u σ (σ.update u x h))
    (hn : NodeSim h u c'.node x) (hd : Recovers x (c'.node.recQuarantined = false) c'.disk)
    (hout : c'.out = c.out) : Matched D σ u c c' :=
  ⟨_, .single hstep, by simpa using hn, by simpa using hd, fun m hm => by simp [hout] at hm⟩

variable {n : Node}

/-- A node that holds no office counts nothing. -/
lemma NodeSim.of_out {x : Replog.Node Uuid Entry} (habs : x = n.abs) (hsnap : n.snap.Ok)
    (hle : n.snap.entries.length ≤ n.commit) (hrole : n.role ≠ .candidate ∧ n.role ≠ .leader) :
    NodeSim h u n x :=
  ⟨habs, hsnap, hle, fun h => absurd h hrole.1, fun h => absurd h hrole.2⟩

/-! ### Volatile changes -/

variable (ha : At D σ u c) (hl : Legal D σ.hist u n0 inp c.node)

include ha in
/-- What stays of the node and its file where neither the log nor the commit index changes. -/
lemma At.same (hsnap : n'.snap = c.node.snap) (hcommit : n'.commit = c.node.commit)
    (hq : n'.recQuarantined = c.node.recQuarantined) :
    n'.snap.Ok ∧ n'.snap.entries.length ≤ n'.commit ∧ ∀ {r : Replog.Role},
      Recovers { c.node.abs with role := r } (n'.recQuarantined = false) c.disk := by
  rw [hsnap, hcommit, hq]
  exact ⟨ha.sim.snap, ha.sim.snap_le, (ha.sim.abs ▸ ha.file).congr rfl rfl rfl rfl⟩

include ha hl in
lemma At.quiet (hq : Quiet c.node n') : Matched D σ u c ⟨n', c.disk, c.out⟩ := by
  have hn := ha.sim
  have hentries : n'.entries = c.node.entries := by simp [Node.entries, hq.log, hq.snap]
  have hlast : n'.absLastIndex = c.node.absLastIndex := by
    simp [Node.absLastIndex, hq.log, hq.snap]
  obtain ⟨hsnap, hsnap_le, hfile⟩ := ha.same hq.snap hq.commit hq.recQuarantined
  rcases hq.role with hrole | hrole
  · refine .stay ⟨?_, hsnap, hsnap_le, fun hr i m hi hb => ?_, fun hr i m hi => ?_⟩ ?_ rfl
    · rw [hn.abs]
      simp [Node.abs, hq.term, hq.votedFor, hq.commit, hentries, hrole]
    · rw [hq.term]
      exact hn.tallied (hrole ▸ hr) i m (hq.members ▸ hi) (hq.mask hr ▸ hb)
    · rw [hq.members] at hi
      rw [hq.term, hlast]
      rcases hq.matched hr i with hsame | ⟨hself, hle⟩
      · rw [hsame]
        exact hn.acked (hrole ▸ hr) i m hi
      · rw [hl.indexed] at hself
        exact .inl ⟨(memberIndex_id hself.symm hi).trans hl.self, hle⟩
    · rw [hn.abs]
      exact hfile
  · have habs : n'.role.abs = .follower := by rcases hrole with h | h <;> rw [h] <;> rfl
    refine .step (.stepDown hn.abs) (.of_out ?_ hsnap hsnap_le ?_) hfile rfl
    · simp [Node.abs, hq.term, hq.votedFor, hq.commit, hentries, habs]
    · rcases hrole with h | h <;> simp [h]

/-- A change of the effective members, which may cost the node its role. -/
lemma At.setMembership (ha : At D σ u c) (hrole : c.node.role ≠ .candidate) (ms : List Member)
    {out : List Msg} (hout : out = c.out) :
    Matched D σ u c ⟨c.node.setMembership ms, c.disk, out⟩ := by
  have hn := ha.sim
  have hf := c.node.refolded_setMembership ms
  obtain ⟨hsnap, hsnap_le, hfile⟩ := ha.same hf.sameLog.snap hf.commit hf.recQuarantined
  rcases hf.role with hr | hr
  · refine .stay ⟨?_, hsnap, hsnap_le, fun h => absurd (hr ▸ h) hrole, fun h i m hi => ?_⟩ ?_ hout
    · rw [hn.abs]
      simp [Node.abs, hf.term, hf.votedFor, hf.commit, hf.sameLog.entries, hr]
    · rw [hf.term, hf.sameLog.absLastIndex]
      rw [setMembership_members] at hi
      -- the cursor of a member that stays is carried over
      have hcursor : (c.node.setMembership ms).matchIndex.getD i 0 =
          (c.node.memberIndex m.id).elim 0 fun j => c.node.matchIndex.getD j 0 := by
        have heq : (c.node.setMembership ms).matchIndex = ms.map fun m =>
            (c.node.memberIndex m.id).elim 0 fun j => c.node.matchIndex.getD j 0 := by
          unfold Node.setMembership
          simp only
          split_ifs <;> rfl
        rw [heq, getD_eq_getElem?_getD, getElem?_map, hi]
        rfl
      rw [hcursor]
      cases hj : c.node.memberIndex m.id with
      | none =>
        right
        intro j h1 h2
        simp at h2
        omega
      | some j =>
        obtain ⟨hlt, hid, -⟩ := findIdx?_eq_some_iff_getElem.mp hj
        have hold := hn.acked (hr ▸ h) j _ (getElem?_eq_getElem hlt)
        rw [show c.node.members[j].id = m.id by simpa using hid] at hold
        exact hold
    · rw [hn.abs]
      exact hfile
  · refine .step (.stepDown hn.abs) (.of_out ?_ hsnap hsnap_le (by simp [hr])) hfile hout
    simp only [Node.abs, hf.term, hf.votedFor, hf.commit, hf.sameLog.entries, hr]
    rfl

/-! ### Elections -/

variable {t : ℕ}

lemma At.adopt (ha : At D σ u c) {e : ℕ} (ht : c.node.term < t) :
    Matched D σ u c ⟨(c.node.setTermEpoch t e none).stepDown,
      c.disk ++ [record (.vote t none e)], c.out⟩ := by
  have hn := ha.sim
  refine .step (.adopt hn.abs t ht) (.of_out rfl hn.snap hn.snap_le (by simp [Node.stepDown]))
    ?_ rfl
  exact (hn.abs ▸ ha.file).vote rfl rfl rfl rfl

lemma At.floor (ha : At D σ u c) (e : ℕ) :
    Matched D σ u c ⟨c.node.setTermEpoch c.node.term e c.node.votedFor,
      c.disk ++ [record (.vote c.node.term c.node.votedFor e)], c.out⟩ := by
  have hn := ha.sim
  refine .stay { hn with } ?_ rfl
  rw [hn.abs]
  exact (hn.abs ▸ ha.file).vote rfl rfl rfl rfl

variable {i j : ℕ}

lemma testBit_shiftLeft_one (h : (1 <<< j).testBit i) : i = j := by
  rw [Nat.one_shiftLeft, Nat.testBit_two_pow] at h
  exact (of_decide_eq_true h).symm

include ha hl in
lemma At.campaign {e : ℕ} (hself : c.node.selfIndex = some i) :
    Matched D σ u c ⟨(c.node.setTermEpoch (c.node.term + 1) e (some c.node.cfg.self)).runFor
        .candidate i, c.disk ++ [record (.vote (c.node.term + 1) none e),
        .record (.vote (c.node.term + 1) (some c.node.cfg.self) e)], c.out⟩ := by
  have hn := ha.sim
  rw [hl.self]
  refine .step (.campaign hn.abs (c.node.term + 1) (Nat.lt_succ_self _))
    ⟨rfl, hn.snap, hn.snap_le, fun _ j m hj hb => ⟨c.node.entries, ?_⟩, fun h => ?_⟩ ?_ rfl
  · obtain rfl := testBit_shiftLeft_one hb
    rw [hl.indexed] at hself
    have hid : m.id = u := (memberIndex_id hself hj).trans hl.self
    simp [History.addVote, hid, Node.runFor, Node.setTermEpoch, Node.abs]
  · simp [Node.runFor] at h
  · have hadopted : Recovers { c.node.abs with term := c.node.term + 1, vote := none }
        (c.node.recQuarantined = false) (c.disk ++ [record (.vote (c.node.term + 1) none e)]) :=
      (hn.abs ▸ ha.file).vote rfl rfl rfl rfl
    rw [append_cons]
    exact hadopted.vote rfl rfl rfl rfl

variable {m : Msg}

lemma At.grant (ha : At D σ u c) {li lt : ℕ} (hm : MsgOk D σ.hist m)
    (hterm : m.term = c.node.term) (hbody : m.body = .requestVote li lt)
    (hvote : c.node.votedFor = none) (hup : c.node.upToDate li lt) :
    Matched D σ u c ⟨c.node.granted m.sender,
      c.disk ++ [record (.vote c.node.term (some m.sender) c.node.epoch)], c.out⟩ := by
  have hn := ha.sim
  simp only [MsgOk, hbody] at hm
  obtain ⟨L, hcamp, rfl, rfl⟩ := hm
  rw [hterm] at hcamp
  refine .step (.vote hn.abs m.sender L hvote hcamp (upToDate_abs hn.snap hup))
    (.of_out rfl hn.snap hn.snap_le (by simp [Node.granted])) ?_ rfl
  exact (hn.abs ▸ ha.file).vote rfl rfl rfl rfl

include ha hl in
lemma At.tally (hm : MsgOk D σ.hist m) (hadd : Addressed inp c.node m)
    (hbody : m.body = .voteReply true) (hi : c.node.memberIndex m.sender = some i) :
    Matched D σ u c ⟨c.node.countVote i, c.disk, c.out⟩ := by
  have hn := ha.sim
  simp only [MsgOk, hbody] at hm
  rw [hadd.dest, hadd.term, hl.self] at hm
  refine .stay { hn with tallied := fun hr j x hj hb => ?_ } ha.file rfl
  rw [Node.countVote, Nat.testBit_or, Bool.or_eq_true] at hb
  rcases hb with hb | hb
  · exact hn.tallied hr j x hj hb
  · obtain rfl := testBit_shiftLeft_one hb
    rw [memberIndex_id hi hj]
    exact hm trivial

include ha hl in
lemma At.win (hrole : c.node.role = .candidate)
    (hwin : c.node.hasVoteMajority c.node.votesGrantedMask) :
    Matched D σ u c ⟨c.node.lead.matchSelf, c.disk, c.out⟩ := by
  have hn := ha.sim
  let S : Set Uuid := {v | ∃ L, σ.hist.vlog v c.node.term = some (u, L)}
  have hq := hl.wins S hrole hwin fun i m hi hb => hn.tallied hrole i m hi hb
  have hquiet := Quiet.matchSelf c.node.lead
  have hlead : c.node.lead.matchSelf.role = .leader := c.node.lead.matchSelf_role
  refine .step (.win hn.abs S (by simp [Node.abs, hrole, Role.abs]) hq fun v hv => hv)
    ⟨?_, hquiet.snap ▸ hn.snap, ?_, fun h => ?_, fun _ i m hi => ?_⟩ ?_ rfl
  · simp only [Node.abs, hquiet.term, hquiet.votedFor, hquiet.commit, Node.entries, hquiet.log,
      hquiet.snap, hlead]
    rfl
  · rw [hquiet.snap, hquiet.commit]
    exact hn.snap_le
  · rw [hlead] at h
    cases h
  · rw [hquiet.members] at hi
    rcases hquiet.matched hlead i with hsame | ⟨hself, hle⟩
    · right
      intro j h1 h2
      rw [hsame] at h2
      simp [Node.lead, getD_eq_getElem?_getD, getElem?_replicate] at h2
      split_ifs at h2 <;> simp at h2 <;> omega
    · left
      refine ⟨(memberIndex_id (hl.indexed ▸ hself.symm) hi).trans hl.self, ?_⟩
      simpa [Node.absLastIndex, hquiet.log, hquiet.snap] using hle
  · simp only [hquiet.recQuarantined]
    exact (hn.abs ▸ ha.file).congr rfl rfl rfl rfl

/-! ### Replication -/

variable {prev pt k : ℕ} {es : List Entry}

/-- A node that holds an offered batch agrees with the leader's log up to its end. -/
lemma Node.Holds.agree (hh : n.Holds prev pt (es.take k)) (hk : k ≤ es.length)
    (ho : Offers h t prev pt es) (hs : h.Sound D.rules) (hL : Chain D.rules h n.entries) :
    prev + k ≤ (h.tlog t).length ∧ prev + k ≤ n.entries.length ∧
      n.entries.take (prev + k) = (h.tlog t).take (prev + k) := by
  refine ho.agree hs hL (by simpa using hh.le) (fun h1 => ?_) hk fun j e hj he => ?_
  · rw [← termAt_eq hh.le]
    exact hh.term h1
  · simpa using hh.stored j e (by rw [getElem?_take, if_pos hj, he])

variable {e : Entry}

/-- The next entry of an offered batch is the next one of the leader's log. -/
lemma Offers.next (ho : Offers h t prev pt es) (hj : es[j]? = some e) :
    (h.tlog t)[prev + j]? = some e := by
  obtain ⟨rest, hrest⟩ := ho.entries
  have hlt : j < es.length := (List.getElem?_eq_some_iff.mp hj).1
  rw [← getElem?_drop, ← hrest, getElem?_append_left hlt, hj]

include ha hl in
lemma At.matched (hm : MsgOk D σ.hist m) (hadd : Addressed inp c.node m)
    (hbody : m.body = .appendReply true k ∨ m.body = .snapshotReply true k)
    (hi : c.node.memberIndex m.sender = some i) :
    Matched D σ u c ⟨c.node.noteAck i k, c.disk, c.out⟩ := by
  have hn := ha.sim
  have hacks : ∀ j, j ≤ k → (m.sender, c.node.term, j) ∈ σ.hist.acks := by
    rw [← hadd.term]
    rcases hbody with hb | hb <;> (simp only [MsgOk, hb] at hm; exact hm trivial)
  refine .stay { hn with acked := fun hr j x hj => ?_ } ha.file rfl
  have hold := hn.acked hr j x hj
  by_cases hij : j = i
  · subst hij
    have hid := memberIndex_id hi hj
    right
    intro q h1 h2
    have hsender : x.id ≠ u := by
      rw [hid, ← hl.self]
      exact hadd.sender
    have hq : q ≤ max (c.node.matchIndex.getD j 0) k := by
      refine le_trans h2 ?_
      simp only [Node.noteAck, getD_eq_getElem?_getD, getElem?_set]
      split_ifs <;> simp
    rcases lt_or_ge k q with hqk | hqk
    · rcases hold with ⟨hu, -⟩ | hold
      · exact absurd hu hsender
      · exact hold q h1 (by omega)
    · rw [hid]
      exact hacks q hqk
  · have hsame : (c.node.noteAck i k).matchIndex.getD j 0 = c.node.matchIndex.getD j 0 := by
      simp only [Node.noteAck, getD_eq_getElem?_getD]
      rw [getElem?_set_ne (Ne.symm hij)]
    rw [hsame]
    exact hold

include ha hl in
lemma At.commit (hrole : c.node.role = .leader) (hlt : c.node.commit < k)
    (hle : k ≤ c.node.absLastIndex) (hterm : c.node.termAt k = c.node.term)
    (hq : c.node.ackQuorum k) :
    Matched D σ u c ⟨c.node.setCommit k, c.disk ++ [record (.commit k)], c.out⟩ := by
  have hn := ha.sim
  have hok := ha.ok
  obtain ⟨hlead, hlog⟩ := ha.leads hrole
  have hlen : k ≤ c.node.entries.length := by simpa using hle
  -- the leader vouches for its own log
  have hack : Step D.rules u σ (σ.update u c.node.abs (σ.hist.addAck u c.node.term k)) := by
    refine .ack hn.abs k (by simp [Node.abs, hlead]) ?_ ?_
    · change k ≤ (σ.hist.tlog c.node.term).length
      rwa [← hlog]
    · change (σ.hist.tlog c.node.term).take k <+: c.node.entries
      rw [← hlog]
      exact take_prefix _ _
  set σ1 := σ.update u c.node.abs (σ.hist.addAck u c.node.term k) with hσ1
  have hself : (u, c.node.term, k) ∈ σ1.hist.acks := .inr ⟨rfl, rfl, le_refl k⟩
  let S : Set Uuid := {v | (v, c.node.term, k) ∈ σ1.hist.acks}
  have hquorum := hl.commits k S hrole hq fun i m hi hacked => by
    simp only [Node.acked, Bool.or_eq_true, decide_eq_true_eq] at hacked
    have hown : m.id = u → m.id ∈ S := by
      intro h
      rw [h]
      exact hself
    rcases hacked with hi' | hk
    · refine hown ((memberIndex_id ?_ hi).trans hl.self)
      rw [← hl.indexed, ← hi']
    · rcases hn.acked hrole i m hi with ⟨hu, -⟩ | hold
      · exact hown hu
      · exact .inl (hold k (by omega) hk)
  have hcommit : Step D.rules u σ1 (σ1.update u { c.node.abs with commit := k }
      (σ1.hist.addCommit ⟨k, c.node.term, c.node.entries.length, c.node.commit, S⟩)) := by
    refine .commit (by simp [hσ1]) k S hlead (by omega) hlen (fun hk => ?_) hquorum fun q hq => hq
    obtain ⟨j, rfl⟩ : ∃ j, k = j + 1 := ⟨k - 1, by omega⟩
    rw [termAt_eq hle, lastTermOf_take_succ (show j < c.node.entries.length from hlen)]
      at hterm
    exact hterm
  refine ⟨_, .tail (.single hack) hcommit, ?_, ?_, fun m hm => by simp at hm⟩
  · simp only [State.update_self, State.update_hist]
    have hsim := (hn.mono le_addAck).mono (le_addCommit (h := σ1.hist)
      (r := ⟨k, c.node.term, c.node.entries.length, c.node.commit, S⟩))
    exact ⟨rfl, hn.snap, le_trans hn.snap_le (le_of_lt hlt), hsim.tallied, hsim.acked⟩
  · simp only [State.update_self]
    exact (hn.abs ▸ ha.file).commit rfl rfl rfl rfl

/-- An action that the protocol follows in two parts. -/
lemma Matched.then {c1 c2 : Conf} (hsafe : Safe D.rules) (hi : Inv D.rules σ)
    (h1 : Matched D σ u c c1) (hout : c1.out = c.out)
    (h2 : ∀ σ1, At D σ1 u c1 → Matched D σ1 u c1 c2) : Matched D σ u c c2 := by
  obtain ⟨σ1, hsteps1, hsim, hfile, -⟩ := h1
  have hnext := hsteps1.next hsafe hi
  obtain ⟨σ2, hsteps2, hsim2, hfile2, hmsg⟩ := h2 σ1 ⟨hnext.inv, hsim, hfile⟩
  exact ⟨σ2, hsteps1.trans hsteps2, hsim2, hfile2, fun m hm => hmsg m (by rw [hm, hout])⟩

lemma AppendOk.index (h : AppendOk n0 inp n e) :
    e.index = n.absLastIndex + 1 ∧ e.term = n.term := by
  cases h with
  | data _ _ _ hindex hterm => exact ⟨hindex, hterm⟩
  | single _ _ _ _ _ _ _ _ _ _ _ he | joint _ _ _ _ _ _ _ _ _ _ _ he | close _ _ _ _ _ he =>
    exact he ▸ ⟨rfl, rfl⟩

lemma At.append (ha : At D σ u c) (hsafe : Safe D.rules) (hl : Legal D σ.hist u n0 inp c.node)
    (hw : c.node.recQuarantined = false) {r : Record} (hok : AppendOk n0 inp c.node e)
    (hr : e.persistAny = some r) :
    Matched D σ u c ⟨c.node.pushed e, c.disk ++ [record r], c.out⟩ := by
  have hn := ha.sim
  obtain ⟨hlead, hcan, hallowed⟩ := hl.appends e r hok hr
  have hrole : c.node.role ≠ .candidate := by
    intro h
    exact (ha.ok.running (by simp [Node.abs, h, Role.abs])).2.2.1 hlead
  have hle : Le σ.hist (σ.hist.addEntry c.node.term e) := le_addEntry
  have hpush : Matched D σ u c ⟨c.node.push e, c.disk ++ [record r], c.out⟩ := by
    refine .step (.append hn.abs e hlead hok.index.2 ⟨?_, hcan, hallowed⟩)
      ⟨?_, hn.snap, hn.snap_le, fun h => absurd h hrole, fun h i m hi => ?_⟩ ?_ rfl
    · simpa [Node.abs] using hok.index.1
    · simp [Node.abs, Node.push, Node.entries]
    · rw [absLastIndex_push]
      refine (hn.acked h i m hi).imp (fun hu => ⟨hu.1, Nat.le_succ_of_le hu.2⟩) fun hold => ?_
      exact fun j h1 h2 => hle.acks (hold j h1 h2)
    · exact (hn.abs ▸ ha.file).store hw hcan hr rfl rfl rfl rfl
  unfold Node.pushed
  split_ifs with htype
  · exact hpush
  · refine hpush.then hsafe ha.inv rfl fun σ1 ha1 => ?_
    rcases (c.node.push e).recomputed_cases with h | ⟨ms, -, -, h⟩ <;> rw [h]
    · exact .stay ha1.sim ha1.file rfl
    · exact ha1.setMembership hrole ms rfl

section

variable {lc : ℕ} (hm : MsgOk D σ.hist m) (hadd : Addressed inp c.node m)
  (hbody : m.body = .append prev pt lc es)
include hl hm hadd hbody

/-- What an append from the leader of the node's term tells. -/
lemma Legal.leader : σ.hist.leader c.node.term = some m.sender ∧ m.sender ≠ u ∧
      Offers σ.hist c.node.term prev pt es ∧ (D.strict → lc ≤ (σ.hist.tlog c.node.term).length ∧
          σ.hist.Settled c.node.term (σ.hist.tlog c.node.term) lc) := by
  simp only [MsgOk, hbody, hadd.term] at hm
  exact ⟨hm.1, hl.self ▸ hadd.sender, hm.2⟩

variable (hrole : c.node.role = .follower)
include ha hrole

lemma At.truncate (hw : c.node.recQuarantined = false) {l : Entry} (hj : es[j]? = some e)
    (hl' : c.node.entryAt (prev + j + 1) = some l) (hne : l.term ≠ e.term)
    (hsnap : c.node.snap.entries.length < prev + j + 1) :
    Matched D σ u c ⟨c.node.truncateFrom (prev + j + 1),
      c.disk ++ [record (.truncate (prev + j + 1))], c.out⟩ := by
  have hn := ha.sim
  obtain ⟨hlead, hsender, hoff, -⟩ := hl.leader hm hadd hbody
  rw [entryAt_succ] at hl'
  obtain ⟨hk, rfl⟩ := List.getElem?_eq_some_iff.mp hl'
  obtain ⟨hk', rfl⟩ := List.getElem?_eq_some_iff.mp (hoff.next hj)
  have hentries := c.node.entries_truncateFrom (Nat.le_of_lt_succ hsnap)
  refine .step (.truncate hn.abs m.sender (prev + j) hlead hsender
    (by simp [Node.abs, hrole, Role.abs]) hk hk' hne) (.of_out ?_ hn.snap hn.snap_le ?_) ?_ rfl
  · simp only [Node.abs, hentries]
    rfl
  · simp [Node.truncateFrom, hrole]
  · exact (hn.abs ▸ ha.file).cut hw rfl rfl rfl rfl

lemma At.push (hw : c.node.recQuarantined = false) {r : Record} (hj : es[j]? = some e)
    (hholds : c.node.Holds prev pt (es.take j)) (hlast : c.node.absLastIndex = prev + j)
    (hr : e.persistAny = some r) :
    Matched D σ u c ⟨c.node.push e, c.disk ++ [record r], c.out⟩ := by
  have hn := ha.sim
  obtain ⟨hlead, hsender, hoff, -⟩ := hl.leader hm hadd hbody
  have hjlen : j < es.length := (List.getElem?_eq_some_iff.mp hj).1
  obtain ⟨-, hlen, htake⟩ := hholds.agree hjlen.le hoff ha.inv.sound ha.ok.chain
  have hnext := hoff.next hj
  obtain ⟨hk, he⟩ := List.getElem?_eq_some_iff.mp hnext
  have hpre : c.node.entries ++ [e] <+: σ.hist.tlog c.node.term := by
    rw [take_of_length_le (by simp [hlast])] at htake
    rw [htake, ← he, take_append_getElem]
    exact take_prefix _ _
  have hcan := (chain_entry ha.inv.sound (ha.inv.sound.chain hoff.leader) hnext).2.1
  refine .step (.push hn.abs m.sender e hlead hsender (by simp [Node.abs, hrole, Role.abs]) hpre)
    (.of_out ?_ hn.snap hn.snap_le (by simp [Node.push, hrole])) ?_ rfl
  · simp [Node.abs, Node.push, Node.entries]
  · exact (hn.abs ▸ ha.file).store hw hcan hr rfl rfl rfl rfl

lemma At.follow (hholds : c.node.Holds prev pt es)
    (hlt : c.node.commit < min lc c.node.absLastIndex)
    (hver : n0.CommitVerified m → min lc c.node.absLastIndex ≤ prev + es.length) :
    Matched D σ u c ⟨c.node.setCommit (min lc c.node.absLastIndex),
      c.disk ++ [record (.commit (min lc c.node.absLastIndex))], c.out⟩ := by
  have hn := ha.sim
  obtain ⟨hlead, hsender, hoff, hset⟩ := hl.leader hm hadd hbody
  generalize hk : min lc c.node.absLastIndex = k at hlt hver
  refine .step (.follow hn.abs k (by simp [Node.abs, hrole, Role.abs]) fun hst => ⟨?_, ?_⟩)
    (.of_out rfl hn.snap (le_trans hn.snap_le hlt.le) (by simp [Node.setCommit, hrole])) ?_ rfl
  · simp only [Node.abs, entries_length]
    omega
  · have hcover := hver (hl.verified hst m hadd.input)
    rw [← es.take_length] at hholds
    obtain ⟨-, -, htake⟩ := hholds.agree le_rfl hoff ha.inv.sound ha.ok.chain
    refine (hset hst).2.of_take (by omega) ?_
    have := congrArg (List.take k) htake
    rwa [take_take, take_take, min_eq_left hcover] at this
  · exact (hn.abs ▸ ha.file).commit rfl rfl rfl rfl

end

/-! ### Snapshots -/

/-- The entries of a chain survive a restart. -/
lemma canonical_of_chain {L : List Entry} (hs : h.Sound D.rules) (hL : Chain D.rules h L) :
    ∀ e ∈ L, e.Canonical := by
  intro e he
  obtain ⟨k, hk⟩ := mem_iff_getElem?.mp he
  exact (chain_entry hs hL hk).2.1

variable {rs : List Record}

include ha hl in
lemma At.compact {s : Snapshot} {v2 : Bool} (hs : c.node.compaction = some s)
    (hrs : snapshotRecords v2 s = some rs) :
    Matched D σ u c ⟨c.node.compacted s, c.disk ++ rs.map .record, c.out⟩ := by
  have hn := ha.sim
  have hsame := entries_of_compaction hs
  obtain ⟨target, hthr, hrole, -, hle, -, hsnap⟩ := compaction_snapshot hs
  have hst : D.strict := by
    by_contra hst
    exact hthr (hl.uncompacted hst)
  have hcommit : c.node.commit ≤ c.node.absLastIndex := by
    simpa [Node.abs] using ha.ok.commit_le hst
  obtain ⟨hentries, hindex⟩ : s.entries = c.node.entries.take target ∧
      s.lastIncludedIndex = target := by rw [hsnap]; exact ⟨rfl, rfl⟩
  have hterm : s.lastIncludedTerm = lastTermOf s.entries := by rw [hsnap]; rfl
  have hlen : s.entries.length = s.lastIncludedIndex := by
    rw [hentries, length_take, entries_length]
    omega
  rw [← hindex] at hle hentries
  have hlast : (c.node.compacted s).absLastIndex = c.node.absLastIndex := by
    rw [← entries_length, hsame, entries_length]
  have habs : (c.node.compacted s).abs = c.node.abs := by
    simp only [Node.abs, hsame]
    rfl
  refine .stay ⟨hn.abs.trans habs.symm, ⟨hlen, hterm⟩, hlen ▸ hle, hn.tallied, fun h i m hi => ?_⟩
    ?_ rfl
  · rw [hlast]
    exact hn.acked hrole i m hi
  · have hcan : ∀ e ∈ s.entries, e.Canonical := by
      intro e he
      rw [hentries] at he
      exact canonical_of_chain ha.inv.sound ha.ok.chain e (mem_of_mem_take he)
    rw [hn.abs]
    refine (hn.abs ▸ ha.file).snapshot hcan hrs rfl rfl (fun _ => ?_) ?_
    · rw [hentries]
      exact (take_append_drop _ _).symm
    · exact (max_eq_left hle).symm

variable {s : SnapshotBody}

/-- The header of an accepted snapshot is the one of its entries. -/
lemma InstallOk.ok (h : InstallOk n m s) : s.toSnapshot.Ok := by
  have hacc := h.acceptable
  simp only [Node.snapshotAcceptable, Bool.and_eq_true, decide_eq_true_eq] at hacc
  obtain ⟨⟨⟨⟨⟨⟨⟨⟨hlen, -⟩, -⟩, hscan⟩, -⟩, -⟩, -⟩, -⟩, -⟩ := hacc
  refine ⟨hlen, ?_⟩
  rw [lastTermOf]
  cases hl : s.toSnapshot.entries.getLast? with
  | none =>
    rw [show s.entries = [] from getLast?_eq_none_iff.mp hl] at hscan
    exact (congrArg Prod.fst (Option.some.inj hscan)).symm
  | some e => exact congrArg Prod.fst ((scanned_of_scanSnapshot hscan).last e hl)

/-- A node that holds the entries of a snapshot holds nothing else. -/
lemma Node.TailFree.le (h : n.TailFree m) (hbody : m.body = .snapshot s) (hok : s.toSnapshot.Ok)
    (hcommit : n.commit < s.lastIncludedIndex) (hpre : s.entries <+: n.entries) :
    n.entries.length ≤ s.entries.length := by
  simp only [Node.TailFree, hbody] at h
  have hlen : s.entries.length = s.lastIncludedIndex := hok.length
  have hterm : s.lastIncludedTerm = lastTermOf s.entries := hok.term
  by_contra hlt
  rw [not_le, entries_length] at hlt
  refine (h.resolve_left (by omega)).resolve_left (by omega) ?_
  rw [termAt_eq (by omega), hterm, ← hlen, ← prefix_iff_eq_take.mp hpre]

/-- Two chains that hold identical entries up to the end of one of them. -/
lemma prefix_of_identical {L L' : List Entry} (hs : h.Sound D.rules) (hL : Chain D.rules h L)
    (hL' : Chain D.rules h L')
    (hid : ∀ (j : ℕ) (e : Entry), L[j]? = some e → ∃ l : Entry, L'[j]? = some l ∧ l.identical e) :
    L <+: L' := by
  rw [prefix_iff_eq_take]
  refine ext_getElem? fun j => ?_
  rcases lt_or_ge j L.length with hj | hj
  · obtain ⟨l, hl, hid⟩ := hid j L[j] (getElem?_eq_getElem hj)
    have h1 := (chain_entry hs hL (getElem?_eq_getElem hj)).1
    have h2 := (chain_entry hs hL' hl).1
    rw [getElem?_take, if_pos hj, hl, getElem?_eq_getElem hj,
      Entry.eq_of_identical hid (by omega)]
  · rw [getElem?_eq_none hj, getElem?_eq_none (by simp; omega)]

include hl in
/-- What a snapshot from the leader of the node's term tells. -/
lemma InstallOk.leader (hok : InstallOk c.node m s) (hm : MsgOk D σ.hist m) :
    σ.hist.leader c.node.term = some m.sender ∧ m.sender ≠ u ∧
      s.entries <+: σ.hist.tlog c.node.term ∧
        (D.strict → σ.hist.Settled c.node.term s.entries s.entries.length) := by
  simp only [MsgOk, hok.body, hok.term] at hm
  exact ⟨hm.1, hl.self ▸ hok.sender, hm.2⟩

include ha hl in
lemma At.install (hm : MsgOk D σ.hist m) (hinp : inp = .msg m) (hok : InstallOk c.node m s)
    (hrole : c.node.role = .follower)
    (hsame : c.node.entries = n0.entries) (hcommit0 : c.node.commit = n0.commit)
    (hrs : snapshotRecords false s.toSnapshot = some rs) :
    Matched D σ u c ⟨c.node.installed s.toSnapshot, c.disk ++ rs.map .record, c.out⟩ := by
  have hn := ha.sim
  have hsnap := hok.ok
  obtain ⟨hlead, hsender, hpre, hset⟩ := hok.leader hl hm
  have hchain := ha.inv.sound.chain_of_isPrefix (by simp [hlead]) hpre
  have hlen : s.entries.length = s.lastIncludedIndex := hsnap.length
  have hkeep : s.entries <+: c.node.entries → c.node.entries.length ≤ s.entries.length := by
    rw [hsame]
    exact (hl.tailFree m hinp).le hok.body hsnap (hcommit0 ▸ hok.commit)
  have hcommit : max c.node.commit s.lastIncludedIndex = s.entries.length := by
    rw [hlen, max_eq_right hok.commit.le]
  refine .step (.install hn.abs m.sender s.entries hlead hsender
      (by simp [Node.abs, hrole, Role.abs]) hpre hset hkeep)
    (.of_out ?_ hsnap ?_ (by simp [Node.installed, hrole])) ?_ rfl
  · simp [Node.abs, Node.installed, Node.entries, SnapshotBody.toSnapshot, hcommit]
  · change s.entries.length ≤ max c.node.commit s.lastIncludedIndex
    rw [hcommit]
  · refine (hn.abs ▸ ha.file).snapshot (canonical_of_chain ha.inv.sound hchain) hrs rfl rfl
      (fun hagree => ?_) ?_
    · change s.entries = s.entries ++ c.node.entries.drop s.lastIncludedIndex
      have hle : c.node.entries.length ≤ s.entries.length := by
        rcases le_total c.node.entries.length s.entries.length with h | h
        · exact h
        · refine hkeep (prefix_of_identical ha.inv.sound hchain ha.ok.chain fun j e hj => ?_)
          refine hagree j e hj (lt_of_lt_of_le ?_ h)
          exact (List.getElem?_eq_some_iff.mp hj).1
      rw [drop_of_length_le (hlen ▸ hle), append_nil]
    · exact hcommit.symm.trans rfl

lemma At.quarantine (ha : At D σ u c) {s : Snapshot} {v2 : Bool}
    (hcan : ∀ e ∈ s.entries, e.Canonical) (hrs : PartialSnapshot v2 s rs) :
    Matched D σ u c ⟨c.node.quarantine, c.disk ++ rs.map .record, c.out⟩ := by
  have hn := ha.sim
  refine .stay { hn with } ?_ rfl
  exact (ha.file.cutShort hcan hrs).weaken (by simp [Node.quarantine])

/-! ### Messages -/

/-- A message that only says what is known already. -/
lemma Matched.say (ha : At D σ u c) (hm : MsgOk D σ.hist m) :
    Matched D σ u c ⟨c.node, c.disk, c.out ++ [m]⟩ := by
  refine ⟨σ, .refl, ha.sim, ha.file, fun m' hm' => ?_⟩
  obtain rfl : m = m' := by simpa using hm'
  exact hm

/-- A message that acknowledges a prefix of the leader's log. -/
lemma Matched.acknowledge (ha : At D σ u c) (hlead : (σ.hist.leader c.node.term).isSome)
    (hk : k ≤ (σ.hist.tlog c.node.term).length)
    (hpre : (σ.hist.tlog c.node.term).take k <+: c.node.entries) (hsender : m.sender = u)
    (hterm : m.term = c.node.term)
    (hbody : m.body = .appendReply true k ∨ m.body = .snapshotReply true k) :
    Matched D σ u c ⟨c.node, c.disk, c.out ++ [m]⟩ := by
  have hn := ha.sim
  refine ⟨_, .single (.ack hn.abs k hlead hk hpre), ?_, ?_, fun m' hm' => ?_⟩
  · simpa [hn.abs] using hn.mono le_addAck
  · simpa [hn.abs] using ha.file
  · obtain rfl : m = m' := by simpa using hm'
    have hacks : ∀ j, j ≤ k → (m.sender, m.term, j) ∈
        (σ.hist.addAck u c.node.abs.term k).acks := fun j hj => .inr ⟨hsender, hterm, hj⟩
    rcases hbody with hb | hb <;> simpa only [MsgOk, hb, State.update_hist] using fun _ => hacks

lemma At.sendAppend (ha : At D σ u c) {m : Msg} {prev pt lc : ℕ} {es : List Entry}
    (hsender : m.sender = u) (hbody : m.body = .append prev pt lc es)
    (hterm : m.term = c.node.term) (hrole : c.node.role = .leader)
    (h : prev = 0 ∧ pt = 0 ∧ es = [] ∧ (lc = 0 ∨ lc = c.node.commit) ∨
      pt = c.node.termAt prev ∧ lc = c.node.commit ∧
        es = (c.node.entries.drop prev).take maxEntriesPerMsg) : MsgOk D σ.hist m := by
  have hok := ha.ok
  obtain ⟨hlead, hlog⟩ := ha.leads hrole
  have hcommit : D.strict → ∀ k, (k = 0 ∨ k = c.node.commit) →
      k ≤ c.node.entries.length ∧ σ.hist.Settled c.node.term c.node.entries k := by
    rintro hst k (rfl | rfl)
    · exact ⟨Nat.zero_le _, .inl rfl⟩
    · exact ⟨hok.commit_le hst, hok.settled hst⟩
  simp only [MsgOk, hbody, hterm, hsender, ← hlog]
  refine ⟨hlead, ⟨by simp [hlead], ?_, ?_⟩, fun hst => hcommit hst lc ?_⟩
  · rw [← hlog]
    rcases h with ⟨-, -, rfl, -⟩ | ⟨-, -, rfl⟩
    · exact nil_prefix
    · exact take_prefix _ _
  · rw [← hlog]
    rcases h with ⟨rfl, rfl, -, -⟩ | ⟨rfl, -, rfl⟩
    · exact .inl ⟨Nat.zero_le _, rfl⟩
    · rcases Nat.lt_or_ge c.node.absLastIndex prev with hlt | hle
      · right
        obtain ⟨j, rfl⟩ : ∃ j, prev = j + 1 := ⟨prev - 1, by omega⟩
        refine ⟨by omega, ?_, ?_⟩
        · rw [termAt_succ, getElem?_eq_none (by simp; omega)]
          rfl
        · rw [drop_of_length_le (by simp; omega), take_nil]
      · exact .inl ⟨by simpa using hle, termAt_eq hle⟩
  · rcases h with ⟨-, -, -, h⟩ | ⟨-, h, -⟩
    exacts [h, .inr h]

include ha hl in
lemma At.send (hmsg : ∀ a, inp = .msg a → MsgOk D σ.hist a) (hm : MaySend inp c.node m) :
    Matched D σ u c ⟨c.node, c.disk, c.out ++ [m]⟩ := by
  have hok := ha.ok
  obtain ⟨-, hsender, -, hm⟩ := hm
  rw [hl.self] at hsender
  generalize hb : m.body = body at hm
  cases body with
  | preVote | preVoteReply | snapshotChunk => exact .say ha (by simp [MsgOk, hb])
  | requestVote =>
    obtain ⟨hterm, hrole, rfl, rfl⟩ := hm
    obtain ⟨-, hcamp, -⟩ := hok.running (by simp [Node.abs, hrole, Role.abs])
    refine .say ha ?_
    simp only [MsgOk, hb, hsender, hterm]
    exact ⟨c.node.entries, hcamp, by simp, lastLogTerm_eq ha.sim.snap⟩
  | voteReply =>
    obtain ⟨hterm, hvote⟩ := hm
    refine .say ha ?_
    simp only [MsgOk, hb, hsender, hterm]
    exact fun hg => hok.vote_some (hvote hg)
  | append => exact .say ha (ha.sendAppend hsender hb hm.1 hm.2.1 hm.2.2)
  | appendReply success =>
    obtain ⟨hterm, hsucc⟩ := hm
    cases success with
    | false => exact .say ha (by simp [MsgOk, hb])
    | true =>
      obtain ⟨a, prev, pt, lc, es, hinp, habody, -, -, haterm, rfl, hholds⟩ := hsucc rfl
      have ham := hmsg a hinp
      simp only [MsgOk, habody, haterm] at ham
      rw [← es.take_length] at hholds
      obtain ⟨h1, -, h2⟩ := hholds.agree le_rfl ham.2.1 ha.inv.sound hok.chain
      refine .acknowledge ha ham.2.1.leader h1 ?_ hsender hterm (.inl hb)
      rw [← h2]
      exact take_prefix _ _
  | snapshot =>
    obtain ⟨hterm, hrole, rfl⟩ := hm
    obtain ⟨hlead, hlog⟩ := ha.leads hrole
    refine .say ha ?_
    simp only [MsgOk, hb, hsender, hterm, ← hlog]
    refine ⟨hlead, prefix_append _ _, fun hst => (hok.settled hst).of_take ha.sim.snap_le ?_⟩
    simp [Node.abs, Node.entries]
  | snapshotReply success =>
    obtain ⟨hterm, hsucc⟩ := hm
    cases success with
    | false => exact .say ha (by simp [MsgOk, hb])
    | true =>
      obtain ⟨a, s, hinp, habody, -, -, haterm, rfl, hlen, hstarts⟩ := hsucc rfl
      have ham := hmsg a hinp
      simp only [MsgOk, habody, haterm] at ham
      obtain ⟨hlead, hpre, -⟩ := ham
      have hsome : (σ.hist.leader c.node.term).isSome := by simp [hlead]
      have htake : (σ.hist.tlog c.node.term).take s.lastIncludedIndex = s.entries := by
        rw [← hlen, ← prefix_iff_eq_take.mp hpre]
      refine .acknowledge ha hsome (hlen ▸ hpre.length_le) ?_ hsender hterm (.inr hb)
      rw [htake]
      have hchain := ha.inv.sound.chain_of_isPrefix hsome hpre
      refine prefix_of_identical ha.inv.sound hchain hok.chain fun j e hj => ?_
      have := (hstarts j e hj).2
      rwa [entryAt_succ] at this

/-! ### Every action -/

/-- The protocol follows every action. -/
lemma At.act (ha : At D σ u c) (hsafe : Safe D.rules) (hl : Legal D σ.hist u n0 inp c.node)
    (hmsg : ∀ a, inp = .msg a → MsgOk D σ.hist a) (hact : Act False n0 inp c c')
    (hw : c'.disk = c.disk ∨ c.node.recQuarantined = false) : Matched D σ u c c' := by
  have hwrite : ∀ {r : Line}, c'.disk = c.disk ++ [r] → c.node.recQuarantined = false := by
    intro r hr
    refine hw.resolve_left fun h => ?_
    rw [hr] at h
    exact absurd h (by simp)
  cases hact with
  | quiet n' h => exact ha.quiet hl h
  | send m h => exact ha.send hl hmsg h
  | adopt t e ht => exact ha.adopt ht
  | floor e => exact ha.floor e
  | campaign i e _ hself => exact ha.campaign hl hself
  | wrap _ ht => exact absurd hl.term (not_lt.mpr ht)
  | grant m li lt hm hbody hvote hup => exact ha.grant (hmsg m hm.input) hm.term hbody hvote hup
  | tally m i hm hbody _ hi => exact ha.tally hl (hmsg m hm.input) hm hbody hi
  | win hrole hwin => exact ha.win hl hrole hwin
  | matched m i k hm hbody _ hi => exact ha.matched hl (hmsg m hm.input) hm hbody hi
  | commit k hrole hlt hle hterm hq => exact ha.commit hl hrole hlt hle hterm hq
  | append e r hok hr => exact ha.append hsafe hl (hwrite rfl) hok hr
  | refold ms hrole => exact ha.setMembership hrole ms rfl
  | truncate m prev pt lc es j e l hm hbody hrole hj _ hl' hne hsnap =>
    exact ha.truncate hl (hmsg m hm.input) hm hbody hrole (hwrite rfl) hj hl' hne hsnap
  | push m prev pt lc es j e r hm hbody hrole hj hholds hlast _ _ _ hr =>
    exact ha.push hl (hmsg m hm.input) hm hbody hrole (hwrite rfl) hj hholds hlast hr
  | follow m prev pt lc es hm hbody hrole hholds hlt hver =>
    exact ha.follow hl (hmsg m hm.input) hm hbody hrole hholds hlt hver
  | compact s rs hs hrs => exact ha.compact hl hs hrs
  | install m s rs hinp hok hrole hsame hcommit hrs =>
    exact ha.install hl (hmsg m hinp) hinp hok hrole hsame hcommit hrs
  | quarantine v2 s rs torn hs hrs htorn =>
    obtain rfl : torn = [] := htorn.resolve_right fun h => h.1
    rw [append_nil]
    refine ha.quarantine ?_ (hrs.resolve_right fun h => h.1)
    rcases hs with ⟨hs, -⟩ | ⟨-, m, b, hinp, hok, rfl⟩
    · intro e he
      obtain ⟨target, -, -, -, -, -, rfl⟩ := compaction_snapshot hs
      exact canonical_of_chain ha.inv.sound ha.ok.chain e (mem_of_mem_take he)
    · obtain ⟨hlead, -, hpre, -⟩ := hok.leader hl (hmsg m hinp)
      exact canonical_of_chain ha.inv.sound
        (ha.inv.sound.chain_of_isPrefix (by simp [hlead]) hpre)
  | lost _ hF => exact hF.elim

end

end Qihse.Consensus
