import Qihse.Consensus.Recovery
import Qihse.Replog.Safety

/-!
# The consensus as a replicated log

Groups refine the replicated log protocol: the log of a node is its compacted prefix with the active
log, its durable state is what its file restores, and every message says something about the past
that was true when it was sent and stays true. `Sim.move` matches every action with steps of the
protocol. What a quorum is and which entries a leader may append is a parameter, the `Design` of the
group.
-/

namespace Qihse.Consensus

open Replay Replog Replog.History List

/-- What the kind of group fixes: the quorums of a node with a given log and commit index, and the
entries that its leaders append. -/
structure Design where
  quorum : List Entry → ℕ → Set Uuid → Prop
  allowed : Set (Commit Uuid) → ℕ → List Entry → Entry → Prop
  allowed_mono : ∀ {C C' t L e}, C ⊆ C' → allowed C t L e → allowed C' t L e
  strict : Prop

/-- The rules of the protocol for a design. Entries carry their position and survive a restart. -/
def Design.rules (D : Design) : Rules Uuid Entry where
  term := Entry.term
  quorum := D.quorum
  allowed C t L e := e.index = L.length + 1 ∧ e.Canonical ∧ D.allowed C t L e
  allowed_mono hC h := ⟨h.1, h.2.1, D.allowed_mono hC h.2.2⟩
  strict := D.strict

def Role.abs : Role → Replog.Role
  | .leader => .leader
  | .candidate => .candidate
  | .follower | .preCandidate => .follower

/-- A node as a node of the protocol. -/
def Node.abs (n : Node) : Replog.Node Uuid Entry :=
  ⟨n.term, n.votedFor, n.entries, n.commit, n.role.abs⟩

/-! ### Logs -/

lemma Entry.eq_of_identical {a b : Entry} (h : a.identical b) (hi : a.index = b.index) : a = b := by
  simp only [identical, Bool.and_eq_true, beq_iff_eq] at h
  obtain ⟨⟨⟨⟨⟨⟨h1, h2⟩, h3⟩, h4⟩, h5⟩, h6⟩, h7⟩ := h
  cases a
  cases b
  simp_all

lemma lastTermOf_take_succ {L : List Entry} {k : ℕ} (hk : k < L.length) :
    lastTermOf (L.take (k + 1)) = L[k].term := by
  rw [lastTermOf, getLast?_take, getElem?_eq_getElem (show k + 1 - 1 < L.length by omega)]
  simp

lemma Node.termAt_eq {n : Node} {k : ℕ} (hk : k ≤ n.absLastIndex) :
    n.termAt k = lastTermOf (n.entries.take k) := by
  cases k with
  | zero => simp [termAt, lastTermOf]
  | succ k =>
    have hlt : k < n.entries.length := by
      rw [entries_length]
      omega
    rw [termAt_succ, lastTermOf_take_succ hlt, getElem?_eq_getElem hlt, Option.elim_some]

lemma Node.lastLogTerm_eq {n : Node} (hsnap : n.snap.Ok) :
    n.lastLogTerm = lastTermOf n.entries := by
  unfold lastLogTerm lastTermOf entries
  rw [getLast?_append]
  cases n.log.getLast? with
  | some => rfl
  | none =>
    by_cases hnil : n.snap.entries = []
    · simp [hnil]
    · simp only [if_neg hnil, Option.none_or]
      exact hsnap.term

lemma Node.upToDate_abs {n : Node} {D : Design} {L : List Entry} (hsnap : n.snap.Ok)
    (h : n.upToDate L.length (lastTermOf L)) : UpToDate D.rules L n.entries := by
  simp only [upToDate, Bool.or_eq_true, Bool.and_eq_true, decide_eq_true_eq,
    lastLogTerm_eq hsnap] at h
  rcases h with h | ⟨h1, h2⟩
  · exact .inl h
  · exact .inr ⟨h1.symm, by rwa [entries_length]⟩

section

variable {D : Design} {h : History Uuid Entry} {L : List Entry} {t prev pt : ℕ} {es : List Entry}

/-- Entries know their position, can be restored and have a term. -/
lemma chain_entry (hs : h.Sound D.rules) (hL : Chain D.rules h L) {k : ℕ} {e : Entry}
    (hk : L[k]? = some e) : e.index = k + 1 ∧ e.Canonical ∧ 1 ≤ e.term := by
  obtain ⟨hlt, rfl⟩ := List.getElem?_eq_some_iff.mp hk
  obtain ⟨hpos, hindex, hcan, -⟩ := hs.chain_allowed hL hlt
  rw [length_take, min_eq_left (le_of_lt hlt)] at hindex
  exact ⟨hindex, hcan, hpos⟩

/-- What a leader of term `t` may say in an append about the entries around index `prev`. -/
structure Offers (h : History Uuid Entry) (t prev pt : ℕ) (es : List Entry) : Prop where
  leader : (h.leader t).isSome
  entries : es <+: (h.tlog t).drop prev
  term : prev ≤ (h.tlog t).length ∧ pt = lastTermOf ((h.tlog t).take prev) ∨
    1 ≤ prev ∧ pt = 0 ∧ es = []

section

variable (ho : Offers h t prev pt es) (hs : h.Sound D.rules) (hL : Chain D.rules h L)
  (hprev : prev ≤ L.length) (hterm : 1 ≤ prev → lastTermOf (L.take prev) = pt)
include ho hs hL hprev hterm

/-- A log whose term before an offered batch is right agrees with the leader's log up to there. -/
lemma Offers.agree_prev :
    prev ≤ (h.tlog t).length ∧ L.take prev = (h.tlog t).take prev := by
  cases prev with
  | zero => simp
  | succ k =>
    have hk : k < L.length := by omega
    have hpt := hterm (by omega)
    rw [lastTermOf_take_succ hk] at hpt
    have hpos := (chain_entry hs hL (getElem?_eq_getElem hk)).2.2
    rcases ho.term with ⟨hle, heq⟩ | ⟨-, heq, -⟩
    · have hk' : k < (h.tlog t).length := by omega
      rw [lastTermOf_take_succ hk'] at heq
      exact ⟨hle, hL.matching (hs.chain ho.leader) hk hk' (hpt.trans heq)⟩
    · omega

/-- A log that stores an offered batch agrees with the leader's log up to its end. -/
lemma Offers.agree {k : ℕ}
    (hk : k ≤ es.length) (hstored : ∀ j e, j < k → es[j]? = some e → e.index = prev + j + 1 ∧
      ∃ l, L[prev + j]? = some l ∧ l.identical e) :
    prev + k ≤ (h.tlog t).length ∧ prev + k ≤ L.length ∧
      L.take (prev + k) = (h.tlog t).take (prev + k) := by
  obtain ⟨hle, htake⟩ := ho.agree_prev hs hL hprev hterm
  obtain ⟨rest, hrest⟩ := ho.entries
  have hlen : prev + es.length ≤ (h.tlog t).length := by
    have := congrArg List.length hrest
    simp only [length_append, length_drop] at this
    omega
  have hget : ∀ j, j < k → ∃ e, es[j]? = some e ∧ (h.tlog t)[prev + j]? = some e ∧
      L[prev + j]? = some e := by
    intro j hj
    have hje : j < es.length := by omega
    refine ⟨es[j], getElem?_eq_getElem hje, ?_, ?_⟩
    · rw [← getElem?_drop, ← hrest, getElem?_append_left hje,
        getElem?_eq_getElem hje]
    · obtain ⟨hindex, l, hl, hid⟩ := hstored j es[j] hj (getElem?_eq_getElem hje)
      have hpos := (chain_entry hs hL hl).1
      rw [hl, Entry.eq_of_identical hid (by omega)]
  have hlenL : prev + k ≤ L.length := by
    cases k with
    | zero => exact hprev
    | succ k =>
      obtain ⟨e, -, -, he⟩ := hget k (by omega)
      have := (List.getElem?_eq_some_iff.mp he).1
      omega
  refine ⟨by omega, hlenL, ?_⟩
  rw [take_add, take_add, htake]
  refine congrArg _ (ext_getElem? fun i => ?_)
  simp only [getElem?_take, getElem?_drop]
  split_ifs with hi
  · obtain ⟨e, -, h1, h2⟩ := hget i hi
    rw [h1, h2]
  · rfl

end

end

/-! ### Messages -/

/-- What a message says about the past. -/
def MsgOk (D : Design) (h : History Uuid Entry) (m : Msg) : Prop :=
  match m.body with
  | .requestVote lastIndex lastTerm =>
    ∃ L, h.camp m.sender m.term = some L ∧ lastIndex = L.length ∧ lastTerm = lastTermOf L
  | .voteReply granted => granted → ∃ L, h.vlog m.sender m.term = some (m.dest, L)
  | .append prev prevTerm leaderCommit es =>
    h.leader m.term = some m.sender ∧ Offers h m.term prev prevTerm es ∧
      (D.strict → leaderCommit ≤ (h.tlog m.term).length ∧
        h.Settled m.term (h.tlog m.term) leaderCommit)
  | .appendReply success k | .snapshotReply success k =>
    success → ∀ j, j ≤ k → (m.sender, m.term, j) ∈ h.acks
  | .snapshot s => h.leader m.term = some m.sender ∧ s.entries <+: h.tlog m.term ∧
      (D.strict → h.Settled m.term s.entries s.entries.length)
  | _ => True

section

variable {D : Design} {h h' : History Uuid Entry} {m : Msg}

lemma Offers.mono {t prev pt : ℕ} {es : List Entry} (ho : Offers h t prev pt es) (hle : Le h h') :
    Offers h' t prev pt es := by
  have htlog := hle.tlog ho.leader
  have hdrop : (h.tlog t).drop prev <+: (h'.tlog t).drop prev := by
    obtain ⟨M, hM⟩ := htlog
    rw [← hM, drop_append]
    exact prefix_append _ _
  refine ⟨hle.isSome ho.leader, ho.entries.trans hdrop, ?_⟩
  refine ho.term.imp_left fun ⟨hprev, hpt⟩ => ⟨le_trans hprev htlog.length_le, ?_⟩
  rw [hpt, hle.take_tlog ho.leader hprev]

/-- What a message said stays true. -/
lemma MsgOk.mono (hm : MsgOk D h m) (hs : h.Sound D.rules) (hle : Le h h') : MsgOk D h' m := by
  unfold MsgOk at hm ⊢
  generalize m.body = body at hm ⊢
  cases body with
  | requestVote =>
    obtain ⟨L, hL, hrest⟩ := hm
    exact ⟨L, hle.camp hL, hrest⟩
  | voteReply => exact fun hg => (hm hg).imp fun _ hL => hle.vlog hL
  | append =>
    obtain ⟨hl, ho, hset⟩ := hm
    refine ⟨hle.leader hl, ho.mono hle, fun hst => ?_⟩
    obtain ⟨hlen, hset⟩ := hset hst
    refine ⟨le_trans hlen (hle.tlog ho.leader).length_le, ?_⟩
    exact (hset.of_take le_rfl (hle.take_tlog ho.leader hlen)).mono hs hle
  | appendReply | snapshotReply => exact fun hg j hj => hle.acks (hm hg j hj)
  | snapshot =>
    obtain ⟨hl, hp, hset⟩ := hm
    refine ⟨hle.leader hl, hp.trans (hle.tlog (by simp [hl])), fun hst => (hset hst).mono hs hle⟩
  | _ => trivial

end

/-! ### Nodes -/

/-- A running node and its counterpart. -/
structure NodeSim (h : History Uuid Entry) (u : Uuid) (n : Node) (x : Replog.Node Uuid Entry) :
    Prop where
  abs : x = n.abs
  snap : n.snap.Ok
  snap_le : n.snap.entries.length ≤ n.commit
  tallied : n.role = .candidate → ∀ i m, n.members[i]? = some m → n.votesGrantedMask.testBit i →
    ∃ L, h.vlog m.id n.term = some (u, L)
  acked : n.role = .leader → ∀ i m, n.members[i]? = some m →
    m.id = u ∧ n.matchIndex.getD i 0 ≤ n.absLastIndex ∨
      ∀ j, 1 ≤ j → j ≤ n.matchIndex.getD i 0 → (m.id, n.term, j) ∈ h.acks

lemma NodeSim.mono {h h' : History Uuid Entry} {u : Uuid} {n : Node}
    {x : Replog.Node Uuid Entry} (hn : NodeSim h u n x) (hle : Le h h') : NodeSim h' u n x :=
  { hn with
    tallied := fun hr i m hm hb => (hn.tallied hr i m hm hb).imp fun _ hL => hle.vlog hL
    acked := fun hr i m hm => (hn.acked hr i m hm).imp_right fun ha j h1 h2 =>
      hle.acks (ha j h1 h2) }

/-- A node of the group and its counterpart. -/
structure SlotSim (h : History Uuid Entry) (u : Uuid) (s : Slot) (x : Replog.Node Uuid Entry) :
    Prop where
  up : ∀ {n}, s.node = some n → NodeSim h u n x
  down : s.node = none → x.role = .follower
  file : ∀ {d}, s.disk = some d → Recovers x (∃ n, s.node = some n ∧ n.recQuarantined = false) d
  absent : s.disk = none → x = ⟨0, none, [], 0, .follower⟩

lemma SlotSim.mono {h h' : History Uuid Entry} {u : Uuid} {s : Slot}
    {x : Replog.Node Uuid Entry} (hs : SlotSim h u s x) (hle : Le h h') : SlotSim h' u s x :=
  { hs with up := fun hn => (hs.up hn).mono hle }

/-- A group and a state of the protocol. -/
structure Sim (D : Design) (w : Cluster) (σ : State Uuid Entry) : Prop where
  slot : ∀ u, SlotSim σ.hist u (w.slots u) (σ.nodes u)
  msgs : ∀ m ∈ w.sent, MsgOk D σ.hist m

end Qihse.Consensus
