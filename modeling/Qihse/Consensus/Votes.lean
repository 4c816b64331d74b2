import Qihse.Consensus.Fixed
import Qihse.Replog.Majority

/-!
# Votes

A vote that a node made known binds it for ever: it is in the file, and neither the rest of the file
nor the running node takes it back. With a fixed member list, a leader holds the votes of a weighted
majority, and two majorities have a member in common.
-/

namespace Qihse.Consensus

open Replay Replog List Node

/-! ### Binding votes -/

/-- The vote for `c` in term `t` is among the vote lines, and no later one takes it back. -/
def Bound (t : ℕ) (c : Uuid) (vs : List (ℕ × Option Uuid)) : Prop :=
  ∃ xs ys, vs = xs ++ (t, some c) :: ys ∧ ∀ v ∈ ys, t < v.1 ∨ v = (t, some c)

section

variable {t : ℕ} {c c' : Uuid} {vs new : List (ℕ × Option Uuid)} {b b' : Ballots} {inp : Input}
  {self : Uuid}

lemma Bound.append (h : Bound t c vs) (hnew : ∀ v ∈ new, t < v.1 ∨ v = (t, some c)) :
    Bound t c (vs ++ new) := by
  obtain ⟨xs, ys, rfl, hys⟩ := h
  exact ⟨xs, ys ++ new, by simp, forall_mem_append.mpr ⟨hys, hnew⟩⟩

lemma bound_of_getLast? (h : vs.getLast? = some (t, some c)) : Bound t c vs := by
  obtain ⟨xs, rfl⟩ := getLast?_eq_some_iff.mp h
  exact ⟨xs, [], rfl, by simp⟩

/-- What a restart finds. -/
lemma Bound.getLast? (h : Bound t c vs) :
    ∃ v, vs.getLast? = some v ∧ (t < v.1 ∨ v = (t, some c)) := by
  obtain ⟨xs, ys, rfl, hys⟩ := h
  cases hl : ys.getLast? with
  | none =>
    rw [getLast?_eq_none_iff.mp hl]
    exact ⟨(t, some c), by simp, .inr rfl⟩
  | some v =>
    obtain ⟨zs, rfl⟩ := getLast?_eq_some_iff.mp hl
    exact ⟨v, getLast?_eq_some_iff.mpr ⟨xs ++ (t, some c) :: zs, by simp⟩, hys v (by simp)⟩

/-- Two votes of one node in one term are for the same candidate. -/
lemma Bound.unique (h : Bound t c vs) (h' : Bound t c' vs) : c' = c := by
  obtain ⟨xs, ys, rfl, hys⟩ := h
  obtain ⟨xs', ys', heq, hys'⟩ := h'
  rcases append_eq_append_iff.mp heq with ⟨zs, rfl, hz⟩ | ⟨zs, rfl, hz⟩
  · cases zs with
    | nil =>
      cases hz
      rfl
    | cons =>
      cases hz
      rcases hys (t, some c') (by simp) with h | h
      · simp at h
      · simpa using h
  · cases zs with
    | nil =>
      cases hz
      rfl
    | cons =>
      cases hz
      rcases hys' (t, some c) (by simp) with h | h
      · simp at h
      · simpa using h.symm

/-- A node has voted for `c` in term `t`, and will not vote for anyone else in it. -/
structure Ballots.Voted (b : Ballots) (t : ℕ) (c : Uuid) : Prop where
  lines : Bound t c b.lines
  node : t < b.term ∨ b.term = t ∧ b.vote = some c

/-- The vote that a node remembers binds it. -/
def Ballots.Pledged (b : Ballots) : Prop := ∀ c, b.vote = some c → Bound b.term c b.lines

lemma Ballots.Pledged.voted (h : b.Pledged) (hv : b.vote = some c) : b.Voted b.term c :=
  ⟨h c hv, .inr ⟨rfl, hv⟩⟩

lemma BallotMove.voted (h : BallotMove inp self b b') (hv : b.Voted t c) : b'.Voted t c := by
  have hlines := hv.lines
  rcases hv.node with hlt | ⟨rfl, hvote⟩
  · cases h with
    | same => exact hv
    | adopt | campaign => exact ⟨hlines.append (by simp; omega), .inl (by simp; omega)⟩
    | again | grant | lostTerm | lostVote => exact ⟨hlines.append (by simp; omega), .inl hlt⟩
  · cases h with
    | same => exact hv
    | adopt u hu => exact ⟨hlines.append (by simp; omega), .inl hu⟩
    | again => exact ⟨hlines.append (by simp [hvote]), .inr ⟨rfl, hvote⟩⟩
    | campaign => exact ⟨hlines.append (by simp), .inl (by simp)⟩
    | grant x hnone | lostVote x hnone => simp [hnone] at hvote
    | lostTerm => exact ⟨hlines.append (by simp; omega), .inr ⟨rfl, hvote⟩⟩

lemma BallotMove.pledged (h : BallotMove inp self b b') (hb : b.Pledged) : b'.Pledged := by
  intro c hc
  cases h with
  | same => exact hb c hc
  | adopt => simp at hc
  | again => exact (hb c hc).append (by simp [show b.vote = some c from hc])
  | campaign =>
    cases hc
    exact ⟨b.lines ++ [(b.term + 1, none)], [], by simp, by simp⟩
  | grant =>
    cases hc
    exact ⟨_, _, rfl, by simp⟩
  | lostTerm => exact (hb c hc).append (by simp; omega)
  | lostVote x hnone => simp [show b.vote = some c from hc] at hnone

end

/-- A node, running or not, has voted for `c` in term `t`. -/
structure Slot.Voted (s : Slot) (t : ℕ) (c : Uuid) : Prop where
  lines : Bound t c (votes (s.disk.getD []))
  node : ∀ {n}, s.node = some n → t < n.term ∨ n.term = t ∧ n.votedFor = some c

lemma Slot.voted_iff (c : Conf) (t : ℕ) (x : Uuid) :
    Slot.Voted ⟨some c.node, some c.disk⟩ t x ↔ c.ballots.Voted t x := by
  constructor
  · rintro ⟨hl, hn⟩
    exact ⟨hl, hn rfl⟩
  · rintro ⟨hl, hn⟩
    exact ⟨hl, by rintro n ⟨⟩; exact hn⟩

/-- A node that goes down keeps its votes. -/
lemma Slot.Voted.down {s : Slot} {t : ℕ} {x : Uuid} {d : Option (List Line)} (h : s.Voted t x)
    (hd : votes (d.getD []) = votes (s.disk.getD [])) : Slot.Voted ⟨none, d⟩ t x :=
  ⟨by rw [hd]; exact h.lines, nofun⟩

/-! ### Standing for election -/

/-- How an action may bring a node into office or keep it there. -/
inductive Standing (inp : Input) (n n' : Node) : Prop
  | out (h : n'.role ≠ .candidate ∧ n'.role ≠ .leader)
  | same (hrole : n'.role = n.role) (hterm : n'.term = n.term)
      (hmask : n'.role = .candidate → n'.votesGrantedMask = n.votesGrantedMask)
  | campaign (i : ℕ) (hself : n.selfIndex = some i) (hrole : n'.role = .candidate)
      (hvote : n'.votedFor = some n.cfg.self) (hmask : n'.votesGrantedMask = 1 <<< i)
  | tally (m : Msg) (i : ℕ) (hm : Addressed inp n m) (hbody : m.body = .voteReply true)
      (hi : n.memberIndex m.sender = some i) (hold : n.role = .candidate)
      (hrole : n'.role = .candidate) (hterm : n'.term = n.term)
      (hmask : n'.votesGrantedMask = n.votesGrantedMask ||| 1 <<< i)
  | win (hold : n.role = .candidate) (hrole : n'.role = .leader) (hterm : n'.term = n.term)
      (hwin : n.hasVoteMajority n.votesGrantedMask)

variable {F : Prop} {n0 : Node} {inp : Input} {c c' : Conf} {cfg : Config} {base : List Member}

lemma Act.standing (h : Act F n0 inp c c') (hterm : c.node.term + 1 < 2 ^ 64)
    (hbase : cfg.members = base) (hc : c.node.Plain cfg base) (hinp : inp.Plain) :
    Standing inp c.node c'.node := by
  have hsame : ∀ {n' : Node}, n'.role = c.node.role → n'.term = c.node.term →
      n'.votesGrantedMask = c.node.votesGrantedMask → Standing inp c.node n' :=
    fun h1 h2 h3 => .same h1 h2 fun _ => h3
  have hfollow : ∀ {n' : Node}, n'.role = .follower → Standing inp c.node n' :=
    fun h => .out (by simp [h])
  cases h with
  | quiet n' h =>
    rcases h.role with hr | hr | hr
    · exact .same hr h.term h.mask
    · exact hfollow hr
    · exact .out (by simp [hr])
  | send | floor | matched | commit | truncate | push | follow | compact | install | quarantine
  | lost => exact hsame rfl rfl rfl
  | adopt | grant => exact hfollow rfl
  | campaign i e hs hself => exact .campaign i hself rfl rfl rfl
  | wrap => omega
  | tally m i hm hbody hrole hi => exact .tally m i hm hbody hi hrole hrole rfl rfl
  | win hrole hwin =>
    have hq := Quiet.matchSelf c.node.lead
    exact .win hrole (c.node.lead.matchSelf_role.trans rfl) (hq.term.trans rfl) hwin
  | append e r hok =>
    rw [pushed, if_pos (hok.plain hc hinp)]
    exact hsame rfl rfl rfl
  | refold ms hrole hms hne =>
    have hbase := (foldMembership_data hc.data hms).trans (hc.baseline hbase)
    exact absurd hbase (hc.members ▸ hne)

/-! ### Majorities -/

/-- The members that a set of marked slots names. -/
lemma Node.markedWeight_le (n : Node) {marked : ℕ → Bool} {S : Set Member}
    (h : ∀ i m, n.members[i]? = some m → marked i → m ∈ S) :
    n.markedWeight marked ≤ support Member.voteWeight n.members S := by
  have hgen : ∀ (ms : List Member) (k : ℕ),
      (∀ i m, ms[i]? = some m → marked (k + i) → m ∈ S) →
      (((ms.zipIdx k).filter fun p => marked p.2).map fun p => p.1.voteWeight).sum ≤
        support Member.voteWeight ms S := by
    intro ms
    induction ms with
    | nil => exact fun _ _ => le_rfl
    | cons m ms ih =>
      intro k hk
      have htail := ih (k + 1) fun i x hi hm => hk (i + 1) x hi (by rwa [← add_assoc,
        add_right_comm])
      rw [support_cons, zipIdx_cons, filter_cons]
      by_cases hm : marked k
      · have hS : m ∈ S := hk 0 m rfl hm
        simp only [hm, if_true, map_cons, sum_cons]
        refine Nat.add_le_add ?_ htail
        simp [support, hS]
      · simp only [hm, Bool.false_eq_true, if_false]
        omega
  exact hgen n.members 0 (by simpa using h)

lemma Node.majority_of_hasVoteMajority {n : Node} {mask : ℕ} {S : Set Member}
    (hwin : n.hasVoteMajority mask) (h : ∀ i m, n.members[i]? = some m → mask.testBit i → m ∈ S) :
    Majority Member.voteWeight n.members S := by
  simp only [hasVoteMajority, Bool.and_eq_true, decide_eq_true_eq] at hwin
  exact le_trans hwin.1 (n.markedWeight_le h)

/-! ### Groups -/

namespace Cluster

variable {cfg : Uuid → Config} {w w' : Cluster} {u : Uuid}

/-- Members of a weighted majority have voted for `u` in term `t`. -/
def Elected (base : List Member) (w : Cluster) (u : Uuid) (t : ℕ) : Prop :=
  Majority Member.voteWeight base {m | (w.slots m.id).Voted t u}

/-- No vote that was cast in `w` is taken back in `w'`. -/
def VotesKept (w w' : Cluster) : Prop :=
  ∀ v t x, (w.slots v).Voted t x → (w'.slots v).Voted t x

lemma Elected.mono {t : ℕ} (h : w.Elected base u t) (hw : VotesKept w w') : w'.Elected base u t :=
  Majority.mono h fun m _ hm => hw m.id t u hm

/-- A term has one winner. -/
lemma Elected.unique {v : Uuid} {t : ℕ} (h : w.Elected base u t) (h' : w.Elected base v t) :
    v = u := by
  obtain ⟨m, -, hu, hv⟩ := Majority.inter h h'
  exact hu.lines.unique hv.lines

/-- What a running node counts on. -/
structure NodeVotes (base : List Member) (w : Cluster) (u : Uuid) (n : Node) : Prop where
  pledged : ∀ {x}, n.votedFor = some x → (w.slots u).Voted n.term x
  tallied : n.role = .candidate → ∀ i m, n.members[i]? = some m → n.votesGrantedMask.testBit i →
    (w.slots m.id).Voted n.term u
  elected : n.role = .leader → w.Elected base u n.term

/-- Everything that counts as a vote is one; `E` holds elections of the past. -/
structure Votes (E : Uuid → ℕ → Prop) (base : List Member) (w : Cluster) : Prop where
  node : ∀ u n, w.node u = some n → NodeVotes base w u n
  replies : ∀ m ∈ w.sent, m.body = .voteReply true → (w.slots m.sender).Voted m.term m.dest
  past : ∀ u t, E u t → w.Elected base u t

lemma NodeVotes.mono {n : Node} (h : NodeVotes base w u n) (hw : VotesKept w w') :
    NodeVotes base w' u n :=
  ⟨fun hx => hw _ _ _ (h.pledged hx), fun hrole i m hi hbit =>
    hw _ _ _ (h.tallied hrole i m hi hbit), fun hrole => (h.elected hrole).mono hw⟩

variable {E : Uuid → ℕ → Prop}

/-- A property of all running nodes, when one of them moved. -/
lemma forall_node_put {P : Uuid → Node → Prop} : (∀ v n, (w.put u c).node v = some n → P v n) ↔
      P u c.node ∧ ∀ v, v ≠ u → ∀ n, w.node v = some n → P v n := by
  constructor
  · intro h
    refine ⟨h u _ (w.node_put_self u c), fun v hv n hn => h v n ?_⟩
    rwa [node_put_ne w c hv]
  · rintro ⟨hu, hother⟩ v n hn
    by_cases hv : v = u
    · subst hv
      rw [node_put_self] at hn
      cases hn
      exact hu
    · rw [node_put_ne w c hv] at hn
      exact hother v hv n hn

lemma votesKept_put (h : ∀ t x, c.ballots.Voted t x → c'.ballots.Voted t x) :
    VotesKept (w.put u c) (w.put u c') := by
  intro v t x hv
  by_cases hvu : v = u
  · subst hvu
    rw [put_slots_self, Slot.voted_iff] at hv ⊢
    exact h t x hv
  · rw [put_slots_ne w c hvu] at hv
    rwa [put_slots_ne w c' hvu]

lemma NodeVotes.move (hself : c.node.cfg.self = u) (hindexed : c.node.SelfIndexed)
    (hmembers : c'.node.members = c.node.members) (hbase : c.node.members = base)
    (h : NodeVotes base (w.put u c) u c.node) (hkept : VotesKept (w.put u c) (w.put u c'))
    (hpledged : c'.ballots.Pledged) (hstanding : Standing inp c.node c'.node)
    (hreply : ∀ m, inp = .msg m → m.body = .voteReply true →
      ((w.put u c).slots m.sender).Voted m.term m.dest) :
    NodeVotes base (w.put u c') u c'.node := by
  have hown : ∀ {x}, c'.node.votedFor = some x → ((w.put u c').slots u).Voted c'.node.term x := by
    intro x hx
    rw [put_slots_self, Slot.voted_iff]
    exact hpledged.voted hx
  have hbit : ∀ {i j : ℕ}, (1 <<< j).testBit i → i = j := by
    intro i j h
    rw [Nat.one_shiftLeft, Nat.testBit_two_pow] at h
    exact (of_decide_eq_true h).symm
  refine ⟨hown, fun hrole i m hi hb => ?_, fun hrole => ?_⟩
  · rw [hmembers] at hi
    cases hstanding with
    | out h => exact absurd hrole h.1
    | same hr ht hmask =>
      rw [ht]
      exact hkept _ _ _ (h.tallied (hr ▸ hrole) i m hi (hmask hrole ▸ hb))
    | campaign j hj hr hvote hmask =>
      rw [hmask] at hb
      obtain rfl := hbit hb
      rw [hindexed] at hj
      rw [memberIndex_id hj hi, hself]
      exact hown (hself ▸ hvote)
    | tally a j ha hbody hj hold hr ht hmask =>
      rw [hmask, Nat.testBit_or, Bool.or_eq_true] at hb
      rw [ht]
      rcases hb with hb | hb
      · exact hkept _ _ _ (h.tallied hold i m hi hb)
      · obtain rfl := hbit hb
        have hrep := hreply a ha.input hbody
        rw [ha.dest, ha.term, hself, ← memberIndex_id hj hi] at hrep
        exact hkept _ _ _ hrep
    | win hold hr =>
      rw [hr] at hrole
      cases hrole
  · cases hstanding with
    | out h => exact absurd hrole h.2
    | same hr ht =>
      rw [ht]
      exact (h.elected (hr ▸ hrole)).mono hkept
    | campaign j hj hr | tally a j ha hbody hj hold hr =>
      rw [hr] at hrole
      cases hrole
    | win hold hr ht hwin =>
      rw [ht]
      refine Elected.mono ?_ hkept
      rw [← hbase]
      exact majority_of_hasVoteMajority hwin fun i m hi hb => h.tallied hold i m hi hb

lemma Votes.move (hg : Group cfg base) (hf : (w.put u c).Fixed cfg base)
    (h : (w.put u c).Votes E base) (hinp : inp.Plain) (hin : ∀ m, inp = .msg m → m ∈ w.sent)
    (hmove : Move F n0 inp c c') : (w.put u c').Votes E base := by
  have hterm := hf.toCapacity.term_lt (w.node_put_self u c)
  have hplain := (hf.plain u).node (w.node_put_self u c)
  have hplain' := ((hf.move hg hinp hin hmove).plain u).node (w.node_put_self u c')
  have hself : c.node.cfg.self = u := hplain.self.trans (hg.self u)
  have hballot := hmove.act.ballots hterm
  have hkept : VotesKept (w.put u c) (w.put u c') := votesKept_put fun t x => hballot.voted
  have hu := h.node u _ (w.node_put_self u c)
  have hpledged : c'.ballots.Pledged := by
    refine hballot.pledged fun x hx => ?_
    have hvoted := (hu.pledged hx).lines
    rwa [put_slots_self] at hvoted
  have hu' : NodeVotes base (w.put u c') u c'.node :=
    hu.move hself hplain.selfIndexed (hplain'.members.trans hplain.members.symm) hplain.members
      hkept hpledged (hmove.act.standing hterm (hg.members u) hplain hinp)
      fun m hm hbody => h.replies m (by simp [hin m hm]) hbody
  refine ⟨forall_node_put.mpr ⟨hu', fun v hv n hn => ?_⟩, fun m hm hbody => ?_,
    fun v t hE => (h.past v t hE).mono hkept⟩
  · exact (h.node v n (by rwa [node_put_ne w c hv])).mono hkept
  · obtain hm | ⟨-, -, hsender, -, hvote⟩ := hmove.act.mem_sent hterm hm
    · exact hkept _ _ _ (h.replies m hm hbody)
    · simp only [hbody] at hvote
      rw [hsender, hself, hvote.1]
      exact hkept _ _ _ (hu.pledged (hvote.2 trivial))

/-- Steps that send nothing. -/
lemma Votes.of_kept (h : w.Votes E base) (hkept : VotesKept w w') (hsent : w'.sent = w.sent)
    (hnode : ∀ v n, w'.node v = some n → w.node v = some n ∨ NodeVotes base w' v n) :
    w'.Votes E base := by
  refine ⟨fun v n hn => ?_, fun m hm hbody => ?_, fun v t hE => (h.past v t hE).mono hkept⟩
  · rcases hnode v n hn with hn | hn
    · exact (h.node v n hn).mono hkept
    · exact hn
  · exact hkept _ _ _ (h.replies m (hsent ▸ hm) hbody)

lemma votesKept_setSlot {s : Slot} (h : ∀ t x, (w.slots u).Voted t x → s.Voted t x) :
    VotesKept w (w.setSlot u s) :=
  forall_setSlot (P := fun v y => ∀ t x, (w.slots v).Voted t x → y.Voted t x).mpr
    ⟨h, fun _ _ _ _ => id⟩

lemma Votes.halt {disk : List Line} (h : (w.put u c).Votes E base)
    (hdisk : disk = c.disk ∨ disk = c.disk ++ [Line.torn]) :
    (w.halt u disk c.out).Votes E base := by
  have hvotes := votes_torn hdisk
  refine h.of_kept (forall_halt (P := fun v y => ∀ t x, ((w.put u c).slots v).Voted t x →
    y.Voted t x).mpr ⟨fun t x hv => ?_, fun v hv t x hx => ?_⟩) rfl fun v n hn => ?_
  · rw [put_slots_self] at hv
    exact hv.down hvotes
  · rwa [put_slots_ne w c hv] at hx
  · by_cases hv : v = u
    · subst hv
      simp at hn
    · rw [Cluster.node, halt_slots_ne w _ _ hv] at hn
      exact .inl (by rwa [node_put_ne w c hv])

lemma Votes.crash (h : w.Votes E base) (u : Uuid) :
    (w.setSlot u ⟨none, (w.slots u).disk⟩).Votes E base := by
  refine h.of_kept (votesKept_setSlot fun t x hv => hv.down rfl) rfl fun v n hn => ?_
  by_cases hv : v = u
  · simp [hv] at hn
  · exact .inl (by rwa [node_setSlot_ne w _ hv] at hn)

lemma Votes.opened {s : Slot} (h : w.Votes E base) (hdown : w.node u = none)
    (hs : Opened (cfg u) (w.slots u).disk s) : (w.setSlot u s).Votes E base := by
  have hvoted : ∀ {t x}, Bound t x (votes ((w.slots u).disk.getD [])) → s.Voted t x := by
    intro t x hb
    refine ⟨by rwa [votes_opened hs], fun hn => ?_⟩
    obtain ⟨v, hv, hcase⟩ := hb.getLast?
    have hballot := (ballot_opened hs hn).2
    rw [hv, Option.getD_some] at hballot
    rcases hcase with hlt | rfl
    · rw [← hballot] at hlt
      exact .inl hlt
    · exact .inr ⟨congrArg Prod.fst hballot, congrArg Prod.snd hballot⟩
  refine h.of_kept (votesKept_setSlot fun t x hv => hvoted hv.lines) rfl fun v n hn => ?_
  by_cases hv : v = u
  · subst hv
    rw [node_setSlot_self] at hn
    obtain ⟨hrole, hballot⟩ := ballot_opened hs hn
    refine .inr ⟨fun {x} hx => ?_, by simp [hrole], by simp [hrole]⟩
    rw [hx] at hballot
    rw [show (w.setSlot v s).slots v = s by simp [setSlot]]
    -- a new instance knows its own vote from the file
    refine hvoted (bound_of_getLast? ?_)
    cases hl : (votes ((w.slots v).disk.getD [])).getLast? with
    | none => simp [hl] at hballot
    | some => rw [hballot, hl, Option.getD_some]
  · exact .inl (by rwa [node_setSlot_ne w s hv] at hn)

lemma votes_init : init.Votes (fun _ _ => False) base := by
  refine ⟨fun u n hn => ?_, fun m hm => ?_, fun _ _ => False.elim⟩
  · cases hn
  · cases hm

/-- Fixed groups keep their votes, also when appends to the record files fail. -/
theorem votes_invariant (hg : Group cfg base) (E : Uuid → ℕ → Prop) :
    Invariant True cfg (fun _ op => op.static) (fun _ _ inp => inp.Plain)
      fun w => w.Fixed cfg base ∧ w.Votes E base where
  failed := fun b ⟨hf, hv⟩ =>
    ⟨⟨⟨hf.slot, hf.sent⟩, hf.plain, hf.data⟩, ⟨fun u n hn => ⟨(hv.node u n hn).pledged,
      (hv.node u n hn).tallied, (hv.node u n hn).elected⟩, hv.replies, hv.past⟩⟩
  ready := fun ⟨hf, _⟩ hop hcall hn => by
    obtain ⟨hdisk, hself, hfold, hplain⟩ := hf.ready hop hcall hn
    exact ⟨hdisk, fun _ _ => trivial, hself, hfold, hplain⟩
  move := fun ⟨hf, hv⟩ hinp hin hmove =>
    ⟨hf.move hg hinp hin hmove, hv.move hg hf hinp hin hmove⟩
  halt := fun ⟨hf, hv⟩ hdisk => ⟨hf.halt hdisk, hv.halt hdisk⟩
  crash := fun ⟨hf, hv⟩ => ⟨hf.crash _, hv.crash _⟩
  opened := fun ⟨hf, hv⟩ _ hdown hs => ⟨hf.opened hg hs, hv.opened hdown hs⟩
  copied := fun _ hop => by cases hop

/-- A leader after some events and a leader of the same term after more of them are one node. -/
theorem election_safety (hg : Group cfg base) (ops more : List Op)
    (hops : ∀ op ∈ ops ++ more, op.static) (a b : Uuid) (t : ℕ)
    (ha : (init.run cfg ops).Leads a t) (hb : (init.run cfg (ops ++ more)).Leads b t) : a = b := by
  have hinv := votes_invariant hg
  have hstatic : ∀ op ∈ ops, op.static := fun op hop => hops op (mem_append_left more hop)
  obtain ⟨hf, hv⟩ := (hinv _).run ⟨fixed_init, votes_init⟩ (meets_of_forall cfg hstatic _)
  obtain ⟨x, hx, hleadx, rfl⟩ := ha.exists
  -- the first election goes on record for the rest of the run
  have hpast : (init.run cfg ops).Votes (fun u t => u = a ∧ t = x.term) base := by
    refine ⟨hv.node, hv.replies, ?_⟩
    rintro u t ⟨rfl, rfl⟩
    exact (hv.node u x hx).elected hleadx
  obtain ⟨-, hv'⟩ := (hinv _).run ⟨hf, hpast⟩
    (meets_of_forall cfg (fun op hop => hops op (mem_append_right ops hop)) _)
  rw [run_append] at hb
  obtain ⟨y, hy, hleady, hterm⟩ := hb.exists
  have helected := (hv'.node b y hy).elected hleady
  rw [hterm] at helected
  exact helected.unique (hv'.past a x.term ⟨rfl, rfl⟩)

end Cluster

/-! ### A sample group -/

namespace Sample

def peer (k : UInt8) : Uuid := .ofBytes [k]

def voter (k : UInt8) : Member := ⟨peer k, .voter, 1⟩

/-- Default timings and no pre-vote, for the members `base`. -/
def config (base : List Member) (snapshotThreshold : ℕ) (u : Uuid) : Config where
  groupId := ['g']
  self := u
  members := base
  allowUnadmittedSelf := true
  electionTimeoutBaseMs := 0
  electionTimeoutSpreadMs := 0
  heartbeatIntervalMs := 0
  electionPriorityDelayMs := 0
  priorityTier := 0
  wanRttMs := 0
  enablePrevote := false
  snapshotThreshold := snapshotThreshold
  historyId := []
  writerEpochFloor := 0
  requireDataValidator := false
  validateData := none
  snapshotChunksSupported := none

def opens (k : UInt8) : Op := .openNode (peer k) []

def ticks (k : UInt8) (now : UInt64) : Op := .tick (peer k) now []

/-- Node `k` receives the message with number `i`. -/
def gets (k : UInt8) (i : ℕ) : Op := .deliver (peer k) i []

def trio : List Member := [voter 1, voter 2, voter 3]

/-- Node 1 of a group of three is elected by node 2. -/
def election : List Op := [opens 1, opens 2, opens 3, ticks 1 1000, gets 2 0, gets 1 2]

theorem election_safety_trio : (Cluster.init.run (config trio 0) election).Leads (peer 1) 1 ∧
      (Cluster.init.run (config trio 0) (election ++ [ticks 1 2000])).Leads (peer 1) 1 ∧
        peer 1 = peer 1 := by
  have hfirst : (Cluster.init.run (config trio 0) election).Leads (peer 1) 1 := by decide +kernel
  have hlater : (Cluster.init.run (config trio 0) (election ++ [ticks 1 2000])).Leads
      (peer 1) 1 := by decide +kernel
  have hg : Group (config trio 0) trio := ⟨fun _ => rfl, fun _ => rfl⟩
  exact ⟨hfirst, hlater, Cluster.election_safety hg _ _ (by decide) _ _ _ hfirst hlater⟩

end Sample

/-! ### Election timeouts -/

section

open Set

/-- The values of 64 bits. -/
abbrev Word : Set ℕ := Iio (2 ^ 64)

lemma surjOn_xorShift {k : ℕ} (hk : 64 ≤ 3 * k) :
    SurjOn (fun z => z ^^^ z >>> k) Word Word := by
  intro y (hy : y < 2 ^ 64)
  have hshift (m : ℕ) : y >>> m < 2 ^ 64 := (Nat.shiftRight_le y m).trans_lt hy
  have hgone : y >>> (2 * k + k) = 0 := by
    rw [Nat.shiftRight_eq_div_pow]
    exact Nat.div_eq_of_lt (hy.trans_le (Nat.pow_le_pow_right two_pos (by omega)))
  refine ⟨y ^^^ (y >>> k ^^^ y >>> (2 * k)),
    Nat.xor_lt_two_pow hy (Nat.xor_lt_two_pow (hshift _) (hshift _)), ?_⟩
  simp only [Nat.shiftRight_xor_distrib, ← Nat.shiftRight_add, hgone, ← Nat.two_mul, Nat.xor_zero]
  rw [Nat.xor_assoc, Nat.xor_self, Nat.xor_zero]

lemma surjOn_u64_mul {c d : ℕ} (h : u64 (d * c) = 1) :
    SurjOn (fun z => u64 (z * c)) Word Word := by
  intro y (hy : y < 2 ^ 64)
  have hmul : u64 (u64 (y * d) * c) = y * u64 (d * c) % 2 ^ 64 := by
    simp only [u64, Nat.mod_mul_mod, Nat.mul_mod_mod, mul_assoc]
  rw [h, mul_one, Nat.mod_eq_of_lt hy] at hmul
  exact ⟨u64 (y * d), Nat.mod_lt _ (by decide), hmul⟩

/-- Every step of the mixing can be undone. -/
lemma surjOn_splitmix64 : SurjOn splitmix64 Word Word :=
  (surjOn_xorShift (k := 31) (by decide)).comp <|
    (surjOn_u64_mul (d := 0x319642B2D24D8EC3) (by decide)).comp <|
    (surjOn_xorShift (k := 27) (by decide)).comp <|
    (surjOn_u64_mul (d := 0x96DE1B173F119089) (by decide)).comp <|
    surjOn_xorShift (k := 30) (by decide)

lemma surjOn_jitter {hash : ℕ} (hh : hash < 2 ^ 64) :
    SurjOn (fun term => splitmix64 (hash ^^^ u64 (term * 0x9E3779B97F4A7C15))) Word Word := by
  have hxor : SurjOn (fun z => hash ^^^ z) Word Word := fun y hy =>
    ⟨hash ^^^ y, Nat.xor_lt_two_pow hh hy, Nat.xor_xor_cancel_left hash y⟩
  exact surjOn_splitmix64.comp (hxor.comp (surjOn_u64_mul (d := 0xF1DE83E19937733D) (by decide)))

end

namespace Node

/-- Where the election window of a node begins. -/
def windowStart (n : Node) : ℕ :=
  u64 (n.cfg.electionTimeoutBaseMs +
    u64 (n.selfIndex.getD 0 * n.cfg.electionTimeoutSpreadMs) / max 1 n.members.length +
    n.cfg.electionPriorityDelayMs)

/-- How many timeouts are in the window. -/
def windowSize (n : Node) : ℕ :=
  max 1 (n.cfg.electionTimeoutSpreadMs / max 1 n.members.length)

/-- The fields of the node that are 64 bits wide. -/
structure Wide (n : Node) : Prop where
  hash : n.selfHash < 2 ^ 64
  spread : n.cfg.electionTimeoutSpreadMs < 2 ^ 64

lemma electionTimeoutMs_eq (n : Node) (term : ℕ) : n.electionTimeoutMs term =
    u64 (n.windowStart +
      splitmix64 (n.selfHash ^^^ u64 (term * 0x9E3779B97F4A7C15)) % n.windowSize) := by
  unfold electionTimeoutMs windowStart windowSize
  have hone (k : ℕ) : (if k = 0 then 1 else k) = max 1 k := by split_ifs <;> omega
  simp only [hone, u64, Nat.mod_add_mod]
  congr 1
  omega

/-- The timeouts of a node over all terms are its window. -/
lemma Wide.exists_term {n : Node} (h : n.Wide) {x : ℕ} (hx : x < n.windowSize) :
    ∃ term < 2 ^ 64, n.electionTimeoutMs term = u64 (n.windowStart + x) := by
  have hsize : n.windowSize ≤ 2 ^ 64 :=
    max_le (by decide) ((Nat.div_le_self ..).trans h.spread.le)
  obtain ⟨term, hterm, heq⟩ := surjOn_jitter h.hash (hx.trans_le hsize)
  refine ⟨term, hterm, ?_⟩
  dsimp only at heq
  rw [electionTimeoutMs_eq, heq, Nat.mod_eq_of_lt hx]

end Node

/-- All timeouts of one node are below all those of another one exactly when its window ends before
the other one begins, and that one does not wrap. -/
theorem electionTimeoutMs_lt_iff {a b : Node} (ha : a.Wide) (hb : b.Wide) :
    (∀ s < 2 ^ 64, ∀ t < 2 ^ 64, a.electionTimeoutMs s < b.electionTimeoutMs t) ↔
      a.windowStart + a.windowSize ≤ b.windowStart ∧ b.windowStart + b.windowSize ≤ 2 ^ 64 := by
  have hstart (n : Node) : n.windowStart < 2 ^ 64 := Nat.mod_lt _ (by decide)
  have hpos (n : Node) : 0 < n.windowSize := lt_of_lt_of_le one_pos (le_max_left ..)
  have has := hstart a
  have hbs := hstart b
  have hap := hpos a
  have hbp := hpos b
  constructor
  · intro h
    have hbelow {x y : ℕ} (hx : x < a.windowSize) (hy : y < b.windowSize) :
        u64 (a.windowStart + x) < u64 (b.windowStart + y) := by
      obtain ⟨s, hs, hseq⟩ := ha.exists_term hx
      obtain ⟨t, ht, hteq⟩ := hb.exists_term hy
      exact hseq ▸ hteq ▸ h s hs t ht
    unfold u64 at hbelow
    -- a window that wraps has the smallest and the largest timeout there is
    have hwrap : b.windowStart + b.windowSize ≤ 2 ^ 64 := by
      by_contra hlt
      have := hbelow hap (y := 2 ^ 64 - b.windowStart) (by omega)
      omega
    have hwrap' : a.windowStart + a.windowSize ≤ 2 ^ 64 := by
      by_contra hlt
      have := hbelow (x := 2 ^ 64 - 1 - a.windowStart) (by omega) hbp
      omega
    have := hbelow (x := a.windowSize - 1) (by omega) hbp
    omega
  · intro h s _ t _
    rw [electionTimeoutMs_eq, electionTimeoutMs_eq]
    have hx := Nat.mod_lt (splitmix64 (a.selfHash ^^^ u64 (s * 0x9E3779B97F4A7C15))) hap
    have hy := Nat.mod_lt (splitmix64 (b.selfHash ^^^ u64 (t * 0x9E3779B97F4A7C15))) hbp
    generalize splitmix64 _ % _ = x at *
    generalize splitmix64 _ % _ = y at *
    unfold u64
    omega

namespace Sample

/-- A configuration of three members with a spread of its own. -/
def wide (spread : ℕ) (k : UInt8) : Config :=
  { config trio 0 (peer k) with electionTimeoutSpreadMs := spread }

/-- Both members are admitted, the product with the last index wraps to zero, and the timeout of the
later member is the shorter one. -/
theorem electionTimeoutMs_gt_of_wrap : ((wide (2 ^ 63) 2).prepare false).any (fun c =>
    ((wide (2 ^ 63) 3).prepare false).any fun d =>
      (blank c).selfIndex = some 1 && (blank d).selfIndex = some 2 &&
        (blank d).electionTimeoutMs 1 < (blank c).electionTimeoutMs 1) = true := by
  decide +kernel

/-- The largest spread: the windows of the first two members do not meet. -/
theorem electionTimeoutMs_lt_trio :
    (blank (wide (2 ^ 64 - 1) 1).withDefaults).electionTimeoutMs 1 <
      (blank (wide (2 ^ 64 - 1) 2).withDefaults).electionTimeoutMs 7 := by
  have ha : (blank (wide (2 ^ 64 - 1) 1).withDefaults).Wide :=
    ⟨by decide +kernel, by decide +kernel⟩
  have hb : (blank (wide (2 ^ 64 - 1) 2).withDefaults).Wide :=
    ⟨by decide +kernel, by decide +kernel⟩
  exact (electionTimeoutMs_lt_iff ha hb).mpr (by decide +kernel) 1 (by decide) 7 (by decide)

end Sample

end Qihse.Consensus
