import Qihse.Consensus.Run

/-!
# Terms, votes and vote lines

How an action may change the term and the vote of a node and the vote lines of its file.
-/

namespace Qihse.Consensus

open Replay List

/-! ### The lines of entries and snapshots -/

lemma mem_of_mapM {α β : Type} {f : α → Option β} {xs : List α} {ys : List β}
    (h : xs.mapM f = some ys) {y : β} (hy : y ∈ ys) : ∃ x ∈ xs, f x = some y := by
  induction xs generalizing ys with
  | nil =>
    simp only [mapM_nil] at h
    cases h
    simp at hy
  | cons x xs ih =>
    simp only [mapM_cons, Option.bind_eq_bind, Option.bind_eq_some_iff] at h
    obtain ⟨z, hz, zs, hzs, heq⟩ := h
    cases heq
    rcases mem_cons.mp hy with rfl | hy
    · exact ⟨x, by simp, hz⟩
    · obtain ⟨x', hx', hf⟩ := ih hzs hy
      exact ⟨x', by simp [hx'], hf⟩

variable {e : Entry} {r : Record}

lemma persistConfigEntry_announces (h : e.persistConfigEntry = some r) : announces r := by
  cases ht : e.type <;> simp only [Entry.persistConfigEntry, ht, reduceCtorEq] at h <;>
    split_ifs at h <;> cases h <;> rfl

lemma persistAny_announces (h : e.persistAny = some r) : announces r := by
  unfold Entry.persistAny at h
  split at h
  · unfold Entry.persistEntry at h
    split_ifs at h
    cases h
    rfl
  · exact persistConfigEntry_announces h
  · exact persistConfigEntry_announces h
  all_goals
    simp only [Entry.persistJointMarker, ‹e.type = _›] at h
    split_ifs at h
    cases h
    rfl

lemma persistSnapshotEntry_announces (h : e.persistSnapshotEntry = some r) : announces r := by
  unfold Entry.persistSnapshotEntry at h
  split_ifs at h
  · exact persistConfigEntry_announces h
  · cases h
    rfl

lemma persistAny_voteOf (h : e.persistAny = some r) : voteOf (.record r) = none :=
  voteOf_of_announces (persistAny_announces h)

variable {rs : List Record}

lemma votes_eq_nil (h : ∀ r ∈ rs, voteOf (.record r) = none) : votes (rs.map .record) = [] := by
  simpa [votes] using h

lemma votes_snapshotRecords {v2 : Bool} {s : Snapshot} (h : snapshotRecords v2 s = some rs) :
    votes (rs.map .record) = [] := by
  obtain ⟨es, hes, rfl⟩ := Option.map_eq_some_iff.mp h
  refine votes_eq_nil fun r hr => ?_
  simp only [cons_append, mem_cons, mem_append, not_mem_nil, or_false] at hr
  rcases hr with rfl | hr | rfl
  · rfl
  · obtain ⟨e, -, he⟩ := mem_of_mapM hes hr
    exact voteOf_of_announces (persistSnapshotEntry_announces he)
  · rfl

lemma votes_partialSnapshot {v2 : Bool} {s : Snapshot} (h : PartialSnapshot v2 s rs) :
    votes (rs.map .record) = [] := by
  rcases h with rfl | ⟨k, es, hes, rfl⟩
  · rfl
  · refine votes_eq_nil (forall_mem_cons.mpr ⟨rfl, fun r hr => ?_⟩)
    obtain ⟨e, -, he⟩ := mem_of_mapM hes hr
    exact voteOf_of_announces (persistSnapshotEntry_announces he)

/-! ### Actions on the ballot -/

/-- The term, the vote and the vote lines of a node. -/
structure Ballots where
  term : ℕ
  vote : Option Uuid
  lines : List (ℕ × Option Uuid)

def Conf.ballots (c : Conf) : Ballots := ⟨c.node.term, c.node.votedFor, votes c.disk⟩

/-- How an action may change the ballot of node `self`. -/
inductive BallotMove (inp : Input) (self : Uuid) (b : Ballots) : Ballots → Prop
  | same : BallotMove inp self b b
  | adopt (t : ℕ) (ht : b.term < t) (hsrc : Heard inp t ∨ t = b.term + 1) :
      BallotMove inp self b ⟨t, none, b.lines ++ [(t, none)]⟩
  | again : BallotMove inp self b ⟨b.term, b.vote, b.lines ++ [(b.term, b.vote)]⟩
  | campaign : BallotMove inp self b
      ⟨b.term + 1, some self, b.lines ++ [(b.term + 1, none), (b.term + 1, some self)]⟩
  | grant (c : Uuid) (hv : b.vote = none) :
      BallotMove inp self b ⟨b.term, some c, b.lines ++ [(b.term, some c)]⟩
  /-- A line that was reported as failed is in the file all the same. -/
  | lostTerm (t : ℕ) (ht : b.term < t) (hsrc : Heard inp t ∨ t = b.term + 1) :
      BallotMove inp self b ⟨b.term, b.vote, b.lines ++ [(t, none)]⟩
  | lostVote (c : Uuid) (hv : b.vote = none) :
      BallotMove inp self b ⟨b.term, b.vote, b.lines ++ [(b.term, some c)]⟩

variable {self : Uuid}

lemma BallotMove.of_same {inp : Input} {b b' : Ballots} (ht : b'.term = b.term)
    (hv : b'.vote = b.vote) (hl : b'.lines = b.lines) : BallotMove inp self b b' := by
  cases b
  cases b'
  cases ht
  cases hv
  cases hl
  exact .same

variable {F : Prop} {n0 : Node} {inp : Input} {c c' : Conf}

/-- An action that appends `ls` to the file. -/
lemma BallotMove.of_append {t : ℕ} {v : Option Uuid} {ls : List Line} (ht : c'.node.term = t)
    (hv : c'.node.votedFor = v) (hl : c'.disk = c.disk ++ ls)
    (h : BallotMove inp self c.ballots ⟨t, v, c.ballots.lines ++ votes ls⟩) :
    BallotMove inp self c.ballots c'.ballots := by
  have hballots : c'.ballots = ⟨t, v, c.ballots.lines ++ votes ls⟩ := by
    rw [Conf.ballots, ht, hv, hl, votes_append]
    rfl
  rw [hballots]
  exact h

/-- An action that appends a line without a vote. -/
lemma BallotMove.of_voteless {l : Line} (ht : c'.node.term = c.node.term)
    (hv : c'.node.votedFor = c.node.votedFor) (hl : c'.disk = c.disk ++ [l])
    (hvote : voteOf l = none) : BallotMove inp self c.ballots c'.ballots := by
  have hnone : votes [l] = [] := by simp [votes, hvote]
  refine .of_append ht hv hl ?_
  rw [hnone, append_nil]
  exact .same

lemma Act.ballots (h : Act F n0 inp c c') (hterm : c.node.term + 1 < 2 ^ 64) :
    BallotMove inp c.node.cfg.self c.ballots c'.ballots := by
  cases h with
  | quiet n' h => exact .of_same h.term h.votedFor rfl
  | send | tally | matched => exact .same
  | adopt t e ht he hsrc => exact .of_append rfl rfl rfl (.adopt t ht hsrc)
  | floor => exact .of_append rfl rfl rfl .again
  | campaign => exact .of_append rfl rfl rfl .campaign
  | wrap => omega
  | grant m li lt hm hbody hv =>
    exact .of_append rfl rfl rfl (.grant m.sender hv)
  | win =>
    have hq := Quiet.matchSelf c.node.lead
    exact .of_same hq.term hq.votedFor rfl
  | commit | truncate | follow => exact .of_voteless rfl rfl rfl rfl
  | append e r hok hr =>
    have hvote := persistAny_voteOf hr
    unfold Node.pushed
    split_ifs
    · exact .of_voteless rfl rfl rfl hvote
    · have hf := (c.node.push e).refolded_recomputed
      exact .of_voteless hf.term hf.votedFor rfl hvote
  | refold ms =>
    have hf := c.node.refolded_setMembership ms
    exact .of_same hf.term hf.votedFor rfl
  | push m prev pt lc es j e r hm hbody hrole hj hholds hlast hindex hlen hfold hr =>
    exact .of_voteless rfl rfl rfl (persistAny_voteOf hr)
  | compact s rs hs hrs | install m s rs hinp hok hrole hsame hcommit hrs =>
    refine .of_append rfl rfl rfl ?_
    rw [votes_snapshotRecords hrs, append_nil]
    exact .same
  | quarantine v2 s rs torn hs hrs ht =>
    have hrs : votes (rs.map .record) = [] :=
      hrs.elim votes_partialSnapshot fun h => votes_snapshotRecords h.2
    have ht : votes torn = [] := by
      rcases ht with rfl | ⟨-, rfl⟩ <;> rfl
    exact .of_same rfl rfl (by simp [Conf.ballots, hrs, ht])
  | lost d hF hd =>
    rcases hd with rfl | ⟨r, rfl, hr⟩
    · exact .of_voteless rfl rfl rfl rfl
    · cases hr with
      | adopt t e ht he hsrc => exact .of_append rfl rfl rfl (.lostTerm t ht hsrc)
      | floor => exact .of_append rfl rfl rfl .again
      | ballot u hv =>
        have hv : c.node.votedFor = none := hv.resolve_right (by omega)
        exact .of_append rfl rfl rfl (.lostVote u hv)
      | stored e _ he hr => exact .of_voteless rfl rfl rfl (persistAny_voteOf hr)
      | truncate | commit => exact .of_voteless rfl rfl rfl rfl

/-- Each new term comes with a vote line. -/
lemma BallotMove.room {b b' : Ballots} {T : ℕ} (h : BallotMove inp self b b') (hterm : b.term ≤ T)
    (hheard : ∀ t, Heard inp t → t ≤ T) :
    ∃ new, b'.lines = b.lines ++ new ∧ b'.term ≤ T + new.length ∧
      ∀ v ∈ new, v.1 ≤ T + new.length := by
  have hsrc : ∀ t, (Heard inp t ∨ t = b.term + 1) → t ≤ T + 1 := by
    rintro t (h | h)
    · have := hheard t h
      omega
    · omega
  cases h with
  | same => exact ⟨[], by simp, by simpa using hterm, by simp⟩
  | adopt t ht hs => exact ⟨_, rfl, hsrc t hs, by simpa using hsrc t hs⟩
  | again | campaign | grant | lostVote => exact ⟨_, rfl, by simp; omega, by simp; omega⟩
  | lostTerm t ht hs => exact ⟨_, rfl, by simp; omega, by simpa using hsrc t hs⟩

lemma MaySend.term {n : Node} {m : Msg} (h : MaySend inp n m) (hpre : m.body.isPreVote = false) :
    m.term = n.term := by
  obtain ⟨-, -, -, h⟩ := h
  generalize m.body = body at h hpre
  cases body with
  | preVote => cases hpre
  | preVoteReply | snapshotChunk => exact h
  | _ => exact h.1

/-- What an action sends. -/
lemma Act.out (h : Act F n0 inp c c') (hterm : c.node.term + 1 < 2 ^ 64) :
    c'.out = c.out ∨ ∃ m, c'.out = c.out ++ [m] ∧ MaySend inp c.node m ∧ c'.node = c.node ∧
      c'.disk = c.disk := by
  cases h with
  | send m h => exact .inr ⟨m, rfl, h, rfl, rfl⟩
  | wrap => omega
  | _ => exact .inl rfl

/-- A message of the group after an action was sent before, or is the one that the action sends. -/
lemma Act.mem_sent {w : Cluster} {u : Uuid} {m : Msg} (h : Act F n0 inp c c')
    (hterm : c.node.term + 1 < 2 ^ 64) (hm : m ∈ (w.put u c').sent) :
    m ∈ (w.put u c).sent ∨ c'.out = c.out ++ [m] ∧ MaySend inp c.node m := by
  rcases h.out hterm with ho | ⟨m', ho, hmay, -⟩
  · exact .inl (by simpa [ho] using hm)
  · rw [Cluster.put_sent, ho, ← append_assoc, ← Cluster.put_sent] at hm
    rcases mem_append.mp hm with hm | hm
    · exact .inl hm
    · cases mem_singleton.mp hm
      exact .inr ⟨ho, hmay⟩

end Qihse.Consensus
