import Qihse.Consensus.Trace.Rules

/-!
# Operations are sequences of actions: the follower
-/

namespace Qihse.Consensus

open Crash Crash.Prog List Node

variable {F : Prop} {n0 : Node} {inp : Input} {c0 c c' : Conf} {p p' : Proc}

/-! ### Agreement with a batch -/

variable {n n' : Node} {prev prevTerm : ℕ} {es : List Entry}

section

variable (h : n.Holds prev prevTerm es)
include h

lemma Node.Holds.congr (hs : n.SameLog n') : n'.Holds prev prevTerm es := by
  refine ⟨hs.absLastIndex ▸ h.le, h.zero, fun h1 => ?_, fun j e hj => ?_⟩
  · rw [← h.term h1]
    simp [termAt, entryAt, hs.snap, hs.log]
  · simpa [hs.entries] using h.stored j e hj

/-- The batch ends within the log. -/
lemma Node.Holds.last_le : prev + es.length ≤ n.absLastIndex := by
  rcases Nat.eq_zero_or_pos es.length with h0 | hpos
  · rw [h0]
    exact h.le
  · obtain ⟨-, l, hl, -⟩ := h.stored (es.length - 1) es[es.length - 1] (getElem?_eq_getElem _)
    rw [entryAt_succ] at hl
    have := (List.getElem?_eq_some_iff.mp hl).1
    rw [entries_length] at this
    omega

/-- One more entry of the batch. -/
lemma Node.Holds.snoc {e l : Entry}
    (hindex : e.index = prev + es.length + 1) (hl : n.entryAt (prev + es.length + 1) = some l)
    (hid : l.identical e) : n.Holds prev prevTerm (es ++ [e]) := by
  refine ⟨h.le, h.zero, h.term, fun j x hj => ?_⟩
  rw [getElem?_append] at hj
  split_ifs at hj with hlt
  · exact h.stored j x hj
  · have hj0 : j - es.length = 0 := by
      have := (List.getElem?_eq_some_iff.mp hj).1
      simp at this
      omega
    obtain rfl : j = es.length := by omega
    simp only [Nat.sub_self, getElem?_cons_zero, Option.some.injEq] at hj
    subst hj
    exact ⟨hindex, l, hl, hid⟩

lemma Node.Holds.push {e : Entry}
    (hindex : e.index = prev + es.length + 1) (hlast : n.absLastIndex = prev + es.length) :
    (n.push e).Holds prev prevTerm (es ++ [e]) := by
  have hkeep : (n.push e).Holds prev prevTerm es := by
    refine ⟨by simpa using Nat.le_succ_of_le h.le, h.zero, fun h1 => ?_, fun j x hj => ?_⟩
    · obtain ⟨k, rfl⟩ : ∃ k, prev = k + 1 := ⟨prev - 1, by omega⟩
      have hk := h.le
      rw [← h.term h1, termAt_succ, termAt_succ, entries_push,
        getElem?_append_left (by rw [entries_length]; omega)]
    · obtain ⟨hi, l, hl, hid⟩ := h.stored j x hj
      refine ⟨hi, l, ?_, hid⟩
      rw [entryAt_succ] at hl ⊢
      rw [entries_push, getElem?_append_left (List.getElem?_eq_some_iff.mp hl).1]
      exact hl
  refine hkeep.snoc hindex (l := e) ?_ e.identical_refl
  rw [entryAt_succ, entries_push, ← hlast, ← entries_length]
  simp

lemma Node.Holds.truncate (hsnap : n.snap.entries.length ≤ prev + es.length) :
    (n.truncateFrom (prev + es.length + 1)).Holds prev prevTerm es := by
  have hent := n.entries_truncateFrom hsnap
  have hle := h.last_le
  refine ⟨?_, h.zero, fun h1 => ?_, fun j x hj => ?_⟩
  · rw [← entries_length, hent, length_take, entries_length]
    omega
  · obtain ⟨k, rfl⟩ : ∃ k, prev = k + 1 := ⟨prev - 1, by omega⟩
    rw [← h.term h1, termAt_succ, termAt_succ, hent, getElem?_take_of_lt (by omega)]
  · obtain ⟨hi, l, hl, hid⟩ := h.stored j x hj
    refine ⟨hi, l, ?_, hid⟩
    have hlt := (List.getElem?_eq_some_iff.mp hj).1
    rw [entryAt_succ] at hl ⊢
    rw [hent, getElem?_take_of_lt (by omega)]
    exact hl

end

/-! ### Storing a batch -/

/-- The loop of `qcs_handle_append` after `j` entries of the batch. -/
structure Storing (F : Prop) (n0 : Node) (inp : Input) (c0 : Conf) (m : Msg) (prev prevTerm : ℕ)
    (es : List Entry) (j : ℕ) (p : Proc) : Prop where
  good : Good F n0 inp c0 p
  addressed : Addressed inp p.node m
  role : p.node.role = .follower
  holds : p.node.Holds prev prevTerm (es.take j)
  commit : p.node.commit = n0.commit
  /-- Until the log is first changed it is the one the operation found. -/
  progress : n0.SameLog p.node ∨ p.node.absLastIndex = prev + j

variable {m : Msg} {leaderCommit j : ℕ} {e : Entry}

/-- What holds after one round of the loop. -/
def StoredOne (F : Prop) (n0 : Node) (inp : Input) (c0 : Conf) (m : Msg) (prev prevTerm : ℕ)
    (es : List Entry) (j : ℕ) : Stored → Proc → Prop
  | .all _, p => Storing F n0 inp c0 m prev prevTerm es j p
  | .refused _, p => Good F n0 inp c0 p

lemma take_length_of_getElem? (hj : es[j]? = some e) : (es.take j).length = j := by
  have := (List.getElem?_eq_some_iff.mp hj).1
  simp
  omega

lemma take_succ_of_getElem? (hj : es[j]? = some e) : es.take (j + 1) = es.take j ++ [e] := by
  rw [take_add_one, hj]
  rfl

section

variable (hp : Storing F n0 inp c0 m prev prevTerm es j p)
include hp

section

variable (hbody : m.body = .append prev prevTerm leaderCommit es) (hj : es[j]? = some e)
include hbody hj

lemma Storing.storeNew (hlen : e.payload.length ≤ payloadMax)
    (hlast : p.node.absLastIndex = prev + j) (touched : Bool) :
    Sat (Consensus.storeNew e (prev + j + 1) touched) p
      (StoredOne F n0 inp c0 m prev prevTerm es (j + 1)) (Dead F n0 inp c0) := by
  simp only [Consensus.storeNew, sat_bind, sat_ite, sat_pure]
  refine ⟨fun _ => hp.good, fun hindex => ⟨fun _ => hp.good, fun hfold => ?_⟩⟩
  have hindex : e.index = prev + j + 1 := by simpa using hindex
  have hact : ∀ r, e.persistAny = some r →
      Act F n0 inp p.conf ⟨p.node.push e, p.disk ++ [Line.record r], p.out⟩ := fun r hr =>
    .push p.conf m prev prevTerm leaderCommit es j e r hp.addressed hbody hp.role hj hp.holds
      hlast hindex hlen (fun htype hnone => hfold ⟨htype, hnone⟩) hr
  have hsrc : Offered n0 inp p.node e :=
    .inr ⟨m, prev, prevTerm, leaderCommit, es, hp.addressed, hbody, mem_of_getElem? hj⟩
  refine hp.good.store hact hsrc ?_ ?_
  · intro p' hn hgood
    rw [← hn] at hgood
    refine on_true ?_
    have htake := take_length_of_getElem? hj
    refine ⟨hgood, ?_, ?_, ?_, ?_, .inr ?_⟩
    · exact hn ▸ hp.addressed.congr rfl rfl rfl
    · exact hn ▸ hp.role
    · rw [take_succ_of_getElem? hj, hn]
      exact hp.holds.push (by rw [htake]; exact hindex) (by rw [htake]; exact hlast)
    · exact hn ▸ hp.commit
    · rw [hn]
      exact (absLastIndex_push _ _).trans (by omega)
  · exact fun p' _ hgood => on_false hgood

lemma Storing.storeOne (hindex : e.index = prev + j + 1) (hlen : e.payload.length ≤ payloadMax)
    (touched : Bool) :
    Sat (Consensus.storeOne e (prev + j + 1) touched) p
      (StoredOne F n0 inp c0 m prev prevTerm es (j + 1)) (Dead F n0 inp c0) := by
  have htake := take_length_of_getElem? hj
  have hle : prev + j ≤ p.node.absLastIndex := htake ▸ hp.holds.last_le
  simp only [Consensus.storeOne, sat_read]
  cases hl : p.node.entryAt (prev + j + 1) with
  | none =>
    rw [entryAt_succ, List.getElem?_eq_none_iff, entries_length] at hl
    exact hp.storeNew hbody hj hlen (by omega) touched
  | some l =>
    simp only [sat_ite, sat_bind, sat_pure, sat_modifyNode]
    refine ⟨fun hterm => ⟨fun hid => ?_, fun _ => hp.good⟩, fun hne => ⟨fun _ => hp.good,
      fun hsnap => ?_⟩⟩
    · -- the entry is there already
      refine { hp with holds := ?_, progress := hp.progress.imp_right fun h => ?_ }
      · rw [take_succ_of_getElem? hj]
        exact hp.holds.snoc (by rw [htake]; exact hindex) (by rw [htake]; exact hl) hid
      · rw [entryAt_succ] at hl
        have := (List.getElem?_eq_some_iff.mp hl).1
        rw [entries_length] at this
        omega
    · -- the log has another entry there
      have hsnap : p.node.snap.entries.length ≤ prev + j := by omega
      refine hp.good.persistTo (hp.good.reach (.truncate p.conf m prev prevTerm leaderCommit es j
        e l hp.addressed hbody hp.role hj hp.holds hl hne (by simp only [Proc.conf_node]; omega)))
        (.truncate _) rfl ?_ ?_
      · intro p' hn _ _ _ hgood
        refine on_true ?_
        have hent := p.node.entries_truncateFrom hsnap
        have hlast : (p.node.truncateFrom (prev + j + 1)).absLastIndex = prev + j := by
          rw [← entries_length, hent, length_take, entries_length]
          omega
        rw [hn]
        refine storeNew (j := j) ⟨hgood, ?_, hp.role, ?_, hp.commit, .inr hlast⟩ hbody hj
          hlen hlast true
        · exact hp.addressed.congr rfl rfl rfl
        · have h := hp.holds.truncate (by rw [htake]; exact hsnap)
          rwa [htake] at h
      · intro p' hn hgood
        rw [← hn] at hgood
        exact on_false hgood

end

end

/-- The whole loop. -/
lemma Storing.storeAll (hbody : m.body = .append prev prevTerm leaderCommit es)
    (hcheck : ∀ j e, es[j]? = some e → e.index = prev + j + 1 ∧ e.payload.length ≤ payloadMax)
    {rest : List Entry} (hp : Storing F n0 inp c0 m prev prevTerm es j p) (hle : j ≤ es.length)
    (hrest : es.drop j = rest) (touched : Bool) : Sat (Consensus.storeAll rest (prev + j) touched) p
      (StoredOne F n0 inp c0 m prev prevTerm es es.length) (Dead F n0 inp c0) := by
  induction rest generalizing j p touched with
  | nil =>
    obtain rfl : j = es.length := le_antisymm hle (drop_eq_nil_iff.mp hrest)
    exact hp
  | cons e rest ih =>
    have hj := getElem?_of_drop hrest
    obtain ⟨hindex, hlen⟩ := hcheck j e hj
    simp only [storeAll, sat_bind]
    refine (hp.storeOne hbody hj hindex hlen touched).imp fun r q hq => ?_
    cases r with
    | refused => exact hq
    | all touched' =>
      exact ih hq (List.getElem?_eq_some_iff.mp hj).1 (drop_succ_of_drop hrest) touched'

/-! ### Appends -/

lemma Good.replyRefusal (hp : Good F n0 inp c0 p) (dest : Uuid) (hint : ℕ) :
    Traced F n0 inp c0 (replyAppend dest false hint) p :=
  hp.send ⟨rfl, rfl, rfl, rfl, fun h => by simp at h⟩ fun _ _ h => h

/-- The batch is stored and agrees with the log. -/
lemma Good.replyStored (hp : Good F n0 inp c0 p) (hm : Addressed inp p.node m)
    (hbody : m.body = .append prev prevTerm leaderCommit es)
    (hholds : p.node.Holds prev prevTerm es) :
    Traced F n0 inp c0 (replyAppend m.sender true (prev + es.length)) p := by
  refine hp.send ⟨rfl, rfl, rfl, rfl, fun _ => ?_⟩ fun _ _ h => h
  exact ⟨m, prev, prevTerm, leaderCommit, es, hm.input, hbody, rfl, hm.dest, hm.term, rfl, hholds⟩

section

variable (hp : Storing F n0 inp c0 m prev prevTerm es es.length p)
include hp

section

variable (hbody : m.body = .append prev prevTerm leaderCommit es) (hheed : ¬ n0.Drops m)
include hbody hheed

/-- Where the commit index of an append is covered by what it verified, the follower commits nothing
else. -/
lemma Storing.verified (hlt : p.node.commit < min leaderCommit p.node.absLastIndex)
    (hver : n0.CommitVerified m) :
    min leaderCommit p.node.absLastIndex ≤ prev + es.length := by
  have hholds := hp.holds
  rw [take_length] at hholds
  rcases hp.progress with hsame | hlast
  · simp only [Node.CommitVerified, hbody] at hver
    rcases hver with hdrops | hlc | ⟨j, e, l, hj, hl, hne⟩
    · exact absurd hdrops hheed
    · have := hp.commit
      have := hsame.absLastIndex
      omega
    · -- a contradicted entry would have been replaced
      exfalso
      obtain ⟨-, l', hl', hid⟩ := hholds.stored j e hj
      rw [entryAt_succ, hsame.entries, ← entryAt_succ, hl, Option.some.injEq] at hl'
      subst hl'
      simp only [Entry.identical, Bool.and_eq_true, beq_iff_eq] at hid
      exact hne hid.1.1.1.1.1.2
  · omega

lemma Storing.settleAppend :
    Traced F n0 inp c0 (Consensus.settleAppend m.sender leaderCommit (prev + es.length)) p := by
  have hholds := hp.holds
  rw [take_length] at hholds
  simp only [Consensus.settleAppend, sat_bind, sat_ite]
  refine ⟨fun _ => hp.good.replyStored hp.addressed hbody hholds, fun hlt => ⟨fun _ => ?_, fun _ =>
    hp.good.replyRefusal _ _⟩⟩
  have hlt := Nat.lt_of_not_le hlt
  refine hp.good.persistCommit (.follow p.conf m prev prevTerm leaderCommit es hp.addressed hbody
    hp.role hholds hlt (hp.verified hbody hheed hlt)) ?_ ?_
  · intro p' hn hgood
    refine on_true ?_
    refine hgood.replyStored ?_ hbody (hn ▸ hholds.congr ⟨rfl, rfl⟩)
    exact hn ▸ hp.addressed.congr rfl rfl rfl
  · exact fun p' hn hgood => on_false (hgood.replyRefusal _ _)

end

end

lemma Storing.recompute (hp : Storing F n0 inp c0 m prev prevTerm es j p) :
    Storing F n0 inp c0 m prev prevTerm es j { p with node := p.node.recomputed } := by
  have h := p.node.refolded_recomputed
  refine ⟨hp.good.recompute (by simp [hp.role]), hp.addressed.congr h.cfg h.term h.epoch, ?_,
    hp.holds.congr h.sameLog, ?_, ?_⟩
  · exact h.role.elim (·.trans hp.role) id
  · exact h.commit.trans hp.commit
  · refine hp.progress.imp (fun hs => ?_) fun hl => h.sameLog.absLastIndex.trans hl
    exact ⟨h.sameLog.snap.trans hs.snap, h.sameLog.log.trans hs.log⟩

section

variable (hp : Good F n0 inp c0 p) (hm : Addressed inp p.node m)
  (hbody : m.body = .append prev prevTerm leaderCommit es) (hsame : n0.SameLog p.node)
  (hcommit : p.node.commit = n0.commit) (hheed : ¬ n0.Drops m)
include hp hm hbody hsame hcommit hheed

lemma Good.acceptAppend (hholds : p.node.Holds prev prevTerm [])
    (hcheck : ∀ j e, es[j]? = some e → e.index = prev + j + 1 ∧ e.payload.length ≤ payloadMax) :
    Traced F n0 inp c0 (Consensus.acceptAppend m.sender prev leaderCommit es) p := by
  simp only [Consensus.acceptAppend, sat_bind, sat_modifyNode]
  have hp1 := hp.followLeader m.sender
  have hstart : Storing F n0 inp c0 m prev prevTerm es 0
      { p with node := p.node.followLeader m.sender } :=
    ⟨hp1, hm.congr rfl rfl rfl, rfl, hholds.congr ⟨rfl, rfl⟩, hcommit, .inl ⟨hsame.snap, hsame.log⟩⟩
  refine (hstart.storeAll hbody hcheck (Nat.zero_le _) rfl false).imp fun r q hq => ?_
  rcases r with (_ | _) | hint
  · exact hq.settleAppend hbody hheed
  · exact hq.recompute.settleAppend hbody hheed
  · exact hq.replyRefusal _ _

lemma Good.handleAppend :
    Traced F n0 inp c0 (Consensus.handleAppend m.sender prev prevTerm leaderCommit es) p := by
  simp only [Consensus.handleAppend, sat_read, sat_ite, sat_pure]
  refine ⟨fun _ => hp, fun _ => ⟨fun _ => hp, fun _ => ⟨fun _ => hp, fun hzero => ⟨fun _ =>
    hp.replyRefusal _ _, fun hle => ⟨fun _ => hp.replyRefusal _ _, fun hterm => ⟨fun _ =>
    hp.replyRefusal _ _, fun hpre => ⟨fun _ => hp.replyRefusal _ _, fun _ => ?_⟩⟩⟩⟩⟩⟩⟩
  refine hp.acceptAppend hm hbody hsame hcommit hheed
    ⟨by omega, by simpa using hzero, ?_, by simp⟩ ?_
  · intro h1
    by_contra hne
    exact hterm ⟨h1, hne⟩
  · intro j e hj
    simp only [Node.preflight, Bool.not_eq_true, Bool.not_eq_false', all_eq_true,
      Bool.and_eq_true, decide_eq_true_eq] at hpre
    have hmem : (e, j) ∈ es.zipIdx := by
      rw [mem_zipIdx_iff_getElem?]
      exact hj
    have h := hpre (e, j) hmem
    exact ⟨h.1.1.2, h.1.2⟩

end

end Qihse.Consensus
