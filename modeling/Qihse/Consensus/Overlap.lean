import Qihse.Consensus.Overcommit
import Qihse.Quorum.Adjacent

/-!
# Quorums before and after a membership change

The configuration that a single accepted ADD or REMOVE leads to, and when its quorums meet those of
the configuration it was made on. Counting heads they always do; counting weights they do as long
as no set of members falls between the two halves, see `Node.ChangeSpaced`.
-/

namespace Qihse.Consensus

open Crash Crash.Prog Quorum List Node Entry

/-! ### Payloads of configuration entries -/

lemma MemberRole.ofByte_toByte (r : MemberRole) :
    MemberRole.ofByte (UInt8.ofNat r.toByte).toNat = r := by
  cases r <;> rfl

/-- The weight of at most a thousand in two bytes. -/
lemma weight_bytes {weight : ℕ} (h : weight ≤ maxWeight) :
    (UInt8.ofNat (weight % 256)).toNat + 256 * (UInt8.ofNat (weight / 256)).toNat = weight := by
  have hle : weight ≤ 1000 := h
  simp only [UInt8.toNat_ofNat']
  omega

/-- The entry that a membership call proposes. -/
def membershipEntry (cs : Node) (op : MembershipOp) (member : Uuid) (role : MemberRole)
    (weight : ℕ) : Entry :=
  { ofConfig op.entryType (membershipPayload op member role weight) with
    index := cs.absLastIndex + 1
    term := cs.term
    journalGeneration := u64 (cs.lastGen + 1) }

section Entry

variable {cs : Node} {op : MembershipOp} {member : Uuid} {role : MemberRole} {weight : ℕ}

lemma membershipEntry_uuid : (membershipEntry cs op member role weight).uuid = member := by
  simp only [uuid, membershipEntry, ofConfig, membershipPayload]
  split_ifs
  · exact member.ofBytes_append _
  · exact member.ofBytes_bytes

lemma membershipEntry_roleWeight (h : weight ≤ maxWeight) :
    (membershipEntry cs .add member role weight).roleWeight = (role, weight) := by
  have hsize := member.size
  simp only [roleWeight, roleByte, weightField, membershipEntry, ofConfig,
    membershipPayload, MembershipOp.entryType, true_and]
  by_cases hplain : role ≠ .voter ∨ weight ≠ 1
  · simp only [if_pos hplain, length_append, hsize, length_cons, length_nil]
    rw [if_pos trivial]
    have hrole := role.ofByte_toByte
    have hweight := weight_bytes h
    simp only [getD_eq_getElem?_getD, getElem?_append_right, hsize, le_refl,
      Nat.reduceLeDiff, Nat.sub_self, Nat.reduceSub, getElem?_cons_zero,
      getElem?_cons_succ, Option.getD_some, hrole, hweight]
  · rw [if_neg hplain, if_neg (by omega)]
    simp only [not_or, not_not] at hplain
    rw [hplain.1, hplain.2]

end Entry

/-! ### The configuration after the change -/

variable {cs : Node} {e : Entry} {ms : List Member}

/-- A single change of the folded members. -/
lemma Node.foldMembership_extra {ms' : List Member} (hold : cs.foldMembership none = some ms)
    (hnew : cs.foldMembership (some e) = some ms')
    (htype : e.type = .configAdd ∨ e.type = .configRemove) : foldApply ms e = some ms' := by
  obtain ⟨f, g, k, hstep, rfl, rfl⟩ := foldMembership_step hold hnew
  exact Fold.step_change hstep htype

/-- Folding keeps the identifiers distinct. -/
lemma foldApply_nodup {ms' : List Member} (h : foldApply ms e = some ms')
    (hnodup : (ms.map (·.id)).Nodup) : (ms'.map (·.id)).Nodup := by
  unfold foldApply at h
  split_ifs at h with hadd hany
  · cases h
    exact hnodup
  · cases h
    simp only [any_eq_true, decide_eq_true_eq, not_exists, not_and] at hany
    rw [map_append, nodup_append]
    refine ⟨hnodup, by simp, ?_⟩
    simp only [mem_map, map_cons, map_nil, mem_singleton]
    rintro a ⟨m, hm, rfl⟩ b rfl
    exact hany m hm
  · cases h
    exact hnodup.sublist (eraseP_sublist.map _)

lemma Node.foldMembership_nodup (h : cs.foldMembership none = some ms)
    (hbase : (cs.cfg.members.map (·.id)).Nodup) : (ms.map (·.id)).Nodup := by
  obtain ⟨f, hf, -, rfl⟩ := foldMembership_eq_some.mp h
  obtain ⟨g, hg, -, -, rfl, -⟩ := foldFull_eq_some.mp hf
  have hfolded := Fold.steps_members (P := fun ms => (ms.map (·.id)).Nodup)
    (fun _ _ => foldApply_nodup) hg
  exact hfolded hbase

/-! ### The call -/

lemma sat_advanceCommit_members (p : Proc) :
    Sat advanceCommit p (fun _ p' => p'.node.members = p.node.members) (fun _ => True) := by
  simp only [advanceCommit, sat_read, sat_ite, sat_pure]
  refine ⟨fun _ => trivial, fun _ => ?_⟩
  cases p.node.commitTarget with
  | none => exact rfl
  | some n =>
    simp only [sat_ite, sat_bind, sat_pure]
    exact ⟨fun _ => (sat_persistCommit p n).imp fun _ p' h => by rw [h]; rfl, fun _ => trivial⟩

lemma Node.members_matchSelf (cs : Node) : cs.matchSelf.members = cs.members := by
  unfold matchSelf
  split <;> rfl

/-- The members after an accepted entry was pushed and folded in. -/
lemma Node.members_recomputed_push (h : cs.foldMembership (some e) = some ms) :
    (cs.push e).recomputed.members = ms := by
  have hpush : (cs.push e).foldMembership none = some ms := by
    rw [← h, foldMembership, foldMembership, cs.entries_push, foldFull_push]
    rfl
  unfold recomputed recomputeMembership
  rw [hpush]
  by_cases hms : ms = (cs.push e).members
  · simp [hms]
  · simp only [if_neg hms, Option.getD_some, setMembership]
    split_ifs <;> rfl

section Call

variable {p p' : Proc} {user : User} {op : MembershipOp} {member : Uuid} {role : MemberRole}
  {weight : ℕ}

/-- An accepted call passed its checks, and the members are those that the new entry folds to. -/
lemma sat_proposeMembershipRole (p : Proc) :
    Sat (proposeMembershipRole user op member role weight) p (fun b p' => b = true →
        p.node.membershipAcceptable user op member weight ∧
        p.node.foldMembership (some (membershipEntry p.node op member role weight)) =
          some p'.node.members) (fun _ => True) := by
  simp only [proposeMembershipRole, sat_bind, sat_ite, sat_pure]
  refine ⟨fun _ => by simp, fun hacc => ?_⟩
  refine ⟨fun _ => by simp, fun hfold => ?_⟩
  refine (sat_recordAppend?_node p _).imp fun b q hq => ⟨fun _ => ?_, fun _ => by simp⟩
  obtain ⟨ms, hms⟩ := Option.ne_none_iff_exists'.mp hfold
  have hmembers : (q.node.push (membershipEntry p.node op member role weight)).recomputed.members =
      ms := by
    rw [hq]
    exact members_recomputed_push hms
  have hmay : p.node.membershipAcceptable user op member weight := by simpa using hacc
  have hfolded := hms.trans (congrArg some hmembers.symm)
  refine ⟨fun _ => ?_, fun _ _ => ⟨hmay, hfolded⟩⟩
  refine (sat_advanceCommit_members _).imp fun _ q' hq' _ => ⟨hmay, ?_⟩
  rw [hq', members_matchSelf]
  exact hfolded

end Call

/-! ### Overlap -/

namespace Node

variable (cs : Node)

/-- The identifiers of the effective members. -/
def memberIds : Finset Uuid := keys Member.id cs.members

/-- The voting weight of a set of members. -/
def weightOf (S : Finset Uuid) : ℕ := carried Member.id Member.voteWeight cs.members S

/-- No set of members of the smaller of the two configurations weighs more than half of it and less
than half of the larger one. -/
def ChangeSpaced (op : MembershipOp) (member : Uuid) (role : MemberRole) (weight : ℕ) : Prop :=
  match op with
  | .add => Spaced Member.id Member.voteWeight cs.members (Member.voteWeight ⟨member, role, weight⟩)
  | .remove =>
    Spaced Member.id Member.voteWeight (cs.members.filter (·.id ≠ member)) (cs.weightOf {member})

end Node

/-- An identifier that is not found is none of the members'. -/
lemma Node.memberIndex_isNone {u : Uuid} (h : (cs.memberIndex u).isNone) : u ∉ cs.memberIds := by
  simp only [memberIndex, Option.isNone_iff_eq_none, findIdx?_eq_none_iff,
    decide_eq_false_iff_not] at h
  simp only [memberIds, Quorum.keys, mem_toFinset, mem_map, not_exists, not_and]
  exact h

/-- Where identifiers are distinct, a member that is found can be split off. -/
lemma Node.memberIndex_isSome {u : Uuid} (h : (cs.memberIndex u).isSome)
    (hnodup : (cs.members.map (·.id)).Nodup) :
    ∃ m, m.id = u ∧ cs.members.Perm (m :: cs.members.filter (·.id ≠ u)) := by
  simp only [memberIndex, findIdx?_isSome, any_eq_true, decide_eq_true_eq] at h
  obtain ⟨m, hm, hid⟩ := h
  refine ⟨m, hid, ?_⟩
  obtain ⟨xs, ys, heq⟩ := append_of_mem hm
  rw [heq, map_append, map_cons, nodup_append, nodup_cons] at hnodup
  obtain ⟨-, ⟨hys, -⟩, hxs⟩ := hnodup
  have hkeep : ∀ zs : List Member, (∀ z ∈ zs, z.id ≠ u) → zs.filter (·.id ≠ u) = zs := by
    intro zs hzs
    simpa using hzs
  have hleft : xs.filter (·.id ≠ u) = xs := hkeep xs fun z hz hu =>
    hxs z.id (mem_map_of_mem hz) m.id (by simp) (hu.trans hid.symm)
  have hright : ys.filter (·.id ≠ u) = ys := hkeep ys fun z hz hu =>
    hys (by rw [hid, ← hu]; exact mem_map_of_mem hz)
  rw [heq, filter_append, hleft, filter_cons_of_neg (by simp [hid]), hright]
  exact perm_middle

/-- The members that stay after a REMOVE. -/
lemma eraseP_id (u : Uuid) (hnodup : (ms.map (·.id)).Nodup) :
    ms.eraseP (·.id = u) = ms.filter (·.id ≠ u) := by
  induction ms with
  | nil => rfl
  | cons m ms ih =>
    rw [map_cons, nodup_cons] at hnodup
    by_cases hid : m.id = u
    · rw [eraseP_cons_of_pos (by simpa using hid), filter_cons_of_neg (by simpa using hid)]
      symm
      rw [filter_eq_self]
      intro z hz
      simp only [ne_eq, decide_eq_true_eq]
      rintro hu
      exact hnodup.1 (by rw [hid, ← hu]; exact mem_map_of_mem hz)
    · rw [eraseP_cons_of_neg (by simpa using hid), filter_cons_of_pos (by simpa using hid),
        ih hnodup.2]

section Accepted

variable {cs : Node} {user : User} {member : Uuid} {weight : ℕ}

lemma Node.membershipAcceptable_add (h : cs.membershipAcceptable user .add member weight) :
    weight ≤ maxWeight ∧ member ∉ cs.memberIds := by
  simp only [membershipAcceptable, Bool.and_eq_true, Bool.or_eq_true, decide_eq_true_eq] at h
  obtain ⟨⟨⟨⟨-, hweight⟩, -⟩, -⟩, ⟨hnone, -⟩, -⟩ := h
  exact ⟨(hweight.resolve_left (by simp)).2, memberIndex_isNone hnone⟩

end Accepted

/-- Every quorum before an accepted membership change meets every quorum after it exactly when no
set of members of the smaller configuration falls between the halves of the two. -/
theorem membership_overlap_iff {p p' : Proc} {user : User} {op : MembershipOp} {member : Uuid}
    {role : MemberRole} {weight : ℕ} (hbase : (p.node.cfg.members.map (·.id)).Nodup)
    (heffective : p.node.foldMembership none = some p.node.members)
    (h : proposeMembershipRole user op member role weight p = (some true, p')) :
    (∀ S ⊆ p.node.memberIds, ∀ T ⊆ p'.node.memberIds,
      p.node.majorityWeight ≤ p.node.weightOf S → p'.node.majorityWeight ≤ p'.node.weightOf T →
        (S ∩ T).Nonempty) ↔ p.node.ChangeSpaced op member role weight := by
  have hsat : Sat (proposeMembershipRole user op member role weight) p _ _ :=
    sat_proposeMembershipRole p
  rw [Sat, h] at hsat
  obtain ⟨hacc, hfold⟩ := hsat rfl
  have hnodup := foldMembership_nodup heffective hbase
  change Meets Member.id Member.voteWeight p.node.members p'.node.members ↔ _
  cases op with
  | add =>
    obtain ⟨hweight, hnew⟩ := membershipAcceptable_add hacc
    have hchange := foldMembership_extra heffective hfold (.inl rfl)
    have hany : p.node.members.any (·.id = member) = false := by
      simp only [Node.memberIds, Quorum.keys, mem_toFinset, mem_map, not_exists, not_and] at hnew
      simpa using hnew
    have htype : (membershipEntry p.node .add member role weight).type = .configAdd := rfl
    rw [foldApply, if_pos htype, membershipEntry_uuid, if_neg (by simp [hany]),
      membershipEntry_roleWeight hweight] at hchange
    split_ifs at hchange
    have hperm : p'.node.members.Perm (⟨member, role, weight⟩ :: p.node.members) := by
      rw [← Option.some.inj hchange]
      exact perm_append_singleton _ _
    rw [Meets.perm_right hperm]
    exact meets_iff_spaced (x := (⟨member, role, weight⟩ : Member)) hnew
  | remove =>
    simp only [membershipAcceptable, Bool.and_eq_true] at hacc
    obtain ⟨m, rfl, hperm⟩ := memberIndex_isSome hacc.2.1 hnodup
    have hchange := foldMembership_extra heffective hfold (.inr rfl)
    have htype : (membershipEntry p.node .remove m.id role weight).type ≠ .configAdd := by rintro ⟨⟩
    rw [foldApply, if_neg htype, membershipEntry_uuid, eraseP_id _ hnodup] at hchange
    have hrest : p'.node.members = p.node.members.filter (·.id ≠ m.id) :=
      (Option.some.inj hchange).symm
    have hweight : p.node.weightOf {m.id} = m.voteWeight := by
      rw [Node.weightOf, carried_perm hperm, carried_cons, if_pos (by simp), carried]
      simp [total]
    have hnew : m.id ∉ keys Member.id (p.node.members.filter (·.id ≠ m.id)) := by
      simp [Quorum.keys]
    rw [hrest, Node.ChangeSpaced, hweight]
    refine ⟨fun hmeets => (meets_iff_spaced hnew).mp ?_, fun hspaced => ?_⟩
    · exact (Meets.perm_right hperm).mp hmeets.symm
    · exact ((Meets.perm_right hperm).mpr ((meets_iff_spaced hnew).mpr hspaced)).symm

namespace Sample

/-- The leader of the members `ms`, with nothing in its log. -/
def leading (ms : List Member) : Proc where
  node := { Node.blank (config ms 0 (peer 1)).withDefaults with
    role := .leader
    term := 1
    epoch := 1
    leader := some (peer 1) }
  disk := []
  out := []
  io := []
  failed := false

def operator : User := ⟨true, fun _ _ => true⟩

/-- A fourth voter of weight 1 leaves every two quorums with a member in common. -/
theorem membership_overlap_iff_one :
    let p := leading trio
    let r := proposeMembershipRole operator .add (peer 4) .voter 1 p
    r.1 = some true ∧ ∀ S ⊆ p.node.memberIds, ∀ T ⊆ r.2.node.memberIds,
      p.node.majorityWeight ≤ p.node.weightOf S → r.2.node.majorityWeight ≤ r.2.node.weightOf T →
        (S ∩ T).Nonempty := by
  intro p r
  have hfst : r.1 = some true := by decide +kernel
  have hcall : r = (some true, r.2) := by rw [← hfst]
  have hspaced : p.node.ChangeSpaced .add (peer 4) .voter 1 := spaced_of_le_one le_rfl
  exact ⟨hfst, (membership_overlap_iff (by decide +kernel) (by decide +kernel) hcall).mpr hspaced⟩

/-- A fourth voter of weight 1000 is a quorum of its own, and two of the old three are one. -/
theorem membership_disjoint_quorums :
    let p := leading trio
    let r := proposeMembershipRole operator .add (peer 4) .voter 1000 p
    r.1 = some true ∧ p.node.foldMembership none = some p.node.members ∧
      p.node.majorityWeight ≤ p.node.weightOf {peer 1, peer 2} ∧
      r.2.node.majorityWeight ≤ r.2.node.weightOf {peer 4} ∧
      ({peer 1, peer 2} : Finset Uuid) ∩ {peer 4} = ∅ := by
  decide +kernel

end Sample

end Qihse.Consensus
