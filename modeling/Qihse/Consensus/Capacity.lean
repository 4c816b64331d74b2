import Qihse.Consensus.Ballot

/-!
# The term counter does not run out

A node enters a new term with a vote line in its file. A file holds less than `2 ^ 63` bytes and a
group has at most 32 members, so that no group with a fixed member list reaches the last term.
-/

namespace Qihse.Consensus

open Replay List

/-- Nodes that are opened with one common member list. -/
structure Group (cfg : Uuid → Config) (base : List Member) : Prop where
  self : ∀ u, (cfg u).self = u
  members : ∀ u, (cfg u).members = base

section Prepare

variable {cfg c : Config} {b : Bool}

lemma Config.clampHeartbeat_eq (cfg : Config) :
    ∃ t, cfg.clampHeartbeat = { cfg with heartbeatIntervalMs := t } := by
  unfold clampHeartbeat
  split_ifs
  · exact ⟨_, rfl⟩
  · exact ⟨cfg.heartbeatIntervalMs, rfl⟩

/-- What `qihse_consensus_open` keeps of its configuration, and what it has checked. -/
structure Prepared (cfg c : Config) (b : Bool) : Prop where
  self : c.self = cfg.self
  members : c.members = cfg.members
  snapshotThreshold : c.snapshotThreshold = cfg.snapshotThreshold
  validateData : c.validateData = cfg.validateData
  length : cfg.members.length ≤ maxMembers
  nodup : (cfg.members.map (·.id)).Nodup
  admitted : b = false → ∃ m ∈ cfg.members, m.id = cfg.self

lemma prepared_of_prepare (h : cfg.prepare b = some c) : Prepared cfg c b := by
  unfold Config.prepare at h
  simp only at h
  split_ifs at h with hv
  cases h
  simp only [Bool.and_eq_true, Bool.or_eq_true, any_eq_true, decide_eq_true_eq,
    Config.identityValid, Config.timingValid] at hv
  obtain ⟨t, ht⟩ := cfg.withDefaults.clampHeartbeat_eq
  rw [ht]
  refine ⟨rfl, rfl, rfl, rfl, hv.1.1.1.2, hv.1.2.2, ?_⟩
  rintro rfl
  exact hv.2.resolve_right (by simp)

end Prepare

/-! ### Counting vote lines -/

/-- The number of vote lines in the files of the members. -/
def Cluster.voteLines (base : List Member) (w : Cluster) : ℕ :=
  (base.map fun m => (votes ((w.slots m.id).disk.getD [])).length).sum

lemma sum_map_add_le {α : Type} {xs : List α} {f g : α → ℕ} {k : ℕ} (hle : ∀ x ∈ xs, f x ≤ g x)
    {x : α} (hx : x ∈ xs) (hk : f x + k ≤ g x) : (xs.map f).sum + k ≤ (xs.map g).sum := by
  classical
  have hrest : ((xs.erase x).map f).sum ≤ ((xs.erase x).map g).sum :=
    sum_le_sum fun z hz => hle z (mem_of_mem_erase hz)
  rw [← sum_map_erase f hx, ← sum_map_erase g hx]
  omega

lemma votes_length_le (d : List Line) : 18 * (votes d).length ≤ fileSize d := by
  induction d with
  | nil => simp [votes]
  | cons l d ih =>
    cases l with
    | torn =>
      have hsize : fileSize (.torn :: d) = fileSize d := by simp [fileSize]
      rw [hsize]
      exact ih
    | record r =>
      have hline : 18 ≤ r.lineLength := by simp [Record.lineLength]
      have hsize : fileSize (.record r :: d) = r.lineLength + fileSize d := by simp [fileSize]
      have hlen : (votes (.record r :: d)).length ≤ (votes d).length + 1 := by
        simp only [votes, filterMap_cons]
        split <;> simp
      omega

namespace Cluster

variable {base : List Member} {w : Cluster} {u : Uuid} {c c' : Conf}

/-- Vote lines of one node that moved. -/
lemma voteLines_put_le {k : ℕ} (hu : ∃ m ∈ base, m.id = u)
    (hk : (votes c.disk).length + k ≤ (votes c'.disk).length) :
    (w.put u c).voteLines base + k ≤ (w.put u c').voteLines base := by
  obtain ⟨m, hm, rfl⟩ := hu
  refine sum_map_add_le (fun x _ => ?_) hm ?_
  · by_cases hx : x.id = m.id
    · simp only [hx, put_slots_self, Option.getD_some]
      omega
    · rw [put_slots_ne w c hx, put_slots_ne w c' hx]
  · simpa using hk

/-- The part of the bookkeeping that is about one node, when terms go up to `T`. -/
structure SlotFits (base : List Member) (T : ℕ) (u : Uuid) (s : Slot) : Prop where
  owner : ∀ {d}, s.disk = some d →
    base.length ≤ maxMembers ∧ (∃ m ∈ base, m.id = u) ∧ fileSize d ≤ fileSizeMax
  stored : s.node.isSome → s.disk.isSome
  node : ∀ {n}, s.node = some n → n.term ≤ T
  lines : ∀ {d}, s.disk = some d → ∀ v ∈ votes d, v.1 ≤ T

lemma SlotFits.mono {T T' : ℕ} {s : Slot} (h : SlotFits base T u s) (hT : T ≤ T') :
    SlotFits base T' u s :=
  ⟨h.owner, h.stored, fun hn => le_trans (h.node hn) hT,
    fun hd v hv => le_trans (h.lines hd v hv) hT⟩

/-- The bookkeeping that bounds the terms of a group. -/
structure Capacity (base : List Member) (w : Cluster) : Prop where
  slot : ∀ u, SlotFits base (w.voteLines base) u (w.slots u)
  sent : ∀ m ∈ w.sent, m.body.isPreVote = false → m.term ≤ w.voteLines base

lemma Capacity.voteLines_lt (h : w.Capacity base) (hlen : base.length ≤ maxMembers) :
    w.voteLines base + 1 < 2 ^ 64 := by
  have hle : ∀ m ∈ base, (votes ((w.slots m.id).disk.getD [])).length ≤ fileSizeMax / 18 := by
    intro m _
    have hv := votes_length_le ((w.slots m.id).disk.getD [])
    have hs : fileSize ((w.slots m.id).disk.getD []) ≤ fileSizeMax := by
      cases hd : (w.slots m.id).disk with
      | none => simp [fileSize]
      | some => exact ((h.slot m.id).owner hd).2.2
    omega
  have hsum : w.voteLines base ≤ base.length * (fileSizeMax / 18) := by
    simpa [voteLines] using sum_le_sum hle
  have hmul : base.length * (fileSizeMax / 18) ≤ maxMembers * (fileSizeMax / 18) :=
    Nat.mul_le_mul_right _ hlen
  have hnum : maxMembers * (fileSizeMax / 18) + 1 < 2 ^ 64 := by decide
  omega

/-- No node of the group can run out of terms. -/
lemma Capacity.term_lt (h : w.Capacity base) {n : Node} (hn : w.node u = some n) :
    n.term + 1 < 2 ^ 64 := by
  have hslot := h.slot u
  obtain ⟨d, hd⟩ := Option.isSome_iff_exists.mp (hslot.stored (by rw [← node, hn]; rfl))
  have hlt := h.voteLines_lt (hslot.owner hd).1
  have hle := hslot.node hn
  omega

/-! ### Preservation -/

variable {F : Prop} {n0 : Node} {inp : Input}

lemma Capacity.move (h : (w.put u c).Capacity base) (hin : ∀ m, inp = .msg m → m ∈ w.sent)
    (hmove : Move F n0 inp c c') : (w.put u c').Capacity base := by
  have hterm : c.node.term + 1 < 2 ^ 64 := h.term_lt (w.node_put_self u c)
  have hheard : ∀ t, Heard inp t → t ≤ (w.put u c).voteLines base := by
    rintro t ⟨m, rfl, hpre, rfl⟩
    exact h.sent m (by simp [hin m rfl]) hpre
  obtain ⟨hu, hothers⟩ := forall_put.mp h.slot
  obtain ⟨new, hlines, hnode, hnew⟩ := (hmove.act.ballots hterm).room (hu.node rfl) hheard
  have hlines : votes c'.disk = votes c.disk ++ new := hlines
  have hown := hu.owner rfl
  have hcount : (w.put u c).voteLines base + new.length ≤ (w.put u c').voteLines base :=
    voteLines_put_le hown.2.1 (by rw [hlines]; simp)
  refine ⟨forall_put.mpr ⟨⟨?_, fun _ => rfl, ?_, ?_⟩, fun v hv => ?_⟩, fun m hm hpre => ?_⟩
  · rintro d ⟨⟩
    exact ⟨hown.1, hown.2.1, hmove.fits hown.2.2⟩
  · rintro n ⟨⟩
    exact le_trans hnode hcount
  · rintro d ⟨⟩ x hx
    rw [hlines] at hx
    rcases mem_append.mp hx with hx | hx
    · have := hu.lines rfl x hx
      omega
    · exact le_trans (hnew x hx) hcount
  · exact (hothers v hv).mono (by omega)
  · obtain hm | ⟨-, hmay⟩ := hmove.act.mem_sent hterm hm
    · have := h.sent m hm hpre
      omega
    · rw [hmay.term hpre]
      have := hu.node rfl
      omega

lemma voteLines_congr {w w' : Cluster} (h : ∀ v, votes ((w'.slots v).disk.getD []) =
    votes ((w.slots v).disk.getD [])) : w'.voteLines base = w.voteLines base := by
  simp [voteLines, h]

/-- A node whose slot was set to one with the same vote lines. -/
lemma Capacity.setSlot {s : Slot} (h : w.Capacity base) (hs : SlotFits base (w.voteLines base) u s)
    (hv : votes (s.disk.getD []) = votes ((w.slots u).disk.getD [])) :
    (w.setSlot u s).Capacity base := by
  have hcount : (w.setSlot u s).voteLines base = w.voteLines base := by
    exact voteLines_congr (forall_setSlot (P := fun v x => votes (x.disk.getD []) =
      votes ((w.slots v).disk.getD [])).mpr ⟨hv, fun v _ => rfl⟩)
  refine ⟨?_, fun m hm => hcount ▸ h.sent m hm⟩
  rw [hcount]
  exact forall_setSlot.mpr ⟨hs, fun v _ => h.slot v⟩

lemma Capacity.halt {disk : List Line} (h : (w.put u c).Capacity base)
    (hdisk : disk = c.disk ∨ disk = c.disk ++ [Line.torn]) :
    (w.halt u disk c.out).Capacity base := by
  have hvotes := votes_torn hdisk
  have hcount : (w.halt u disk c.out).voteLines base = (w.put u c).voteLines base := by
    refine voteLines_congr (forall_halt (P := fun v x => votes (x.disk.getD []) =
      votes (((w.put u c).slots v).disk.getD [])).mpr
        ⟨?_, fun v hv => by rw [put_slots_ne w c hv]⟩)
    simpa using hvotes
  obtain ⟨hu, hothers⟩ := forall_put.mp h.slot
  refine ⟨?_, fun m hm => hcount ▸ h.sent m hm⟩
  rw [hcount]
  refine forall_halt.mpr ⟨⟨?_, by simp, by simp, ?_⟩, hothers⟩
  · rintro d ⟨⟩
    have hown := hu.owner rfl
    refine ⟨hown.1, hown.2.1, ?_⟩
    rcases hdisk with rfl | rfl
    · exact hown.2.2
    · rw [fileSize_torn]
      exact hown.2.2
  · rintro d ⟨⟩ v hv
    exact hu.lines rfl v (hvotes ▸ hv)

lemma fileSize_take_le (d : List Line) (k : ℕ) : fileSize (d.take k) ≤ fileSize d := by
  calc fileSize (d.take k) ≤ fileSize (d.take k) + fileSize (d.drop k) := Nat.le_add_right _ _
    _ = fileSize d := by
      rw [fileSize, fileSize, ← sum_append, ← map_append, take_append_drop]
      rfl

lemma votes_identity {d : List Line} (h : ∀ l ∈ d, l.isIdentity) : votes d = [] := by
  refine filterMap_eq_nil_iff.mpr fun l hl => ?_
  have hid := h l hl
  cases l with
  | torn => rfl
  | record => exact voteOf_of_isIdentity hid

section

variable {p : Config} {disk : Option (List Line)} {s : Slot}

/-- The votes in the file of a node outlast an attempt to open it. -/
lemma votes_opened (hs : Opened p disk s) : votes (s.disk.getD []) = votes (disk.getD []) := by
  cases hs with
  | refused => rfl
  | failed d d' hd =>
    rcases hd with rfl | ⟨c, st, pend, -, hst, hp, rfl⟩
    · rfl
    · exact (load_discard hst hp).1
  | loaded d d' c st n hc hst hd hn =>
    subst hd
    cases hp : st.pend with
    | none => rfl
    | some => exact (load_discard hst hp).1
  | unborn d' hc hd => exact votes_identity hd
  | born d' c n hc hd => exact hd ▸ votes_identity c.identityLines_isIdentity

/-- A node that was opened follows, with the last vote of its file. -/
lemma ballot_opened {n : Node} (hs : Opened p disk s) (hn : s.node = some n) :
    n.role = .follower ∧ (n.term, n.votedFor) = (votes (disk.getD [])).getLast?.getD (0, none) := by
  cases hs with
  | refused | failed | unborn => cases hn
  | loaded d d' c st n' hc hst hd hboot =>
    cases hn
    rw [hboot.term, hboot.votedFor]
    exact ⟨hboot.role, load_ballot hst⟩
  | born d' c n' hc hd hsize hboot =>
    cases hn
    rw [hboot.term, hboot.votedFor]
    exact ⟨hboot.role, rfl⟩

end

lemma Capacity.opened {cfg : Uuid → Config} {s : Slot} (hg : Group cfg base) (h : w.Capacity base)
    (hs : Opened (cfg u) (w.slots u).disk s) : (w.setSlot u s).Capacity base := by
  have hslot := h.slot u
  have hlines : ∀ v ∈ votes ((w.slots u).disk.getD []), v.1 ≤ w.voteLines base := by
    cases hd : (w.slots u).disk with
    | none => simp [votes]
    | some => exact hslot.lines hd
  refine h.setSlot ⟨fun {x} hx => ?_, ?_, fun hn => ?_, fun hd v hv => ?_⟩ (votes_opened hs)
  · have hfresh : ∀ {c}, (cfg u).prepare false = some c →
        base.length ≤ maxMembers ∧ ∃ m ∈ base, m.id = u := by
      intro c hc
      have hprep := prepared_of_prepare hc
      have hadm := hprep.admitted rfl
      rw [hg.members, hg.self] at hadm
      exact ⟨hg.members u ▸ hprep.length, hadm⟩
    generalize hdisk : (w.slots u).disk = disk at hs
    cases hs with
    | refused => exact hslot.owner (hdisk.trans hx)
    | failed d d' hd =>
      cases hx
      obtain ⟨hlen, hadm, hsize⟩ := hslot.owner hdisk
      rcases hd with rfl | ⟨c, st, p, -, -, -, rfl⟩
      · exact ⟨hlen, hadm, hsize⟩
      · exact ⟨hlen, hadm, (fileSize_take_le d _).trans hsize⟩
    | loaded d d' c st n hc hst hd hn =>
      cases hx
      obtain ⟨hlen, hadm, hsize⟩ := hslot.owner hdisk
      refine ⟨hlen, hadm, ?_⟩
      subst hd
      split
      · exact hsize
      · exact (fileSize_take_le d _).trans hsize
    | unborn d' hc hd hsize =>
      cases hx
      obtain ⟨c, hc⟩ := Option.ne_none_iff_exists'.mp hc
      exact ⟨(hfresh hc).1, (hfresh hc).2, hsize⟩
    | born d' c n hc hd hsize hn =>
      cases hx
      exact ⟨(hfresh hc).1, (hfresh hc).2, hsize⟩
  · generalize (w.slots u).disk = disk at hs
    cases hs <;> simp
  · refine (congrArg Prod.fst (ballot_opened hs hn).2).le.trans ?_
    cases hl : (votes ((w.slots u).disk.getD [])).getLast? with
    | none => exact Nat.zero_le _
    | some v => exact hlines v (mem_of_getLast? hl)
  · have heq := votes_opened hs
    rw [hd, Option.getD_some] at heq
    exact hlines v (heq ▸ hv)

end Cluster

end Qihse.Consensus
