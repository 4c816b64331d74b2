import Qihse.Consensus.Compact

/-!
# Installing a snapshot

`qcs_handle_snapshot` writes a snapshot transaction and then puts the received prefix in the place
of the log. Its check of the configuration entries is weaker than the fold: it knows nothing of the
joint phase or of voting weight. And the lines of a transaction that is given up stay in the file.
The install is all or nothing exactly when neither matters.
-/

namespace Qihse.Consensus

open Crash Crash.Prog List Option Node Proc

/-! ### The outcome of a snapshot transaction -/

namespace Proc

/-- The process after successful appends. -/
def appendAll (p : Proc) (rs : List Record) : Proc := rs.foldl append p

/-- The next appends to the record file, of the records `rs` in turn, all report success. -/
def CanAppendAll : Proc → List Record → Prop
  | _, [] => True
  | p, r :: rs => p.CanAppend r ∧ (p.append r).CanAppendAll rs

instance decidableCanAppendAll : (p : Proc) → (rs : List Record) → Decidable (p.CanAppendAll rs)
  | _, [] => isTrue trivial
  | p, r :: rs =>
    have := decidableCanAppendAll (p.append r) rs
    inferInstanceAs (Decidable (p.CanAppend r ∧ (p.append r).CanAppendAll rs))

variable {p q : Proc} {r : Record} {rs rs' : List Record}

lemma appendAll_node (p : Proc) (rs : List Record) : (p.appendAll rs).node = p.node := by
  induction rs generalizing p with
  | nil => rfl
  | cons r rs ih => exact ih (p.append r)

lemma appendAll_disk (p : Proc) (rs : List Record) :
    (p.appendAll rs).disk = p.disk ++ rs.map Line.record := by
  induction rs generalizing p with
  | nil => simp [appendAll]
  | cons r rs ih =>
    refine (ih (p.append r)).trans ?_
    simp [append]

lemma canAppendAll_append :
    p.CanAppendAll (rs ++ rs') ↔ p.CanAppendAll rs ∧ (p.appendAll rs).CanAppendAll rs' := by
  induction rs generalizing p with
  | nil => simp [CanAppendAll, appendAll]
  | cons r rs ih =>
    simp only [cons_append, CanAppendAll, ih, and_assoc]
    rfl

section

variable (hnode : q.node.recQuarantined = p.node.recQuarantined)
include hnode

/-- Of the node only the quarantine matters to an append. -/
lemma canAppendAll_congr
    (hdisk : q.disk = p.disk) (hio : q.io = p.io) : q.CanAppendAll rs ↔ p.CanAppendAll rs := by
  induction rs generalizing p q with
  | nil => exact Iff.rfl
  | cons r rs ih =>
    have happend : (q.append r).CanAppendAll rs ↔ (p.append r).CanAppendAll rs :=
      ih hnode (by simp [append, hdisk]) (by simp [append, hio])
    simp [CanAppendAll, CanAppend, hnode, hdisk, hio, happend]

lemma spares_congr (hdisk : q.disk = p.disk) (hio : q.io = p.io) : q.Spares r ↔ p.Spares r := by
  simp [Spares, hnode, hdisk, hio]

end

lemma Spares.not_canAppend (h : p.Spares r) : ¬ p.CanAppend r := by
  rintro ⟨hcap, hq, hio, hfit⟩
  simp only [Spares, hq, hio] at h
  rcases h with h | h | h
  · exact absurd hcap (not_lt.mpr h)
  · exact absurd h nofun
  · exact absurd hfit (not_le.mpr h)

end Proc

variable {p : Proc}

/-- The entry lines of a transaction are all written, or the first one that cannot be ends it. -/
lemma sat_persistSnapshotEntries_outcome (es : List Entry) (p : Proc) :
    Sat (persistSnapshotEntries es) p
      (fun b p' => (b = true ∧ ∃ rs, es.mapM Entry.persistSnapshotEntry = some rs ∧
          p.CanAppendAll rs ∧ p' = p.appendAll rs) ∨ b = false ∧ p.Failed p' ∧
          ∀ rs, es.mapM Entry.persistSnapshotEntry = some rs → ¬ p.CanAppendAll rs)
      (fun _ => True) := by
  induction es generalizing p with
  | nil => exact .inl ⟨rfl, [], rfl, trivial, rfl⟩
  | cons e es ih =>
    simp only [persistSnapshotEntries, sat_bind, sat_ite, sat_pure]
    cases hr : e.persistSnapshotEntry with
    | none =>
      refine ⟨nofun, fun _ => .inr ⟨trivial, .refl p, fun rs hrs => ?_⟩⟩
      simp [mapM_cons, hr] at hrs
    | some r =>
      have hsplit : ∀ rs, (e :: es).mapM Entry.persistSnapshotEntry = some rs →
          ∃ rs', es.mapM Entry.persistSnapshotEntry = some rs' ∧ r :: rs' = rs := by
        simp [mapM_cons, hr, bind_eq_some_iff]
      refine (sat_recordAppend_outcome p r).imp fun b q hq => ?_
      obtain ⟨rfl, hcan, rfl⟩ | ⟨rfl, hcan, hfailed, -⟩ := hq
      · refine on_true ((ih (p.append r)).imp fun b q hq => ?_)
        obtain ⟨rfl, rs, hrs, hall, rfl⟩ | ⟨rfl, hfailed, hall⟩ := hq
        · exact .inl ⟨rfl, r :: rs, by simp [mapM_cons, hr, hrs], ⟨hcan, hall⟩, rfl⟩
        · refine .inr ⟨rfl, ⟨hfailed.node, ?_⟩, fun rs hrs hcan' => ?_⟩
          · have := hfailed.disk
            simp only [append, length_append] at this
            omega
          · obtain ⟨rs', hrs', rfl⟩ := hsplit rs hrs
            exact hall rs' hrs' hcan'.2
      · refine ⟨nofun, fun _ => .inr ⟨trivial, hfailed, fun rs hrs hcan' => ?_⟩⟩
        obtain ⟨rs', -, rfl⟩ := hsplit rs hrs
        exact hcan hcan'.1

lemma snapshotRecords_eq_some {version2 : Bool} {s : Snapshot} {rs : List Record} :
    snapshotRecords version2 s = some rs ↔
      ∃ es, s.entries.mapM Entry.persistSnapshotEntry = some es ∧
        rs = s.beginRecord version2 :: es ++ [.truncate (s.lastIncludedIndex + 1)] := by
  rw [snapshotRecords, map_eq_some_iff]
  exact exists_congr fun es => and_congr_right fun _ => eq_comm

/-- The file is as it was only when the very first line left nothing in it. -/
lemma sat_persistSnapshotLines_outcome (version2 : Bool) (s : Snapshot) (p : Proc) :
    Sat (persistSnapshotLines version2 s) p
      (fun b p' => (b = true ∧ ∃ rs, snapshotRecords version2 s = some rs ∧ p.CanAppendAll rs ∧
          p' = p.appendAll rs) ∨ b = false ∧ p'.node = p.node ∧
          (∀ rs, snapshotRecords version2 s = some rs → ¬ p.CanAppendAll rs) ∧
          (p'.disk = p.disk ↔ p.Spares (s.beginRecord version2))) (fun _ => True) := by
  simp only [persistSnapshotLines, sat_bind, sat_ite, sat_pure]
  refine (sat_recordAppend_outcome p _).imp fun b q hq => ?_
  obtain ⟨rfl, hbegin, rfl⟩ | ⟨rfl, hbegin, hfailed, hspares⟩ := hq
  · -- from here on the file is longer than it was
    have hlonger {q : Proc} (hq : (p.append (s.beginRecord version2)).disk.length ≤ q.disk.length) :
        q.disk = p.disk ↔ p.Spares (s.beginRecord version2) := by
      simp only [append, length_append, length_singleton] at hq
      refine iff_of_false (fun h => ?_) fun h => h.not_canAppend hbegin
      rw [h] at hq
      omega
    refine on_true ?_
    refine (sat_persistSnapshotEntries_outcome s.entries _).imp fun b q hq => ?_
    obtain ⟨rfl, es, hes, hall, rfl⟩ | ⟨rfl, hfailed, hall⟩ := hq
    · refine on_true ((sat_recordAppend_outcome _ _).imp fun b q hq => ?_)
      have hrecords : snapshotRecords version2 s = some (s.beginRecord version2 :: es ++
          [.truncate (s.lastIncludedIndex + 1)]) := snapshotRecords_eq_some.mpr ⟨es, hes, rfl⟩
      obtain ⟨rfl, hend, rfl⟩ | ⟨rfl, hend, hfailed, -⟩ := hq
      · refine .inl ⟨rfl, _, hrecords, ?_, ?_⟩
        · exact canAppendAll_append.mpr ⟨⟨hbegin, hall⟩, hend, trivial⟩
        · simp [appendAll]
      · refine .inr ⟨rfl, hfailed.node.trans (appendAll_node _ _), fun rs hrs hcan => ?_, ?_⟩
        · rw [Option.some.inj (hrs.symm.trans hrecords)] at hcan
          exact hend (canAppendAll_append.mp hcan).2.1
        · refine hlonger (le_trans ?_ hfailed.disk)
          simp [appendAll_disk]
    · refine ⟨by rintro ⟨⟩, fun _ => .inr ⟨trivial, hfailed.node, fun rs hrs hcan => ?_,
        hlonger hfailed.disk⟩⟩
      obtain ⟨es, hes, rfl⟩ := snapshotRecords_eq_some.mp hrs
      exact hall es hes (canAppendAll_append.mp hcan).1.2
  · refine ⟨by rintro ⟨⟩, fun _ => .inr ⟨trivial, hfailed.node, fun rs hrs hcan => ?_, hspares⟩⟩
    obtain ⟨es, -, rfl⟩ := snapshotRecords_eq_some.mp hrs
    exact hbegin hcan.1

/-- A snapshot transaction is written as a whole, or it is given up and quarantines the file. -/
lemma sat_persistSnapshot_outcome (version2 : Bool) (s : Snapshot) (p : Proc) :
    Sat (persistSnapshot version2 s) p
      (fun b p' => (b = true ∧ ∃ rs, snapshotRecords version2 s = some rs ∧ p.CanAppendAll rs ∧
          p' = p.appendAll rs) ∨ b = false ∧ p'.node = p.node.quarantine ∧
          (∀ rs, snapshotRecords version2 s = some rs → ¬ p.CanAppendAll rs) ∧
          (p'.disk = p.disk ↔ p.Spares (s.beginRecord version2))) (fun _ => True) := by
  simp only [persistSnapshot, sat_bind, sat_ite, sat_pure, sat_modifyNode]
  refine (sat_persistSnapshotLines_outcome version2 s p).imp fun b q hq => ?_
  obtain ⟨rfl, h⟩ | ⟨rfl, hnode, h⟩ := hq
  · exact on_true (.inl ⟨trivial, h⟩)
  · exact ⟨by rintro ⟨⟩, fun _ => .inr ⟨trivial, by rw [hnode], h⟩⟩

/-! ### What is installed -/

variable {f g : Fold} {e : Entry} {k : ℕ}

lemma Fold.step_endIndex_le {b : ℕ} (h : f.step e k = some g) (hf : f.endIndex ≤ b) (hk : k ≤ b) :
    g.endIndex ≤ b := by
  obtain ⟨-, rfl⟩ | ⟨ms, -, -, rfl⟩ | ⟨-, rfl⟩ | ⟨-, rfl⟩ := step_cases h
  · exact hf
  · exact hf
  · exact Nat.zero_le b
  · exact hk

lemma Fold.steps_endIndex_le {es : List Entry} {b : ℕ} (h : f.steps es k = some g)
    (hf : f.endIndex ≤ b) (hk : k + es.length ≤ b + 1) : g.endIndex ≤ b := by
  induction es generalizing f k with
  | nil => exact Option.some.inj h ▸ hf
  | cons e es ih =>
    rw [length_cons] at hk
    simp only [steps, bind_eq_some_iff] at h
    obtain ⟨f', hstep, h⟩ := h
    exact ih h (f.step_endIndex_le hstep hf (by omega)) (by omega)

lemma foldApply_length_le {ms ms' : List Member} (h : foldApply ms e = some ms')
    (hms : ms.length ≤ maxMembers) : ms'.length ≤ maxMembers := by
  unfold foldApply at h
  split_ifs at h with hadd hany hfull
  · exact Option.some.inj h ▸ hms
  · rw [← Option.some.inj h, length_append, length_singleton]
    omega
  · rw [← Option.some.inj h]
    exact length_eraseP_le.trans hms

variable {n : Node}

/-- Where every entry is committed, the fold that `qcs_fold_membership` makes is the fold at the
commit index. -/
lemma Node.foldMembership_committed {ms : List Member} (hlen : n.entries.length ≤ n.commit)
    (hmax : n.entries.length ≤ u64Max) (hbase : n.cfg.members.length ≤ maxMembers) :
    n.foldMembership none = some ms ↔ ∃ f, n.foldAtCommit = some f ∧ f.members = ms := by
  have hactive {g : Fold}
      (hg : (Fold.start n.cfg.members).steps (n.entries ++ none.toList) 1 = some g) :
      g.activeAt u64Max = g.activeAt n.commit := by
    have hend : g.endIndex ≤ n.entries.length := by
      refine Fold.steps_endIndex_le hg (Nat.zero_le _) ?_
      simp [Nat.add_comm]
    simp [Fold.activeAt, hend.trans hlen, hend.trans hmax]
  rw [foldMembership_eq_some]
  constructor
  · rintro ⟨f, hf, -, rfl⟩
    obtain ⟨g, hg, h1, h2, rfl, hunion⟩ := foldFull_eq_some.mp hf
    refine ⟨{ g with active := g.activeAt u64Max }, foldFull_eq_some.mpr ?_, rfl⟩
    exact ⟨g, hg, h1, h2, by rw [hactive hg], hunion⟩
  · rintro ⟨f, hf, rfl⟩
    obtain ⟨g, hg, h1, h2, rfl, hunion⟩ := foldFull_eq_some.mp hf
    have hlength : g.members.length ≤ maxMembers :=
      Fold.steps_members (P := (·.length ≤ maxMembers)) (fun _ _ => foldApply_length_le) hg hbase
    refine ⟨{ g with active := g.activeAt n.commit }, foldFull_eq_some.mpr ?_, hlength, rfl⟩
    exact ⟨g, hg, h1, h2, by rw [hactive hg], hunion⟩

/-- The node goes on to install the snapshot: it comes from a member, passes the checks and reaches
past what the node has committed or compacted. -/
def Node.installs (n : Node) (sender : Uuid) (term fencingEpoch : ℕ) (s : SnapshotBody) : Bool :=
  (n.memberIndex sender).isSome && n.snapshotAcceptable term fencingEpoch s &&
    n.commit < s.lastIncludedIndex && n.snap.entries.length < s.lastIncludedIndex

/-- The log, the snapshot, the commit index, the member list and the record file are as before. -/
structure Proc.Untouched (p p' : Proc) : Prop where
  log : p'.node.log = p.node.log
  snap : p'.node.snap = p.node.snap
  commit : p'.node.commit = p.node.commit
  members : p'.node.members = p.node.members
  disk : p'.disk = p.disk

/-- The prefix is installed, in memory and in the record file, and the base configuration folded
over it is the effective one. -/
structure Proc.HasInstalled (s : SnapshotBody) (p p' : Proc) : Prop where
  log : p'.node.log = []
  snap : p'.node.snap = s.toSnapshot
  commit : p'.node.commit = s.lastIncludedIndex
  members : ∃ f, foldFull p.node.cfg.members s.entries s.lastIncludedIndex none = some f ∧
    p'.node.members = f.members
  disk : ∃ rs, snapshotRecords false s.toSnapshot = some rs ∧ p'.disk = p.disk ++ rs.map Line.record

/-- A snapshot that is to be installed has a legal history, all its lines can be written, or else
the first one leaves nothing in the file. -/
def Proc.InstallSafe (p : Proc) (sender : Uuid) (term fencingEpoch : ℕ) (s : SnapshotBody) : Prop :=
  p.node.installs sender term fencingEpoch s →
    p.Spares (s.toSnapshot.beginRecord false) ∨
      (∃ rs ∈ snapshotRecords false s.toSnapshot, p.CanAppendAll rs) ∧
        (foldFull p.node.cfg.members s.entries s.lastIncludedIndex none).isSome

instance (p : Proc) (sender : Uuid) (term fencingEpoch : ℕ) (s : SnapshotBody) :
    Decidable (p.InstallSafe sender term fencingEpoch s) :=
  inferInstanceAs (Decidable (_ → _))

/-- The members of the node after a refold. -/
lemma Node.recomputed_members (n : Node) :
    n.recomputed.members = (n.foldMembership none).getD n.members := by
  unfold recomputed recomputeMembership
  cases n.foldMembership none with
  | none => rfl
  | some ms =>
    by_cases hms : ms = n.members
    · simp [hms]
    · simp [hms, setMembership_members]

variable {sender : Uuid} {term fencingEpoch : ℕ} {s : SnapshotBody}

/-- The bounds that the checks put on a snapshot. -/
lemma Node.length_of_installs (h : n.installs sender term fencingEpoch s) :
    s.entries.length = s.lastIncludedIndex ∧ s.entries.length ≤ snapshotMaxEntries ∧
      n.commit < s.lastIncludedIndex ∧ n.snap.entries.length < s.lastIncludedIndex := by
  simp only [installs, snapshotAcceptable, Bool.and_eq_true, decide_eq_true_eq] at h
  tauto

lemma Node.not_installs
    (h : s.lastIncludedIndex ≤ n.commit ∨ s.lastIncludedIndex ≤ n.snap.entries.length) :
    n.installs sender term fencingEpoch s = false := by
  rw [Bool.eq_false_iff]
  intro hinstalls
  obtain ⟨-, -, hcommit, hsnap⟩ := length_of_installs hinstalls
  omega

/-- What becomes of a node that has installed the prefix. -/
lemma Proc.hasInstalled_iff {rs : List Record} (hbase : p.node.cfg.members.length ≤ maxMembers)
    (h : p.node.installs sender term fencingEpoch s)
    (hrs : snapshotRecords false s.toSnapshot = some rs) {p' : Proc}
    (hnode : p'.node = ((p.node.followLeader sender).installed s.toSnapshot).recomputed)
    (hdisk : p'.disk = p.disk ++ rs.map Line.record) : p.HasInstalled s p' ↔
      (foldFull p.node.cfg.members s.entries s.lastIncludedIndex none).isSome := by
  obtain ⟨hlen, hmax, hcommit, -⟩ := length_of_installs h
  set n := (p.node.followLeader sender).installed s.toSnapshot with hn
  have hindex : n.commit = s.lastIncludedIndex := max_eq_right (le_of_lt hcommit)
  have hentries : n.entries = s.entries := append_nil _
  have hfold : n.foldAtCommit = foldFull p.node.cfg.members s.entries s.lastIncludedIndex none := by
    rw [Node.foldAtCommit, hentries, hindex]
    rfl
  have hcommitted {ms : List Member} : n.foldMembership none = some ms ↔
      ∃ f, foldFull p.node.cfg.members s.entries s.lastIncludedIndex none = some f ∧
        f.members = ms := by
    rw [← hfold]
    refine foldMembership_committed ?_ ?_ hbase
    · rw [hentries, hindex, hlen]
    · rw [hentries]
      exact hmax.trans (by decide)
  have hrefold := n.refolded_recomputed
  constructor
  · rintro ⟨-, -, -, ⟨f, hf, -⟩, -⟩
    exact isSome_of_mem hf
  · intro hsome
    obtain ⟨f, hf⟩ := isSome_iff_exists.mp hsome
    refine ⟨?_, ?_, ?_, ⟨f, hf, ?_⟩, rs, hrs, hdisk⟩
    · rw [hnode, hrefold.sameLog.log]
      rfl
    · rw [hnode, hrefold.sameLog.snap]
      rfl
    · rw [hnode, hrefold.commit, hindex]
    · rw [hnode, recomputed_members, hcommitted.mpr ⟨f, hf, rfl⟩]
      rfl

lemma sat_handleSnapshot_iff (hbase : p.node.cfg.members.length ≤ maxMembers) :
    Sat (handleSnapshot sender term fencingEpoch s) p
      (fun _ p' => (p.Untouched p' ∨ p.HasInstalled s p') ↔
        p.InstallSafe sender term fencingEpoch s)
      (fun _ => True) := by
  have huntouched {p' : Proc} (hnot : p.node.installs sender term fencingEpoch s = false)
      (h : p.Untouched p') :
      (p.Untouched p' ∨ p.HasInstalled s p') ↔ p.InstallSafe sender term fencingEpoch s :=
    iff_of_true (.inl h) fun h => by simp [hnot] at h
  simp only [handleSnapshot, replySnapshot, send, sat_bind, sat_getNode, sat_ite, sat_pure,
    sat_emit, sat_modifyNode, sat_recompute]
  refine ⟨fun hmember => ?_, fun hmember => ⟨fun hacc => ?_, fun hacc => ⟨fun hold => ⟨fun _ => ?_,
    fun _ => ?_⟩, fun hnew => ?_⟩⟩⟩
  · exact huntouched (by simp [Node.installs, hmember]) ⟨rfl, rfl, rfl, rfl, rfl⟩
  · exact huntouched (by simp_all [Node.installs]) ⟨rfl, rfl, rfl, rfl, rfl⟩
  · exact huntouched (not_installs hold) ⟨rfl, rfl, rfl, rfl, rfl⟩
  · exact huntouched (not_installs hold) ⟨rfl, rfl, rfl, rfl, rfl⟩
  · have hinstalls : p.node.installs sender term fencingEpoch s := by
      simp_all [Node.installs, isSome_iff_ne_none]
    obtain ⟨hlen, -, -, hboundary⟩ := length_of_installs hinstalls
    have hother : p.node.snap ≠ s.toSnapshot := by
      intro h
      rw [h] at hboundary
      exact absurd hboundary (by simp [SnapshotBody.toSnapshot, hlen])
    -- the node that follows the sender appends as before
    have hall (rs : List Record) : CanAppendAll { p with node := p.node.followLeader sender } rs ↔
        p.CanAppendAll rs := canAppendAll_congr rfl rfl rfl
    have hspare (r : Record) : Spares { p with node := p.node.followLeader sender } r ↔
        p.Spares r := spares_congr rfl rfl rfl
    rw [InstallSafe, forall_prop_of_true hinstalls]
    refine (sat_persistSnapshot_outcome false s.toSnapshot _).imp fun b p' hp' => ?_
    obtain ⟨rfl, rs, hrs, hcan, rfl⟩ | ⟨rfl, hnode, hcannot, hspares⟩ := hp'
    · refine on_true ?_
      rw [hall] at hcan
      have hnot : ¬ p.Spares (s.toSnapshot.beginRecord false) := fun h => by
        obtain ⟨es, -, rfl⟩ := snapshotRecords_eq_some.mp hrs
        exact h.not_canAppend hcan.1
      rw [or_iff_right fun h => hother ?_, or_iff_right hnot,
        hasInstalled_iff hbase hinstalls hrs]
      · exact (and_iff_right ⟨rs, hrs, hcan⟩).symm
      · simp [appendAll_node]
      · exact appendAll_disk _ _
      · have hsnap := h.snap
        rw [(refolded_recomputed _).sameLog.snap] at hsnap
        exact hsnap.symm
    · refine ⟨by rintro ⟨⟩, fun _ => ?_⟩
      rw [or_iff_left fun h => hother ?_, or_iff_left fun h => ?_]
      · rw [← hspare, ← hspares]
        refine ⟨Untouched.disk, fun h => ⟨?_, ?_, ?_, ?_, h⟩⟩
        all_goals rw [hnode]; rfl
      · obtain ⟨⟨rs, hrs, hcan⟩, -⟩ := h
        exact hcannot rs hrs ((hall rs).mpr hcan)
      · rw [← h.snap, hnode]
        rfl

namespace Sample

/-- A learner and the only voter of its group. -/
def learning : Proc where
  node := { Node.blank (config [⟨peer 1, .learner, 1⟩, ⟨peer 2, .voter, 1⟩] 0 (peer 1)) with
    term := 1
    epoch := 1 }
  disk := []
  out := []
  io := []
  failed := false

/-- A snapshot of one entry. -/
def snapshotOf (e : Entry) : SnapshotBody :=
  ⟨1, e.term, 1, e.journalGeneration, snapshotEntriesDigest [e], [e]⟩

/-- The entry that removes the only voter. -/
def removesVoter : Entry := ⟨1, 1, 1, ⟨0, 0⟩, 0, 0, .configRemove, (peer 2).bytes⟩

def seven : Entry := ⟨1, 1, 1, ⟨0, 0⟩, 0, 0, .data, [7]⟩

end Sample

end Qihse.Consensus
