import Qihse.Consensus.Votes

/-!
# What one APPEND may commit

A follower that accepts an APPEND commits up to the smaller of `leader_commit` and its own last
index. The batch vouches for the log up to `prev + n` only, so the bound is right exactly when the
log ends there. It need not end there when every entry of the batch is held already: `Overcommits`
is that case.
-/

namespace Qihse.Consensus

open Crash Crash.Prog Node

variable {p : Proc} {sender : Uuid} {prev prevTerm leaderCommit : ℕ} {entries : List Entry}

/-! ### One append to the record file -/

/-- The next append to the record file, of the record `r`, reports success. -/
def Proc.CanAppend (p : Proc) (r : Record) : Prop :=
  r.body.length < recordLineCap ∧ p.node.recQuarantined = false ∧ p.io.headD .ok = .ok ∧
    fileSize p.disk + r.lineLength ≤ fileSizeMax

instance (p : Proc) (r : Record) : Decidable (p.CanAppend r) := inferInstanceAs (Decidable (_ ∧ _))

namespace Proc

/-- The process after a successful append. -/
def append (p : Proc) (r : Record) : Proc :=
  { p with disk := p.disk ++ [Line.record r], io := p.io.tail }

/-- The next append to the record file, of the record `r`, fails and leaves the file as it is. -/
def Spares (p : Proc) (r : Record) : Prop :=
  recordLineCap ≤ r.body.length ∨ p.node.recQuarantined = true ∨
    match p.io.headD .ok with
    | .ok => fileSizeMax < fileSize p.disk + r.lineLength
    | .fail l => landed p.disk r l = p.disk
    | .crash _ => False

instance (p : Proc) (r : Record) : Decidable (p.Spares r) := by
  unfold Spares
  cases p.io.headD .ok <;> infer_instance

/-- What an append that failed, or several of them, may have done. -/
structure Failed (p p' : Proc) : Prop where
  node : p'.node = p.node
  disk : p.disk.length ≤ p'.disk.length

lemma Failed.refl (p : Proc) : p.Failed p := ⟨rfl, le_rfl⟩

end Proc

lemma landed_length_le (d : List Line) (r : Record) (l : Landing) :
    d.length ≤ (landed d r l).length := by
  rcases landed_cases d r l with h | ⟨-, h | h⟩ <;> simp [h]

/-- An append succeeds and extends the file, or fails and leaves something or nothing in it. -/
lemma sat_recordAppend_outcome (p : Proc) (r : Record) : Sat (recordAppend r) p
      (fun b p' => b = true ∧ p.CanAppend r ∧ p' = p.append r ∨
        b = false ∧ ¬ p.CanAppend r ∧ p.Failed p' ∧ (p'.disk = p.disk ↔ p.Spares r))
      (fun _ => True) := by
  refine sat_recordAppend_cases (fun hcap => .inr ⟨rfl, fun h => ?_, .refl p, fun _ =>
    hcap.imp_right .inl, fun _ => rfl⟩)
    (fun hlen hq hio hfit => .inl ⟨rfl, ⟨hlen, hq, hio, hfit⟩, rfl⟩)
    (fun hio hfull => .inr ⟨rfl, fun h => ?_, ⟨rfl, le_rfl⟩, fun _ => .inr (.inr ?_), fun _ => rfl⟩)
    (fun l hl hlen hq => .inr ⟨rfl, fun h => ?_, ⟨rfl, landed_length_le _ _ _⟩, fun h =>
      .inr (.inr ?_), ?_⟩) fun _ _ => trivial
  · rcases hcap with hcap | hq
    · exact absurd h.1 (not_lt.mpr hcap)
    · simp [h.2.1] at hq
  · exact not_le.mpr hfull h.2.2.2
  · rw [hio]
    exact hfull
  · rw [h.2.2.1] at hl
    exact absurd hl nofun
  · rw [hl]
    exact h
  · rintro (h | h | h)
    · exact absurd h (not_le.mpr hlen)
    · simp [hq] at h
    · rwa [hl] at h

/-- An append leaves the node alone and reports success exactly when it can. -/
lemma sat_recordAppend_iff (p : Proc) (r : Record) :
    Sat (recordAppend r) p (fun b p' => p'.node = p.node ∧ (b = true ↔ p.CanAppend r))
      (fun _ => True) := by
  refine (sat_recordAppend_outcome p r).imp fun b p' h => ?_
  obtain ⟨rfl, hcan, rfl⟩ | ⟨rfl, hcan, hfailed, -⟩ := h
  · exact ⟨rfl, iff_of_true rfl hcan⟩
  · exact ⟨hfailed.node, iff_of_false nofun hcan⟩

lemma sat_recordAppend?_node (p : Proc) (r : Option Record) :
    Sat (recordAppend? r) p (fun _ p' => p'.node = p.node) (fun _ => True) := by
  cases r with
  | none => exact rfl
  | some r => exact (sat_recordAppend_iff p r).imp fun _ _ h => h.1

/-! ### Storing the batch -/

/-- Every entry of the batch is already held at its index. -/
def Node.holdsBatch (cs : Node) : List Entry → ℕ → Bool
  | [], _ => true
  | e :: es, prev =>
    (cs.entryAt (prev + 1)).elim false (fun l => l.term = e.term && l.identical e) &&
      cs.holdsBatch es (prev + 1)

lemma Node.entryAt_isSome {cs : Node} {index : ℕ} {e : Entry} (h : cs.entryAt index = some e) :
    index ≤ cs.absLastIndex := by
  unfold entryAt logEntryAt at h
  split_ifs at h with h0 h1
  all_goals
    simp only [not_or, not_lt] at h0
    exact h0.2

lemma Node.SameLog.holdsBatch {cs cs' : Node} (h : cs.SameLog cs') (es : List Entry) (k : ℕ) :
    cs'.holdsBatch es k = cs.holdsBatch es k := by
  induction es generalizing k with
  | nil => rfl
  | cons e es ih => simp only [Node.holdsBatch, Node.entryAt, h.snap, h.log, ih]

lemma Node.holdsBatch_le {cs : Node} (h : cs.holdsBatch entries prev)
    (hprev : prev ≤ cs.absLastIndex) : prev + entries.length ≤ cs.absLastIndex := by
  induction entries generalizing prev with
  | nil => exact hprev
  | cons e es ih =>
    simp only [holdsBatch, Bool.and_eq_true] at h
    cases hl : cs.entryAt (prev + 1) with
    | none => rw [hl] at h; exact absurd h.1 (by simp)
    | some =>
      have hle := ih h.2 (cs.entryAt_isSome hl)
      rw [List.length_cons]
      omega

/-- A stored entry is the last one of the log. -/
lemma sat_storeNew (p : Proc) (e : Entry) (idx : ℕ) (touched : Bool) :
    Sat (storeNew e idx touched) p (fun r p' => p'.node.commit = p.node.commit ∧
        ∀ b, r = .all b → p'.node.absLastIndex = p.node.absLastIndex + 1) (fun _ => True) := by
  simp only [storeNew, sat_bind, sat_getNode, sat_ite, sat_pure]
  refine ⟨fun _ => ⟨trivial, by rintro _ ⟨⟩⟩,
    fun _ => ⟨fun _ => ⟨trivial, by rintro _ ⟨⟩⟩, fun _ => ?_⟩⟩
  refine (sat_recordAppend?_node p _).imp fun b p' hn =>
    ⟨fun _ => ?_, fun _ => ⟨by rw [hn], by rintro _ ⟨⟩⟩⟩
  simp only [logPush, sat_modifyNode, hn]
  exact ⟨rfl, fun _ _ => p.node.absLastIndex_push e⟩

/-- One round of the loop either finds the entry held or ends with it as the last one. -/
lemma sat_storeOne (p : Proc) (e : Entry) (touched : Bool) (hprev : prev ≤ p.node.absLastIndex) :
    Sat (storeOne e (prev + 1) touched) p (fun r p' => p'.node.commit = p.node.commit ∧
        ∀ b, r = .all b → (p' = p ∧ b = touched ∧ (p.node.entryAt (prev + 1)).elim false
            (fun l => l.term = e.term && l.identical e)) ∨
          p'.node.absLastIndex = prev + 1) (fun _ => True) := by
  simp only [storeOne, sat_read]
  cases hl : p.node.entryAt (prev + 1) with
  | none =>
    have hlast : p.node.absLastIndex = prev := by
      have hnone : p.node.entries[prev]? = none := by rw [← p.node.entryAt_succ, hl]
      rw [List.getElem?_eq_none_iff, p.node.entries_length] at hnone
      omega
    refine (sat_storeNew p e _ _).imp fun r p' h => ⟨h.1, fun b hb => .inr ?_⟩
    rw [h.2 b hb, hlast]
  | some =>
    simp only [sat_ite, sat_pure, sat_bind, Option.elim]
    refine ⟨fun hterm => ⟨fun hid => ⟨trivial, ?_⟩, fun _ => ⟨trivial, by rintro _ ⟨⟩⟩⟩,
      fun _ => ⟨fun _ => ⟨trivial, by rintro _ ⟨⟩⟩, fun hbase => ?_⟩⟩
    · rintro b ⟨⟩
      exact .inl ⟨trivial, rfl, by simp [hterm, hid]⟩
    · -- the entry of another term is cut off with all that follows it
      refine (sat_recordAppend_iff p _).imp fun c p' hc =>
        ⟨fun _ => ?_, fun _ => ⟨by rw [hc.1], by rintro _ ⟨⟩⟩⟩
      refine (sat_storeNew _ e _ _).imp fun r q h => ⟨by rw [h.1, hc.1]; rfl, fun b hb => .inr ?_⟩
      have hle : prev + 1 ≤ p.node.absLastIndex := p.node.entryAt_isSome hl
      rw [h.2 b hb, hc.1]
      simp only [truncateFrom, absLastIndex, List.length_take] at hle ⊢
      omega

/-- The loop over the batch either finds all of it held or ends with its last entry as the last
one of the log. -/
lemma sat_storeAll (p : Proc) (touched : Bool) (hprev : prev ≤ p.node.absLastIndex) :
    Sat (storeAll entries prev touched) p (fun r p' => p'.node.commit = p.node.commit ∧
        ∀ b, r = .all b → (p' = p ∧ b = touched ∧ p.node.holdsBatch entries prev) ∨
          p'.node.absLastIndex = prev + entries.length) (fun _ => True) := by
  induction entries generalizing p prev touched with
  | nil =>
    refine ⟨rfl, ?_⟩
    rintro b ⟨⟩
    exact .inl ⟨rfl, rfl, rfl⟩
  | cons e es ih =>
    simp only [storeAll, sat_bind]
    refine (sat_storeOne p e touched hprev).imp ?_
    rintro r q ⟨hcommit, hq⟩
    cases r with
    | refused => exact ⟨hcommit, by rintro _ ⟨⟩⟩
    | all b =>
      rcases hq b rfl with ⟨rfl, rfl, hheld⟩ | hlast
      · have hle : prev + 1 ≤ q.node.absLastIndex := by
          cases hl : q.node.entryAt (prev + 1) with
          | none => rw [hl] at hheld; exact absurd hheld (by simp)
          | some => exact q.node.entryAt_isSome hl
        refine (ih q b hle).imp ?_
        rintro r p' ⟨hc, hp'⟩
        refine ⟨hc, fun b' hb' => ?_⟩
        rcases hp' b' hb' with ⟨hpq, hbb, hes⟩ | hlast
        · exact .inl ⟨hpq, hbb, by rw [holdsBatch, hheld, hes]; rfl⟩
        · exact .inr (by rw [hlast, List.length_cons]; omega)
      · refine (ih q b hlast.ge).imp ?_
        rintro r p' ⟨hc, hp'⟩
        refine ⟨hc.trans hcommit, fun b' hb' => .inr ?_⟩
        rw [List.length_cons]
        rcases hp' b' hb' with ⟨rfl, -, hes⟩ | hlast'
        · have hle := holdsBatch_le hes hlast.ge
          omega
        · omega

/-- A batch that is held is stored without any change. -/
lemma sat_storeAll_of_holdsBatch {touched : Bool} {Q : Stored → Proc → Prop} {C : Proc → Prop}
    (h : p.node.holdsBatch entries prev) :
    Sat (storeAll entries prev touched) p Q C ↔ Q (.all touched) p := by
  induction entries generalizing prev with
  | nil => exact sat_pure _
  | cons e es ih =>
    simp only [holdsBatch, Bool.and_eq_true] at h
    cases hl : p.node.entryAt (prev + 1) with
    | none => rw [hl] at h; exact absurd h.1 (by simp)
    | some =>
      simp only [hl, Option.elim, Bool.and_eq_true, decide_eq_true_eq] at h
      simp only [storeAll, storeOne, sat_bind, sat_getNode, hl, if_pos h.1.1, sat_ite, h.1.2,
        forall_const, not_true_eq_false, false_implies, and_true, sat_pure]
      exact ih h.2

/-! ### The commit step -/

/-- The commit step for `leaderCommit` moves the commit index. -/
def Proc.Commits (p : Proc) (leaderCommit : ℕ) : Prop :=
  p.node.commit < min leaderCommit p.node.absLastIndex ∧
    p.node.validateDataRange (p.node.commit + 1) (min leaderCommit p.node.absLastIndex) ∧
    p.CanAppend (.commit (min leaderCommit p.node.absLastIndex))

instance (p : Proc) (leaderCommit : ℕ) : Decidable (p.Commits leaderCommit) :=
  inferInstanceAs (Decidable (_ ∧ _))

lemma sat_replyAppend {dest : Uuid} {success : Bool} {matchIndex : ℕ} {Q : Node → Prop}
    {C : Proc → Prop} (h : Q p.node) :
    Sat (replyAppend dest success matchIndex) p (fun _ p' => Q p'.node) C := h

/-- The commit index moves exactly when its record can be appended. -/
lemma sat_persistCommit (p : Proc) (commit : ℕ) : Sat (persistCommit commit) p
      (fun _ p' => p'.node = p.node.setCommit
        (if p.CanAppend (.commit commit) then commit else p.node.commit)) (fun _ => True) := by
  simp only [persistCommit, sat_bind, sat_modifyNode, sat_ite, sat_pure]
  refine (sat_recordAppend_iff { p with node := p.node.setCommit commit } _).imp ?_
  rintro b p' ⟨hn, hb⟩
  have hcan : b = true ↔ p.CanAppend (.commit commit) := hb
  refine ⟨fun h => ?_, fun h => ?_⟩
  · rw [if_pos (hcan.mp h), hn]
  · rw [if_neg fun h' => h (hcan.mpr h'), hn]
    rfl

/-- The commit index after the commit step. -/
lemma sat_settleAppend (p : Proc) (verified : ℕ) : Sat (settleAppend sender leaderCommit verified) p
      (fun _ p' => p'.node.commit =
        if p.Commits leaderCommit then min leaderCommit p.node.absLastIndex else p.node.commit)
      (fun _ => True) := by
  simp only [settleAppend, sat_bind, sat_ite]
  refine ⟨fun hle => ?_, fun hlt => ⟨fun hvalid => ?_, fun hvalid => ?_⟩⟩
  · rw [if_neg fun h => absurd h.1 (not_lt.mpr hle)]
    exact sat_replyAppend (Q := (·.commit = p.node.commit)) rfl
  · refine (sat_persistCommit p _).imp fun b p' hn => ?_
    have hiff : p.Commits leaderCommit ↔
        p.CanAppend (.commit (min leaderCommit p.node.absLastIndex)) :=
      ⟨fun h => h.2.2, fun h => ⟨not_le.mp hlt, hvalid, h⟩⟩
    have hcommit := congrArg commit hn
    simp only [hiff]
    exact ⟨fun _ => hcommit, fun _ => hcommit⟩
  · rw [if_neg fun h => hvalid h.2.1]
    exact sat_replyAppend (Q := (·.commit = p.node.commit)) rfl

/-! ### The handler -/

/-- The checks that `qcs_handle_append` makes before it touches anything. -/
def Node.appendAcceptable (cs : Node) (sender : Uuid) (prev prevTerm : ℕ) (entries : List Entry) :
    Prop :=
  cs.memberIndex sender ≠ none ∧ entries.length ≤ maxEntriesPerMsg ∧ ¬ (prev = 0 ∧ prevTerm ≠ 0) ∧
    prev ≤ cs.absLastIndex ∧ ¬ (1 ≤ prev ∧ cs.termAt prev ≠ prevTerm) ∧
    cs.preflight prev entries ∧ ¬ (cs.commit < prev ∧ !cs.validateDataRange (cs.commit + 1) prev)

instance (cs : Node) (sender : Uuid) (prev prevTerm : ℕ) (entries : List Entry) :
    Decidable (cs.appendAcceptable sender prev prevTerm entries) :=
  inferInstanceAs (Decidable (_ ∧ _))

/-- The APPEND passes all checks, brings nothing that the node does not hold, and its
`leader_commit` and the node's own log both go past the end of the batch, with a commit step that
succeeds. -/
def Proc.Overcommits (p : Proc) (sender : Uuid) (prev prevTerm leaderCommit : ℕ)
    (entries : List Entry) : Prop :=
  p.node.appendAcceptable sender prev prevTerm entries ∧ p.node.holdsBatch entries prev ∧
    prev + entries.length < min leaderCommit p.node.absLastIndex ∧ p.Commits leaderCommit

instance (p : Proc) (sender : Uuid) (prev prevTerm leaderCommit : ℕ) (entries : List Entry) :
    Decidable (p.Overcommits sender prev prevTerm leaderCommit entries) :=
  inferInstanceAs (Decidable (_ ∧ _))

/-- The commit index after an APPEND that passed the checks: where the batch is not held as a
whole, the log ends with it. -/
lemma sat_acceptAppend (p : Proc) (hprev : prev ≤ p.node.absLastIndex) :
    Sat (acceptAppend sender prev leaderCommit entries) p (fun _ p' =>
        (p.node.holdsBatch entries prev → p'.node.commit =
          if p.Commits leaderCommit then min leaderCommit p.node.absLastIndex else p.node.commit) ∧
        (¬ p.node.holdsBatch entries prev →
          p'.node.commit ≤ max p.node.commit (min leaderCommit (prev + entries.length))))
      (fun _ => True) := by
  simp only [acceptAppend, sat_bind, sat_modifyNode]
  have hsame : p.node.SameLog (p.node.followLeader sender) := ⟨rfl, rfl⟩
  by_cases hheld : p.node.holdsBatch entries prev
  · simp only [hheld, forall_const, not_true_eq_false, false_implies, and_true]
    rw [sat_storeAll_of_holdsBatch (by rw [← hheld]; exact hsame.holdsBatch entries prev)]
    exact sat_settleAppend { p with node := p.node.followLeader sender } _
  · simp only [hheld, Bool.false_eq_true, false_implies, not_false_eq_true, forall_const, true_and]
    refine (sat_storeAll { p with node := p.node.followLeader sender } false hprev).imp ?_
    rintro r q ⟨hcommit, hq⟩
    have hcommit : q.node.commit = p.node.commit := hcommit
    -- the log ends with the batch, also after the members were folded again
    have hsettle : ∀ n : Node, n.commit = q.node.commit → n.absLastIndex = prev + entries.length →
        Sat (settleAppend sender leaderCommit (prev + entries.length)) { q with node := n }
          (fun _ p' => p'.node.commit ≤
            max p.node.commit (min leaderCommit (prev + entries.length))) (fun _ => True) := by
      intro n hn hlast
      refine (sat_settleAppend _ _).imp fun _ p' hp' => ?_
      rw [hp']
      simp only [hn, hcommit, hlast]
      split_ifs
      · exact le_max_right _ _
      · exact le_max_left _ _
    cases r with
    | refused =>
      exact sat_replyAppend (Q := fun n => n.commit ≤ _) (hcommit.le.trans (le_max_left _ _))
    | all b =>
      have hlast : q.node.absLastIndex = prev + entries.length := by
        refine (hq b rfl).resolve_left fun h => hheld ?_
        rw [← hsame.holdsBatch]
        exact h.2.2
      cases b with
      | false => exact hsettle q.node rfl hlast
      | true =>
        have href := q.node.refolded_recomputed
        exact hsettle _ href.commit (href.sameLog.absLastIndex.trans hlast)

/-- The checks of the handler: a message that fails one leaves the commit index alone. -/
lemma sat_handleAppend_checks {Q : Node → Prop}
    (hrefused : ¬ p.node.appendAcceptable sender prev prevTerm entries → Q p.node)
    (haccepted : p.node.appendAcceptable sender prev prevTerm entries →
      Sat (acceptAppend sender prev leaderCommit entries) p (fun _ p' => Q p'.node)
        (fun _ => True)) :
    Sat (handleAppend sender prev prevTerm leaderCommit entries) p (fun _ p' => Q p'.node)
      (fun _ => True) := by
  simp only [handleAppend, sat_read, sat_ite, sat_pure]
  refine ⟨fun h => hrefused fun ha => ha.1 h, fun h1 => ?_⟩
  refine ⟨fun h => hrefused fun ha => absurd ha.2.1 (not_le.mpr h), fun h2 => ?_⟩
  refine ⟨fun h => hrefused fun ha => ha.2.2.1 h, fun h3 => ?_⟩
  refine ⟨fun h => sat_replyAppend (hrefused fun ha => absurd ha.2.2.2.1 (not_le.mpr h)),
    fun h4 => ?_⟩
  refine ⟨fun h => sat_replyAppend (hrefused fun ha => ha.2.2.2.2.1 h), fun h5 => ?_⟩
  refine ⟨fun h => sat_replyAppend (hrefused fun ha => by simp [ha.2.2.2.2.2.1] at h), fun h6 => ?_⟩
  refine ⟨fun h => sat_replyAppend (hrefused fun ha => ha.2.2.2.2.2.2 h), fun h7 => ?_⟩
  exact haccepted ⟨h1, not_lt.mp h2, h3, not_lt.mp h4, h5, by simpa using h6, h7⟩

lemma sat_handleAppend (p : Proc) : Sat (handleAppend sender prev prevTerm leaderCommit entries) p
      (fun _ p' => (p.Overcommits sender prev prevTerm leaderCommit entries →
          p'.node.commit = min leaderCommit p.node.absLastIndex) ∧
        (¬ p.Overcommits sender prev prevTerm leaderCommit entries →
          p'.node.commit ≤ max p.node.commit (min leaderCommit (prev + entries.length))))
      (fun _ => True) := by
  refine sat_handleAppend_checks (Q := fun n =>
    (p.Overcommits sender prev prevTerm leaderCommit entries →
      n.commit = min leaderCommit p.node.absLastIndex) ∧
    (¬ p.Overcommits sender prev prevTerm leaderCommit entries →
      n.commit ≤ max p.node.commit (min leaderCommit (prev + entries.length))))
    (fun hno => ⟨fun h => absurd h.1 hno, fun _ => le_max_left _ _⟩) fun hacc => ?_
  refine (sat_acceptAppend p hacc.2.2.2.1).imp fun _ p' ⟨hheld, hnew⟩ => ⟨fun h => ?_, fun h => ?_⟩
  · rw [hheld h.2.1, if_pos h.2.2.2]
  · by_cases hb : p.node.holdsBatch entries prev
    · rw [hheld hb]
      split_ifs with hc
      · have hle : min leaderCommit p.node.absLastIndex ≤ prev + entries.length :=
          not_lt.mp fun hlt => h ⟨hacc, hb, hlt, hc⟩
        exact le_max_of_le_right (le_min (min_le_left _ _) hle)
      · exact le_max_left _ _
    · exact hnew hb

/-- After an APPEND was handled, the commit index is within what the message vouches for, and
nothing past the end of the batch was newly committed, exactly when the message and the node did
not meet `Overcommits`. -/
theorem handleAppend_commit_iff {p p' : Proc} {sender : Uuid} {prev prevTerm leaderCommit : ℕ}
    {entries : List Entry}
    (h : handleAppend sender prev prevTerm leaderCommit entries p = (some (), p')) :
    (p'.node.commit ≤ max p.node.commit (min leaderCommit (prev + entries.length)) ∧
      ∀ i, prev + entries.length < i → i ≤ p'.node.commit → i ≤ p.node.commit) ↔
    ¬ p.Overcommits sender prev prevTerm leaderCommit entries := by
  have hsat : Sat (handleAppend sender prev prevTerm leaderCommit entries) p _ _ :=
    sat_handleAppend p
  rw [Sat, h] at hsat
  constructor
  · rintro ⟨hle, -⟩ hover
    have hcommit := hsat.1 hover
    have hpast := hover.2.2.1
    have hmoved := hover.2.2.2.1
    omega
  · intro hno
    have hle := hsat.2 hno
    refine ⟨hle, fun i hi hcommitted => ?_⟩
    omega

namespace Sample

/-- A follower of three whose log holds two entries of term 1, none of them committed. -/
def stale : Proc where
  node := { blank (config trio 0 (peer 1)) with
    term := 2
    epoch := 2
    log := [⟨1, 1, 1, ⟨0, 0⟩, 0, 0, .data, [7]⟩, ⟨2, 1, 2, ⟨0, 0⟩, 0, 0, .data, [8]⟩] }
  disk := []
  out := []
  io := []
  failed := false

/-- An empty APPEND after index 1 with `leader_commit` 1 stays within what it vouches for. -/
theorem handleAppend_commit_iff_probe : ¬ stale.Overcommits (peer 2) 1 1 1 [] ∧
      ((handleAppend (peer 2) 1 1 1 [] stale).2.node.commit ≤ max 0 (min 1 (1 + 0)) ∧
        ∀ i, 1 + 0 < i → i ≤ (handleAppend (peer 2) 1 1 1 [] stale).2.node.commit → i ≤ 0) := by
  have hno : ¬ stale.Overcommits (peer 2) 1 1 1 [] := by decide +kernel
  have hrun : handleAppend (peer 2) 1 1 1 [] stale =
      (some (), (handleAppend (peer 2) 1 1 1 [] stale).2) := rfl
  exact ⟨hno, (handleAppend_commit_iff hrun).mpr hno⟩

/-- An empty APPEND from the start of the log with `leader_commit` 2 commits both entries, of which
it vouches for none. -/
theorem handleAppend_overcommit : stale.Overcommits (peer 2) 0 0 2 [] ∧
      (handleAppend (peer 2) 0 0 2 [] stale).1 = some () ∧
      (handleAppend (peer 2) 0 0 2 [] stale).2.node.commit = 2 ∧
      ¬ (handleAppend (peer 2) 0 0 2 [] stale).2.node.commit ≤
        max stale.node.commit (min 2 (0 + ([] : List Entry).length)) := by
  decide +kernel

end Sample

end Qihse.Consensus
