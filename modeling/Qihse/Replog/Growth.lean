import Qihse.Replog.History

/-!
# Growing a history

The six ways in which the past of a run grows, each with the conditions under which it stays sound.
-/

namespace Replog.History

open List

variable {N E : Type} {R : Rules N E} {h : History N E}

/-! ### Updates -/

/-- A candidate starts to campaign. -/
def addCamp [DecidableEq N] (h : History N E) (c : N) (U : ℕ) (L : List E) : History N E :=
  { h with camp := fun c' U' => if c' = c ∧ U' = U then some L else h.camp c' U' }

/-- A node votes. -/
def addVote [DecidableEq N] (h : History N E) (v : N) (U : ℕ) (c : N) (L : List E) : History N E :=
  { h with vlog := fun v' U' => if v' = v ∧ U' = U then some (c, L) else h.vlog v' U' }

/-- A candidate wins. -/
def addLeader (h : History N E) (U : ℕ) (c : N) (L : List E) (commit : ℕ) (S : Set N) :
    History N E :=
  { h with
    leader := fun t => if t = U then some c else h.leader t
    elog := fun t => if t = U then L else h.elog t
    tlog := fun t => if t = U then L else h.tlog t
    ecommit := fun t => if t = U then commit else h.ecommit t
    electors := fun t => if t = U then S else h.electors t }

/-- A leader appends. -/
def addEntry (h : History N E) (T : ℕ) (e : E) : History N E :=
  { h with tlog := fun t => if t = T then h.tlog T ++ [e] else h.tlog t }

/-- A node acknowledges every index up to `m`. -/
def addAck (h : History N E) (v : N) (T m : ℕ) : History N E :=
  { h with acks := {a | a ∈ h.acks ∨ a.1 = v ∧ a.2.1 = T ∧ a.2.2 ≤ m} }

/-- A leader commits. -/
def addCommit (h : History N E) (r : Commit N) : History N E :=
  { h with commits := insert r h.commits }

lemma le_addCamp [DecidableEq N] {c : N} {U : ℕ} {L : List E} (hnew : h.camp c U = none) :
    Le h (h.addCamp c U L) :=
  { Le.refl h with
    camp := by
      intro c' U' L' hc
      simp only [addCamp]
      split_ifs with heq
      · obtain ⟨rfl, rfl⟩ := heq
        simp [hnew] at hc
      · exact hc }

lemma le_addVote [DecidableEq N] {v c : N} {U : ℕ} {L : List E} (hnew : h.vlog v U = none) :
    Le h (h.addVote v U c L) :=
  { Le.refl h with
    vlog := by
      intro v' U' x hv
      simp only [addVote]
      split_ifs with heq
      · obtain ⟨rfl, rfl⟩ := heq
        simp [hnew] at hv
      · exact hv }

lemma le_addLeader {c : N} {U commit : ℕ} {L : List E} {S : Set N} (hnew : h.leader U = none) :
    Le h (h.addLeader U c L commit S) := by
  have hne : ∀ {t}, (h.leader t).isSome → t ≠ U := by
    rintro t ht rfl
    simp [hnew] at ht
  refine { Le.refl h with leader := ?_, elog := ?_, tlog := ?_, ecommit := ?_, electors := ?_ }
  · intro t c' hc
    simp only [addLeader, if_neg (hne (Option.isSome_iff_exists.mpr ⟨_, hc⟩)), hc]
  all_goals
    intro t ht
    simp only [addLeader, if_neg (hne ht)]
  exact prefix_rfl

lemma le_addEntry {T : ℕ} {e : E} : Le h (h.addEntry T e) :=
  { Le.refl h with
    tlog := by
      intro t _
      simp only [addEntry]
      split_ifs with heq
      · subst heq
        exact prefix_append _ _
      · exact prefix_rfl }

lemma le_addAck {v : N} {T m : ℕ} : Le h (h.addAck v T m) :=
  { Le.refl h with acks := fun _ => .inl }

lemma le_addCommit {r : Commit N} : Le h (h.addCommit r) :=
  { Le.refl h with commits := Set.subset_insert _ _ }

/-! ### Soundness -/

section

variable (hs : Sound R h)
include hs

lemma Sound.addCamp [DecidableEq N] {c : N} {U : ℕ} {L : List E}
    (hnew : h.camp c U = none) (hL : Chain R h L) (hlt : ∀ e ∈ L, R.term e < U) (hpos : 1 ≤ U) :
    Sound R (h.addCamp c U L) := by
  have hle : Le h (h.addCamp c U L) := le_addCamp hnew
  have hcamp : ∀ {c' U' L'}, (h.addCamp c U L).camp c' U' = some L' →
      Chain R h L' ∧ (∀ e ∈ L', R.term e < U') ∧ 1 ≤ U' := by
    intro c' U' L' hc
    simp only [History.addCamp] at hc
    split_ifs at hc with heq
    · cases hc
      exact heq.2 ▸ ⟨hL, hlt, hpos⟩
    · exact ⟨hs.camp_chain hc, hs.camp_lt hc, hs.camp_pos hc⟩
  refine { hs with
    ballot := fun hlead => (hs.ballot hlead).mono hs hle
    camp_chain := fun hc => (hcamp hc).1, camp_lt := fun hc => (hcamp hc).2.1
    camp_pos := fun hc => (hcamp hc).2.2, vote_upToDate := ?_ }
  intro v U' c' VL hv
  obtain ⟨L', hc, hup⟩ := hs.vote_upToDate hv
  exact ⟨L', hle.camp hc, hup⟩

lemma Sound.addVote [DecidableEq N] {v c : N} {U : ℕ} {L VL : List E}
    (hnew : h.vlog v U = none) (hVL : Chain R h VL) (hc : h.camp c U = some L)
    (hup : UpToDate R L VL)
    (hkept : ∀ {T m}, (v, T, m) ∈ h.acks → T < U → h.Kept T m U VL) :
    Sound R (h.addVote v U c VL) := by
  have hle : Le h (h.addVote v U c VL) := le_addVote hnew
  have hvote : ∀ {v' U' c' L'}, (h.addVote v U c VL).vlog v' U' = some (c', L') →
      (v' = v ∧ U' = U ∧ c' = c ∧ L' = VL) ∨ h.vlog v' U' = some (c', L') := by
    intro v' U' c' L' hv
    simp only [History.addVote] at hv
    split_ifs at hv with heq
    · obtain ⟨rfl, rfl⟩ := heq
      injection hv with hv
      injection hv with h1 h2
      exact .inl ⟨rfl, rfl, h1.symm, h2.symm⟩
    · exact .inr hv
  refine { hs with
    ballot := ?_, vote_chain := ?_, vote_upToDate := ?_, vote_kept := ?_, elector_kept := ?_ }
  · intro U' c' hlead
    exact (hs.ballot hlead).mono hs hle
  · intro v' U' c' L' hv
    rcases hvote hv with ⟨rfl, rfl, rfl, rfl⟩ | hv
    · exact hVL
    · exact hs.vote_chain hv
  · intro v' U' c' L' hv
    rcases hvote hv with ⟨rfl, rfl, rfl, rfl⟩ | hv
    · exact ⟨L, hc, hup⟩
    · exact hs.vote_upToDate hv
  · intro v' U' c' L' T m hv hack hT
    rcases hvote hv with ⟨rfl, rfl, rfl, rfl⟩ | hv
    · exact hkept hack hT
    · exact hs.vote_kept hv hack hT
  · intro v' U' c' L' T m hlead hmem hv hack hT
    rcases hvote hv with ⟨rfl, rfl, rfl, rfl⟩ | hv
    · -- an elector of an elected leader has voted before
      obtain ⟨c'', hc''⟩ := Option.isSome_iff_exists.mp hlead
      obtain ⟨L'', hL''⟩ := (hs.ballot hc'').votes _ hmem
      simp [hnew] at hL''
    · exact hs.elector_kept hlead hmem hv hack hT

/-- While terms gain leaders, and their logs entries, what was voted, acknowledged and committed
stays sound. -/
lemma Sound.grow {h' : History N E} (hle : Le h h') (hcamp : h'.camp = h.camp)
    (hvlog : h'.vlog = h.vlog) (hacks : h'.acks = h.acks) (hcommits : h'.commits = h.commits)
    (ballot : ∀ {U c}, h'.leader U = some c →
      Ballot R h' U c (h'.elog U) (h'.ecommit U) (h'.electors U))
    (elog_le : ∀ {t}, (h'.leader t).isSome → h'.elog t <+: h'.tlog t)
    (tail : ∀ {t}, (h'.leader t).isSome → ∀ k (hk : k < (h'.tlog t).length),
      (h'.elog t).length ≤ k → R.term (h'.tlog t)[k] = t ∧
        R.allowed h.commits t ((h'.tlog t).take k) (h'.tlog t)[k])
    (chain : ∀ {t}, (h'.leader t).isSome → Chain R h' (h'.tlog t))
    (elector_kept : ∀ {v U c VL T m}, (h'.leader U).isSome → v ∈ h'.electors U →
      h.vlog v U = some (c, VL) → (v, T, m) ∈ h.acks → T < U → h'.Kept T m (U - 1) VL) :
    Sound R h' := by
  constructor
  case ballot => exact ballot
  case elog_prefix => exact elog_le
  case tail_term => exact fun ht k hk hke => (tail ht k hk hke).1
  case chain => exact chain
  all_goals simp only [hcamp, hvlog, hacks, hcommits]
  case tail_allowed => exact fun ht k hk hke => (tail ht k hk hke).2
  case camp_chain => exact fun hc => (hs.camp_chain hc).mono hle
  case camp_lt => exact hs.camp_lt
  case camp_pos => exact hs.camp_pos
  case vote_chain => exact fun hv => (hs.vote_chain hv).mono hle
  case vote_upToDate => exact hs.vote_upToDate
  case vote_kept =>
    intro v U c VL T m hv hack hT
    exact (hs.vote_kept hv hack hT).mono hle (hs.ack_leader hack) (hs.ack_le hack)
  case elector_kept => exact elector_kept
  case ack_leader => exact fun hack => hle.isSome (hs.ack_leader hack)
  case ack_le =>
    intro v T m hack
    exact (hs.ack_le hack).trans (hle.tlog (hs.ack_leader hack)).length_le
  case commit_leader => exact fun hr => hle.isSome (hs.commit_leader hr)
  case commit_pos => exact hs.commit_pos
  case commit_le => exact hs.commit_le
  case commit_length =>
    intro r hr
    exact (hs.commit_length hr).trans (hle.tlog (hs.commit_leader hr)).length_le
  case commit_term =>
    intro r hr hk
    have h1 := hs.commit_pos hr
    have h2 := hs.commit_le hr
    have h3 := hs.commit_length hr
    rw [getElem_of_isPrefix (hle.tlog (hs.commit_leader hr)) (by omega) hk]
    exact hs.commit_term hr (by omega)
  case commit_quorum =>
    intro r hr
    rw [hle.take_tlog (hs.commit_leader hr) (hs.commit_length hr)]
    exact hs.commit_quorum hr
  case commit_before =>
    intro hst r hr
    rw [hle.take_tlog (hs.commit_leader hr) (hs.commit_length hr)]
    exact (hs.commit_before hst hr).mono hs hle
  case commit_acks => exact hs.commit_acks

lemma Sound.addLeader {c : N} {U commit : ℕ} {L : List E} {S : Set N}
    (hnew : h.leader U = none) (hb : Ballot R h U c L commit S) :
    Sound R (h.addLeader U c L commit S) := by
  have hle : Le h (h.addLeader U c L commit S) := le_addLeader hnew
  refine hs.grow hle rfl rfl rfl rfl ?ballot ?elog_le ?tail ?chain ?elector_kept
  case ballot =>
    intro U' c' hlead
    by_cases heq : U' = U
    · subst heq
      simp only [History.addLeader, if_true, Option.some.injEq] at hlead ⊢
      subst hlead
      exact hb.mono hs hle
    · simp only [History.addLeader, if_neg heq] at hlead ⊢
      exact (hs.ballot hlead).mono hs hle
  case elog_le =>
    intro t ht
    by_cases heq : t = U
    · simp [History.addLeader, heq]
    · simp only [History.addLeader, if_neg heq] at ht ⊢
      exact hs.elog_prefix ht
  case tail =>
    intro t ht k hk hke
    by_cases heq : t = U
    · -- the log of a new leader is the one it was elected with
      simp only [History.addLeader, if_pos heq] at hk hke
      omega
    · simp only [History.addLeader, if_neg heq] at ht hk hke ⊢
      exact ⟨hs.tail_term ht k hk hke, hs.tail_allowed ht k hk hke⟩
  case chain =>
    intro t ht
    refine Chain.mono ?_ hle
    by_cases heq : t = U
    · simp only [History.addLeader, if_pos heq]
      exact hs.camp_chain hb.camp
    · simp only [History.addLeader, if_neg heq] at ht ⊢
      exact hs.chain ht
  case elector_kept =>
    intro v U' c' VL T m hlead hmem hv hack hT
    refine Kept.mono ?_ hle (hs.ack_leader hack) (hs.ack_le hack)
    by_cases heq : U' = U
    · -- at the vote no leader of this term existed yet
      subst heq
      rcases hs.vote_kept hv hack hT with hk | ⟨T', h1, h2, h3, h4⟩
      · exact .inl hk
      · have hne : T' ≠ U' := by
          rintro rfl
          simp [hnew] at h3
        exact .inr ⟨T', h1, by omega, h3, h4⟩
    · simp only [History.addLeader, if_neg heq] at hlead hmem
      exact hs.elector_kept hlead hmem hv hack hT

lemma Sound.addEntry {T : ℕ} {e : E} (hlead : (h.leader T).isSome)
    (hterm : R.term e = T) (hallow : R.allowed h.commits T (h.tlog T) e) :
    Sound R (h.addEntry T e) := by
  have hle : Le h (h.addEntry T e) := le_addEntry
  have hself : (h.addEntry T e).tlog T = h.tlog T ++ [e] := by simp [History.addEntry]
  have hold : ∀ {t}, t ≠ T → (h.addEntry T e).tlog t = h.tlog t := by
    intro t ht
    simp [History.addEntry, ht]
  refine hs.grow hle rfl rfl rfl rfl (fun hl => (hs.ballot hl).mono hs hle)
    (fun ht => (hs.elog_prefix ht).trans (hle.tlog ht)) ?tail ?chain ?elector_kept
  case tail =>
    intro t ht k hk hke
    by_cases heq : t = T
    · subst heq
      simp only [hself] at hk ⊢
      rcases lt_or_ge k (h.tlog t).length with hlt | hge
      · rw [getElem_append_left hlt, take_append_of_le_length (by omega)]
        exact ⟨hs.tail_term ht k hlt hke, hs.tail_allowed ht k hlt hke⟩
      · have hkeq : k = (h.tlog t).length := by simp at hk; omega
        subst hkeq
        rw [getElem_append_right le_rfl, take_left]
        simp only [Nat.sub_self, getElem_cons_zero]
        exact ⟨hterm, hallow⟩
    · simp only [hold heq] at hk ⊢
      exact ⟨hs.tail_term ht k hk hke, hs.tail_allowed ht k hk hke⟩
  case chain =>
    intro t ht
    by_cases heq : t = T
    · subst heq
      rw [hself]
      intro k hk
      rcases lt_or_ge k (h.tlog t).length with hlt | hge
      · rw [getElem_append_left hlt, take_append_of_le_length (by omega)]
        obtain ⟨h1, h2⟩ := hs.chain ht k hlt
        exact ⟨h1, h2.trans (hle.tlog h1)⟩
      · have hkeq : k = (h.tlog t).length := by simp at hk; omega
        subst hkeq
        rw [getElem_append_right le_rfl, take_of_length_le (by simp)]
        simp only [Nat.sub_self, getElem_cons_zero, hterm, hself]
        exact ⟨ht, prefix_rfl⟩
    · rw [hold heq]
      exact (hs.chain ht).mono hle
  case elector_kept =>
    intro v U c VL T' m hl hmem hv hack hT
    exact (hs.elector_kept hl hmem hv hack hT).mono hle (hs.ack_leader hack) (hs.ack_le hack)

lemma Sound.addAck {v : N} {T m : ℕ} (hlead : (h.leader T).isSome)
    (hm : m ≤ (h.tlog T).length) (hvotes : ∀ {U x}, h.vlog v U = some x → U ≤ T) :
    Sound R (h.addAck v T m) := by
  have hle : Le h (h.addAck v T m) := le_addAck
  refine { hs with
    ballot := fun hl => (hs.ballot hl).mono hs hle
    vote_kept := ?_, elector_kept := ?_, ack_leader := ?_, ack_le := ?_, commit_acks := ?_ }
  · intro v' U c VL T' m' hv hack hT
    rcases hack with hack | ⟨rfl, rfl, -⟩
    · exact hs.vote_kept hv hack hT
    · exact absurd (hvotes hv) (not_le.mpr hT)
  · intro v' U c VL T' m' hl hmem hv hack hT
    rcases hack with hack | ⟨rfl, rfl, -⟩
    · exact hs.elector_kept hl hmem hv hack hT
    · exact absurd (hvotes hv) (not_le.mpr hT)
  · rintro v' T' m' (hack | ⟨rfl, rfl, -⟩)
    exacts [hs.ack_leader hack, hlead]
  · rintro v' T' m' (hack | ⟨rfl, rfl, hm'⟩)
    exacts [hs.ack_le hack, hm'.trans hm]
  · exact fun hr q hq => .inl (hs.commit_acks hr q hq)

lemma Sound.addCommit {r : Commit N} (hlead : (h.leader r.term).isSome)
    (hpos : 1 ≤ r.index) (hle' : r.index ≤ r.length) (hlen : r.length ≤ (h.tlog r.term).length)
    (hterm : ∀ hk : r.index - 1 < (h.tlog r.term).length,
      R.term (h.tlog r.term)[r.index - 1] = r.term)
    (hquorum : R.quorum ((h.tlog r.term).take r.length) r.before r.voters)
    (hbefore : R.strict → h.Settled r.term ((h.tlog r.term).take r.length) r.before)
    (hacks : ∀ q ∈ r.voters, (q, r.term, r.index) ∈ h.acks) : Sound R (h.addCommit r) := by
  have hle : Le h (h.addCommit r) := le_addCommit
  refine { hs with
    ballot := fun hl => (hs.ballot hl).mono hs hle
    tail_allowed := fun ht k hk hke => R.allowed_mono hle.commits (hs.tail_allowed ht k hk hke)
    commit_leader := ?_, commit_pos := ?_, commit_le := ?_, commit_length := ?_, commit_term := ?_,
    commit_quorum := ?_, commit_before := ?_, commit_acks := ?_ }
  · rintro r' (rfl | hr)
    exacts [hlead, hs.commit_leader hr]
  · rintro r' (rfl | hr)
    exacts [hpos, hs.commit_pos hr]
  · rintro r' (rfl | hr)
    exacts [hle', hs.commit_le hr]
  · rintro r' (rfl | hr)
    exacts [hlen, hs.commit_length hr]
  · rintro r' (rfl | hr)
    exacts [hterm, hs.commit_term hr]
  · rintro r' (rfl | hr)
    exacts [hquorum, hs.commit_quorum hr]
  · rintro hst r' (rfl | hr)
    exacts [(hbefore hst).mono hs hle, (hs.commit_before hst hr).mono hs hle]
  · rintro r' (rfl | hr)
    exacts [hacks, hs.commit_acks hr]

end

end Replog.History
