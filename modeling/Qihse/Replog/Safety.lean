import Qihse.Replog.Protocol

/-!
# Consequences of the invariant

Log matching, agreement on committed entries and truth of acknowledgements in every state that
satisfies `Inv`; and the safety of instances whose quorums pairwise intersect.
-/

namespace Replog

open History

variable {N E : Type} {R : Rules N E}

/-! ### Fixed quorums -/

/-- Any two sets of supporters that decide have a node in common. -/
def Intersecting (R : Rules N E) : Prop :=
  ∀ {L L' : List E} {k k' : ℕ} {S S' : Set N}, R.quorum L k S → R.quorum L' k' S' →
    ∃ v, v ∈ S ∧ v ∈ S'

/-- One leader per term: a node votes once in a term. -/
lemma Intersecting.unique (hR : Intersecting R) {h : History N E} (hs : h.Sound R) {U : ℕ}
    {c c' : N} {L : List E} {commit : ℕ} {S : Set N} (hb : h.Ballot R U c L commit S)
    (hl : h.leader U = some c') : c' = c := by
  obtain ⟨v, hv, hv'⟩ := hR hb.quorum (hs.ballot hl).quorum
  obtain ⟨VL, hVL⟩ := hb.votes v hv
  obtain ⟨VL', hVL'⟩ := (hs.ballot hl).votes v hv'
  rw [hVL] at hVL'
  simp only [Option.some.injEq, Prod.mk.injEq] at hVL'
  exact hVL'.1.symm

/-- Leaders hold what was committed before them: by induction on the term of the later leader,
through a node that acknowledged the entry and voted for that leader. -/
lemma Intersecting.complete (hR : Intersecting R) {h : History N E}
    (hs : h.Sound R) : h.Complete := by
  intro r hr U
  induction U using Nat.strong_induction_on with
  | _ U ih =>
    intro hU hlt
    obtain ⟨c, hc⟩ := Option.isSome_iff_exists.mp hU
    have hb := hs.ballot hc
    obtain ⟨v, hv, hvr⟩ := hR hb.quorum (hs.commit_quorum hr)
    have hack := hs.commit_acks hr v hvr
    obtain ⟨VL, hVL⟩ := hb.votes v hv
    have hbetween : ∀ W, (h.leader W).isSome → r.term < W → W < U → h.committed r <+: h.elog W :=
      fun W hW h1 h2 => ih W h2 hW h1
    have hheld : h.committed r <+: VL := by
      rcases hs.elector_kept hU hv hVL hack hlt with hk | ⟨T', h1, h2, h3, h4⟩
      · exact hk
      · exact absurd (hbetween T' h3 h1 (by omega)) h4
    obtain ⟨L, hL, hup⟩ := hs.vote_upToDate hVL
    rw [hb.camp] at hL
    obtain rfl := Option.some.inj hL
    exact hs.carry hr (hs.camp_chain hb.camp) (hs.camp_lt hb.camp) (hs.vote_chain hVL) hup hheld
      hbetween

/-- Instances with fixed intersecting quorums are safe. -/
theorem Intersecting.safe (hR : Intersecting R) : Safe R where
  unique hs _ _ _ _ _ _ hb hl := hR.unique hs hb hl
  complete hs := hR.complete hs

/-! ### Reading the invariant -/

variable {σ : State N E}

/-- Log matching: logs that agree on the term of an entry agree up to it. -/
theorem Inv.matching (hi : Inv R σ) (m n : N) {k : ℕ} (hm : k < (σ.nodes m).log.length)
    (hn : k < (σ.nodes n).log.length)
    (hterm : R.term (σ.nodes m).log[k] = R.term (σ.nodes n).log[k]) :
    (σ.nodes m).log.take (k + 1) = (σ.nodes n).log.take (k + 1) :=
  (hi.node m).chain.matching (hi.node n).chain hm hn hterm

lemma History.Settled.agree {h : History N E} (hs : h.Sound R) (hcomp : h.Complete) {T T' k : ℕ}
    {L L' : List E} (hL : h.Settled T L k) (hL' : h.Settled T' L' k) (hk : k ≤ L.length)
    (hk' : k ≤ L'.length) : L.take k = L'.take k := by
  rcases hL with rfl | ⟨r, hr, -, hrk, hp⟩
  · simp
  rcases hL' with rfl | ⟨r', hr', -, hrk', hp'⟩
  · simp
  have hlen : (L.take k).length = (L'.take k).length := by simp; omega
  -- both prefixes are prefixes of the log of the later of the two deciding leaders
  have hlift : ∀ {r r' : Commit N} {M : List E}, r ∈ h.commits → r' ∈ h.commits →
      r.term ≤ r'.term → k ≤ r.index → M.take k <+: h.tlog r.term →
      M.take k <+: h.tlog r'.term := by
    intro r r' M hr hr' hle hrk hp
    rcases lt_or_eq_of_le hle with hlt | heq
    · have hcov : M.take k <+: h.committed r := by
        refine List.prefix_of_prefix_length_le hp (List.take_prefix _ _) ?_
        rw [hs.committed_length hr]
        simp
        omega
      have hl := hs.commit_leader hr'
      exact hcov.trans ((hcomp r hr _ hl hlt).trans (hs.elog_prefix hl))
    · rwa [← heq]
  rcases le_total r.term r'.term with hle | hle
  · exact (List.prefix_of_prefix_length_le (hlift hr hr' hle hrk hp) hp' hlen.le).eq_of_length hlen
  · exact (List.prefix_of_prefix_length_le hp (hlift hr' hr hle hrk' hp') hlen.le).eq_of_length hlen

/-- State-machine safety: nodes agree on what both know to be committed. -/
theorem Inv.agreement (hst : R.strict) (hsafe : Safe R) (hi : Inv R σ) (m n : N) {k : ℕ}
    (hm : k ≤ (σ.nodes m).commit) (hn : k ≤ (σ.nodes n).commit) :
    (σ.nodes m).log.take k = (σ.nodes n).log.take k :=
  Settled.agree hi.sound (hsafe.complete hi.sound)
    (((hi.node m).settled hst).of_take hm rfl) (((hi.node n).settled hst).of_take hn rfl)
    (hm.trans ((hi.node m).commit_le hst)) (hn.trans ((hi.node n).commit_le hst))

/-- An acknowledgement stays true as long as the node stays in the term. -/
theorem Inv.acknowledged (hi : Inv R σ) {n : N} {k : ℕ}
    (ha : (n, (σ.nodes n).term, k) ∈ σ.hist.acks) :
    (σ.hist.tlog (σ.nodes n).term).take k <+: (σ.nodes n).log := by
  rcases (hi.node n).ack_kept ha with hk | ⟨T', h1, h2, -⟩
  · exact hk
  · omega

end Replog
