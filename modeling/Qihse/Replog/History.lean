import Mathlib

/-!
# Histories of a replicated log

A leader-based replicated log over nodes `N` and entries `E`. A `History` records, for the whole
past of a run, who was elected in which term and with which log, who voted, who acknowledged what
and what was committed by whom. It only grows.

`History.Sound` collects the facts about the past that a run maintains. The main result of the
module is `History.Sound.carry`: a committed prefix that a voter still held when it voted is held by
the candidate, provided that every leader in between held it.
-/

namespace Replog

open List Option

/-- A commit decision of a leader: the committed index, its term, the length of the leader's log
and its commit index when it decided, and the nodes that had acknowledged. -/
structure Commit (N : Type) where
  index : ℕ
  term : ℕ
  length : ℕ
  before : ℕ
  voters : Set N

/-- What an instance of the protocol fixes: the term of an entry, which supporters decide for a node
with a given log and commit index, and which entries a leader may append. Under `strict`, nodes take
over commit indices and snapshots only where they are known to be safe. -/
structure Rules (N E : Type) where
  term : E → ℕ
  quorum : List E → ℕ → Set N → Prop
  allowed : Set (Commit N) → ℕ → List E → E → Prop
  allowed_mono : ∀ {C C' t L e}, C ⊆ C' → allowed C t L e → allowed C' t L e
  strict : Prop

/-- The past of a run. -/
structure History (N E : Type) where
  leader : ℕ → Option N
  elog : ℕ → List E
  tlog : ℕ → List E
  ecommit : ℕ → ℕ
  electors : ℕ → Set N
  camp : N → ℕ → Option (List E)
  vlog : N → ℕ → Option (N × List E)
  acks : Set (N × ℕ × ℕ)
  commits : Set (Commit N)

variable {N E : Type} (R : Rules N E)

/-- The term of the last entry of a log, zero for an empty one. -/
def lastTerm (L : List E) : ℕ := L.getLast?.elim 0 R.term

/-- A log that may win against another one. -/
def UpToDate (L L' : List E) : Prop :=
  lastTerm R L' < lastTerm R L ∨ lastTerm R L' = lastTerm R L ∧ L'.length ≤ L.length

namespace History

variable (h : History N E)

/-- Every prefix of the log that ends in an entry of term `t` was written by the leader of `t`. -/
def Chain (L : List E) : Prop :=
  ∀ k (hk : k < L.length), (h.leader (R.term L[k])).isSome ∧
    L.take (k + 1) <+: h.tlog (R.term L[k])

/-- The prefix of length `m` of the log of leader `T` is in `L`, or a leader elected after `T` and
no later than `U` lacked it. -/
def Kept (T m U : ℕ) (L : List E) : Prop :=
  (h.tlog T).take m <+: L ∨
    ∃ T', T < T' ∧ T' ≤ U ∧ (h.leader T').isSome ∧ ¬ (h.tlog T).take m <+: h.elog T'

/-- The first `k` entries of `L` are committed by a leader of term at most `T`. -/
def Settled (T : ℕ) (L : List E) (k : ℕ) : Prop :=
  k = 0 ∨ ∃ r ∈ h.commits, r.term ≤ T ∧ k ≤ r.index ∧ L.take k <+: h.tlog r.term

/-- A candidate with enough votes in term `U`. -/
structure Ballot (U : ℕ) (c : N) (L : List E) (commit : ℕ) (S : Set N) : Prop where
  pos : 1 ≤ U
  camp : h.camp c U = some L
  quorum : R.quorum L commit S
  votes : ∀ v ∈ S, ∃ VL, h.vlog v U = some (c, VL)
  settled : R.strict → h.Settled (U - 1) L commit

/-- What a run guarantees about its past. -/
structure Sound : Prop where
  ballot : ∀ {U c}, h.leader U = some c → Ballot R h U c (h.elog U) (h.ecommit U) (h.electors U)
  elog_prefix : ∀ {t}, (h.leader t).isSome → h.elog t <+: h.tlog t
  tail_term : ∀ {t}, (h.leader t).isSome → ∀ k (hk : k < (h.tlog t).length),
    (h.elog t).length ≤ k → R.term (h.tlog t)[k] = t
  tail_allowed : ∀ {t}, (h.leader t).isSome → ∀ k (hk : k < (h.tlog t).length),
    (h.elog t).length ≤ k → R.allowed h.commits t ((h.tlog t).take k) (h.tlog t)[k]
  chain : ∀ {t}, (h.leader t).isSome → Chain R h (h.tlog t)
  camp_chain : ∀ {c U L}, h.camp c U = some L → Chain R h L
  camp_lt : ∀ {c U L}, h.camp c U = some L → ∀ e ∈ L, R.term e < U
  camp_pos : ∀ {c U L}, h.camp c U = some L → 1 ≤ U
  vote_chain : ∀ {v U c L}, h.vlog v U = some (c, L) → Chain R h L
  vote_upToDate : ∀ {v U c VL}, h.vlog v U = some (c, VL) →
    ∃ L, h.camp c U = some L ∧ UpToDate R L VL
  vote_kept : ∀ {v U c VL T m}, h.vlog v U = some (c, VL) → (v, T, m) ∈ h.acks → T < U →
    h.Kept T m U VL
  elector_kept : ∀ {v U c VL T m}, (h.leader U).isSome → v ∈ h.electors U →
    h.vlog v U = some (c, VL) → (v, T, m) ∈ h.acks → T < U → h.Kept T m (U - 1) VL
  ack_leader : ∀ {v T m}, (v, T, m) ∈ h.acks → (h.leader T).isSome
  ack_le : ∀ {v T m}, (v, T, m) ∈ h.acks → m ≤ (h.tlog T).length
  commit_leader : ∀ {r}, r ∈ h.commits → (h.leader r.term).isSome
  commit_pos : ∀ {r}, r ∈ h.commits → 1 ≤ r.index
  commit_le : ∀ {r}, r ∈ h.commits → r.index ≤ r.length
  commit_length : ∀ {r}, r ∈ h.commits → r.length ≤ (h.tlog r.term).length
  commit_term : ∀ {r}, r ∈ h.commits →
    ∀ hk : r.index - 1 < (h.tlog r.term).length, R.term (h.tlog r.term)[r.index - 1] = r.term
  commit_quorum : ∀ {r}, r ∈ h.commits →
    R.quorum ((h.tlog r.term).take r.length) r.before r.voters
  commit_before : R.strict → ∀ {r}, r ∈ h.commits →
    h.Settled r.term ((h.tlog r.term).take r.length) r.before
  commit_acks : ∀ {r}, r ∈ h.commits → ∀ q ∈ r.voters, (q, r.term, r.index) ∈ h.acks

/-- The prefix that a commit decision covers. -/
def committed (r : Commit N) : List E := (h.tlog r.term).take r.index

/-- Every later leader starts with the committed prefixes of the earlier ones. -/
def Complete : Prop :=
  ∀ r ∈ h.commits, ∀ U, (h.leader U).isSome → r.term < U → h.committed r <+: h.elog U

end History

/-! ### Chains -/

section Chain

variable {R} {h : History N E} {L L' : List E} {T U : ℕ}

lemma getElem_of_isPrefix {A B : List E} (hAB : A <+: B) {k : ℕ} (hk : k < A.length)
    (hkB : k < B.length) : B[k] = A[k] := by
  obtain ⟨C, rfl⟩ := hAB
  rw [getElem_append_left hk]

namespace History

lemma Chain.of_isPrefix (hL : Chain R h L) (hp : L' <+: L) : Chain R h L' := by
  intro k hk
  have hk' : k < L.length := lt_of_lt_of_le hk hp.length_le
  obtain ⟨hlead, hpre⟩ := hL k hk'
  have hget : L[k] = L'[k] := getElem_of_isPrefix hp hk hk'
  rw [hget] at hlead hpre
  refine ⟨hlead, ?_⟩
  have htake : L'.take (k + 1) = L.take (k + 1) := by
    obtain ⟨M, rfl⟩ := hp
    rw [take_append_of_le_length (by omega)]
  rw [htake]
  exact hpre

/-- A log that is a prefix of a leader's log, with that leader elected, is a chain. -/
lemma Sound.chain_of_isPrefix (hs : Sound R h) (hlead : (h.leader T).isSome)
    (hp : L <+: h.tlog T) : Chain R h L :=
  (hs.chain hlead).of_isPrefix hp

/-- Entries of a leader's log have terms up to its own. -/
lemma Sound.tlog_le (hs : Sound R h) (hlead : (h.leader T).isSome) {k : ℕ}
    (hk : k < (h.tlog T).length) : R.term (h.tlog T)[k] ≤ T := by
  by_cases hke : k < (h.elog T).length
  · obtain ⟨c, hc⟩ := isSome_iff_exists.mp hlead
    have hmem : (h.elog T)[k] ∈ h.elog T := getElem_mem hke
    have hlt := hs.camp_lt (hs.ballot hc).camp _ hmem
    rw [← getElem_of_isPrefix (hs.elog_prefix hlead) hke hk] at hlt
    omega
  · exact (hs.tail_term hlead k hk (by omega)).le

/-- Terms do not decrease along a chain. -/
lemma Sound.chain_mono (hs : Sound R h) (hL : Chain R h L) {i j : ℕ} (hij : i ≤ j)
    (hj : j < L.length) : R.term L[i] ≤ R.term L[j] := by
  obtain ⟨hlead, hpre⟩ := hL j hj
  have hi : i < (L.take (j + 1)).length := by simp; omega
  have hit := lt_of_lt_of_le hi hpre.length_le
  have hget := getElem_of_isPrefix hpre hi hit
  rw [getElem_take] at hget
  have hle := hs.tlog_le hlead hit
  rw [hget] at hle
  exact hle

lemma lastTerm_eq (hk : L.length - 1 < L.length) : lastTerm R L = R.term L[L.length - 1] := by
  rw [lastTerm, getLast?_eq_getElem?, getElem?_eq_getElem hk]
  rfl

section

variable (hs : Sound R h) (hL : Chain R h L) {k : ℕ} (hk : k < L.length)
include hs hL hk

/-- Every entry of a chain was appended by the leader of its term. -/
lemma Sound.chain_allowed :
    1 ≤ R.term L[k] ∧ R.allowed h.commits (R.term L[k]) (L.take k) L[k] := by
  obtain ⟨hlead, hpre⟩ := hL k hk
  obtain ⟨c, hc⟩ := isSome_iff_exists.mp hlead
  have hk' : k < (L.take (k + 1)).length := by simp; omega
  have hkt := lt_of_lt_of_le hk' hpre.length_le
  have hget := getElem_of_isPrefix hpre hk' hkt
  rw [getElem_take] at hget
  have htake : (h.tlog (R.term L[k])).take k = L.take k := by
    obtain ⟨M, hM⟩ := hpre
    rw [← hM, take_append_of_le_length (by simp; omega), take_take,
      Nat.min_eq_left (by omega)]
  have hnew : (h.elog (R.term L[k])).length ≤ k := by
    by_contra hlt
    have hke : k < (h.elog (R.term L[k])).length := by omega
    have hold := hs.camp_lt (hs.ballot hc).camp _ (getElem_mem hke)
    rw [← getElem_of_isPrefix (hs.elog_prefix hlead) hke hkt, hget] at hold
    exact lt_irrefl _ hold
  have hallowed := hs.tail_allowed hlead k hkt hnew
  rw [htake, hget] at hallowed
  exact ⟨(hs.ballot hc).pos, hallowed⟩

/-- The terms of a chain are bounded by its last one. -/
lemma Sound.le_lastTerm :
    R.term L[k] ≤ lastTerm R L := by
  rw [lastTerm_eq (by omega)]
  exact hs.chain_mono hL (by omega) (by omega)

end

/-- A nonempty chain is a prefix of the log of the leader that wrote its last entry. -/
lemma Chain.prefix_tlog (hL : Chain R h L) (hne : L ≠ []) :
    (h.leader (lastTerm R L)).isSome ∧ L <+: h.tlog (lastTerm R L) := by
  have hpos := length_pos_iff.mpr hne
  obtain ⟨hlead, hpre⟩ := hL (L.length - 1) (by omega)
  rw [← lastTerm_eq] at hlead hpre
  rw [take_of_length_le (by omega)] at hpre
  exact ⟨hlead, hpre⟩

/-- Logs that agree on the term of an entry agree up to it. -/
lemma Chain.matching (hL : Chain R h L) (hL' : Chain R h L') {k : ℕ} (hk : k < L.length)
    (hk' : k < L'.length) (hterm : R.term L[k] = R.term L'[k]) :
    L.take (k + 1) = L'.take (k + 1) := by
  have hp := (hL k hk).2
  have hp' := (hL' k hk').2
  rw [← hterm] at hp'
  exact (prefix_of_prefix_length_le hp hp' (by simp; omega)).eq_of_length (by simp; omega)

/-- A chain whose last entry is newer than a leader's election log is longer than that log. -/
lemma Sound.elog_length_lt (hs : Sound R h) (hL : Chain R h L) (hne : L ≠ []) :
    (h.elog (lastTerm R L)).length < L.length := by
  obtain ⟨hlead, hpre⟩ := hL.prefix_tlog hne
  have hpos := length_pos_iff.mpr hne
  by_contra hle
  obtain ⟨c, hc⟩ := isSome_iff_exists.mp hlead
  have hk : L.length - 1 < (h.elog (lastTerm R L)).length := by omega
  have hlt := hs.camp_lt (hs.ballot hc).camp _ (getElem_mem hk)
  have hkt : L.length - 1 < (h.tlog (lastTerm R L)).length :=
    lt_of_lt_of_le hk (hs.elog_prefix hlead).length_le
  rw [← getElem_of_isPrefix (hs.elog_prefix hlead) hk hkt,
    getElem_of_isPrefix hpre (by omega) hkt, ← lastTerm_eq] at hlt
  omega

/-! ### Growth -/

/-- The past only grows: nothing that was recorded changes, and leaders extend their logs. -/
structure Le (h h' : History N E) : Prop where
  leader : ∀ {t c}, h.leader t = some c → h'.leader t = some c
  elog : ∀ {t}, (h.leader t).isSome → h'.elog t = h.elog t
  ecommit : ∀ {t}, (h.leader t).isSome → h'.ecommit t = h.ecommit t
  electors : ∀ {t}, (h.leader t).isSome → h'.electors t = h.electors t
  tlog : ∀ {t}, (h.leader t).isSome → h.tlog t <+: h'.tlog t
  camp : ∀ {c U L}, h.camp c U = some L → h'.camp c U = some L
  vlog : ∀ {v U x}, h.vlog v U = some x → h'.vlog v U = some x
  acks : h.acks ⊆ h'.acks
  commits : h.commits ⊆ h'.commits

variable {h' h'' : History N E}

lemma Le.refl (h : History N E) : Le h h where
  leader := id
  elog _ := rfl
  ecommit _ := rfl
  electors _ := rfl
  tlog _ := prefix_rfl
  camp := id
  vlog := id
  acks := le_rfl
  commits := le_rfl

lemma Le.isSome (hle : Le h h') {t : ℕ} (ht : (h.leader t).isSome) : (h'.leader t).isSome := by
  obtain ⟨c, hc⟩ := isSome_iff_exists.mp ht
  exact isSome_iff_exists.mpr ⟨c, hle.leader hc⟩

lemma Le.trans (h1 : Le h h') (h2 : Le h' h'') : Le h h'' where
  leader hc := h2.leader (h1.leader hc)
  elog ht := (h2.elog (h1.isSome ht)).trans (h1.elog ht)
  ecommit ht := (h2.ecommit (h1.isSome ht)).trans (h1.ecommit ht)
  electors ht := (h2.electors (h1.isSome ht)).trans (h1.electors ht)
  tlog ht := (h1.tlog ht).trans (h2.tlog (h1.isSome ht))
  camp hc := h2.camp (h1.camp hc)
  vlog hv := h2.vlog (h1.vlog hv)
  acks := h1.acks.trans h2.acks
  commits := h1.commits.trans h2.commits

lemma Chain.mono (hL : Chain R h L) (hle : Le h h') : Chain R h' L := by
  intro k hk
  obtain ⟨hlead, hpre⟩ := hL k hk
  exact ⟨hle.isSome hlead, hpre.trans (hle.tlog hlead)⟩

/-- The recorded part of a leader's log does not change. -/
lemma Le.take_tlog (hle : Le h h') (hlead : (h.leader T).isSome) {m : ℕ}
    (hm : m ≤ (h.tlog T).length) : (h'.tlog T).take m = (h.tlog T).take m := by
  obtain ⟨M, hM⟩ := hle.tlog hlead
  rw [← hM, take_append_of_le_length hm]

lemma Kept.mono {m : ℕ} (hk : h.Kept T m U L) (hle : Le h h') (hlead : (h.leader T).isSome)
    (hm : m ≤ (h.tlog T).length) : h'.Kept T m U L := by
  rw [Kept, hle.take_tlog hlead hm]
  rcases hk with hk | ⟨T', h1, h2, h3, h4⟩
  · exact .inl hk
  · exact .inr ⟨T', h1, h2, hle.isSome h3, by rwa [hle.elog h3]⟩

lemma Settled.mono {k : ℕ} (hk : h.Settled T L k) (hs : Sound R h) (hle : Le h h') :
    h'.Settled T L k := by
  rcases hk with hk | ⟨r, hr, h1, h2, h3⟩
  · exact .inl hk
  · exact .inr ⟨r, hle.commits hr, h1, h2, h3.trans (hle.tlog (hs.commit_leader hr))⟩

lemma Settled.le_term {k : ℕ} (hk : h.Settled T L k) (hT : T ≤ U) : h.Settled U L k := by
  rcases hk with hk | ⟨r, hr, h1, h2, h3⟩
  · exact .inl hk
  · exact .inr ⟨r, hr, by omega, h2, h3⟩

/-- A log that agrees on the first `k` entries is settled up to `k` as well. -/
lemma Settled.of_take {j k : ℕ} (hk : h.Settled T L k) (hjk : j ≤ k)
    (htake : L'.take j = L.take j) : h.Settled T L' j := by
  rcases hk with hk | ⟨r, hr, h1, h2, h3⟩
  · exact .inl (by omega)
  · exact .inr ⟨r, hr, h1, by omega, by rw [htake]; exact (take_prefix_take_left hjk).trans h3⟩

lemma Ballot.mono {c : N} {commit : ℕ} {S : Set N} (hb : Ballot R h U c L commit S)
    (hs : Sound R h) (hle : Le h h') : Ballot R h' U c L commit S where
  pos := hb.pos
  camp := hle.camp hb.camp
  quorum := hb.quorum
  votes v hv := (hb.votes v hv).imp fun _ hVL => hle.vlog hVL
  settled hst := (hb.settled hst).mono hs hle

/-! ### Committed prefixes -/

variable {r : Commit N}

section

variable (hs : Sound R h) (hr : r ∈ h.commits)
include hs hr

lemma Sound.committed_length :
    (h.committed r).length = r.index := by
  have h1 := hs.commit_le hr
  have h2 := hs.commit_length hr
  simp only [committed, length_take]
  omega

/-- The last entry of a committed prefix has the term of the decision. -/
lemma Sound.committed_term (hk : r.index - 1 < (h.committed r).length) :
    R.term (h.committed r)[r.index - 1] = r.term := by
  have hpre : h.committed r <+: h.tlog r.term := take_prefix _ _
  have hkt := lt_of_lt_of_le hk hpre.length_le
  rw [← getElem_of_isPrefix hpre hk hkt]
  exact hs.commit_term hr hkt

/-- A candidate holds a committed prefix that one of its voters held, if all leaders elected in
between held it. -/
lemma Sound.carry {VL : List E}
    (hL : Chain R h L) (hlt : ∀ e ∈ L, R.term e < U) (hVL : Chain R h VL)
    (hup : UpToDate R L VL) (hheld : h.committed r <+: VL)
    (hbetween : ∀ W, (h.leader W).isSome → r.term < W → W < U → h.committed r <+: h.elog W) :
    h.committed r <+: L := by
  have hlen := hs.committed_length hr
  have hpos := hs.commit_pos hr
  have hVlen := hheld.length_le
  -- the voter's last term is at least that of the decision
  have hkV : r.index - 1 < VL.length := by omega
  have hVT : r.term ≤ lastTerm R VL := by
    have hget := getElem_of_isPrefix hheld (by omega) hkV
    have hle := hs.le_lastTerm hVL hkV
    rw [hget, hs.committed_term hr (by omega)] at hle
    exact hle
  obtain ⟨c, hc⟩ := isSome_iff_exists.mp (hs.commit_leader hr)
  have hTpos : 1 ≤ r.term := (hs.ballot hc).pos
  have hLne : L ≠ [] := by
    rintro rfl
    rcases hup with hup | ⟨hup, -⟩ <;> simp only [lastTerm, getLast?_nil, elim_none]
      at hup hVT <;> omega
  obtain ⟨hlead, hpre⟩ := hL.prefix_tlog hLne
  have hWU : lastTerm R L < U := by
    have := length_pos_iff.mpr hLne
    rw [lastTerm_eq (by omega)]
    exact hlt _ (getElem_mem _)
  have hTW : r.term ≤ lastTerm R L := by
    rcases hup with hup | ⟨hup, -⟩ <;> omega
  rcases lt_or_eq_of_le hTW with hlt' | heq
  · -- a leader after the decision wrote the candidate's last entry, past its election log
    have hel := hbetween _ hlead hlt' hWU
    have hlong := hs.elog_length_lt hL hLne
    have helen := hel.length_le
    exact prefix_of_prefix_length_le (hel.trans (hs.elog_prefix hlead)) hpre (by omega)
  · -- the deciding leader wrote it: the longer of two prefixes of its log
    rw [← heq] at hpre
    refine prefix_of_prefix_length_le (List.take_prefix _ _) hpre ?_
    rcases hup with hup | ⟨-, hup⟩
    · omega
    · omega

end

end History

end Chain

end Replog
