import Qihse.Replog.Growth

/-!
# The replicated log protocol

The steps of a node, with their effect on the recorded past. `Inv` is kept by every step
(`Step.inv`), provided that the quorums of the instance are `Safe`: no two candidates win in one
term, and later leaders hold what earlier ones committed.
-/

namespace Replog

open History Option

inductive Role
  | follower
  | candidate
  | leader

structure Node (N E : Type) where
  term : ℕ
  vote : Option N
  log : List E
  commit : ℕ
  role : Role

structure State (N E : Type) where
  nodes : N → Node N E
  hist : History N E

variable {N E : Type} (R : Rules N E)

/-- The state in which node `n` has become `x` and the past has become `h`. -/
def State.update [DecidableEq N] (σ : State N E) (n : N) (x : Node N E) (h : History N E) :
    State N E :=
  ⟨fun m => if m = n then x else σ.nodes m, h⟩

/-- The rules of the instance are safe in every sound history. -/
structure Safe : Prop where
  unique : ∀ {h : History N E}, h.Sound R → ∀ {U c c' L commit S},
    h.Ballot R U c L commit S → h.leader U = some c' → c' = c
  complete : ∀ {h : History N E}, h.Sound R → h.Complete

/-- A node that took no part in the run yet. -/
structure Fresh (h : History N E) (n : N) : Prop where
  vlog : ∀ U, h.vlog n U = none
  camp : ∀ U, h.camp n U = none
  leader : ∀ U, h.leader U ≠ some n
  acks : ∀ T m, (n, T, m) ∉ h.acks

/-- The steps of node `n`, which is at `x` in the state `σ`. -/
inductive Step [DecidableEq N] (n : N) : State N E → State N E → Prop
  /-- Adopt a newer term. -/
  | adopt {σ : State N E} {x : Node N E} (hx : σ.nodes n = x) (t : ℕ) (ht : x.term < t) :
      Step n σ (σ.update n { x with term := t, vote := none, role := .follower } σ.hist)
  /-- Start an election in a newer term. -/
  | campaign {σ : State N E} {x : Node N E} (hx : σ.nodes n = x) (U : ℕ) (hU : x.term < U) :
      Step n σ (σ.update n { x with term := U, vote := some n, role := .candidate }
        ((σ.hist.addCamp n U x.log).addVote n U n x.log))
  /-- Vote for a candidate whose log is up to date. -/
  | vote {σ : State N E} {x : Node N E} (hx : σ.nodes n = x) (c : N) (L : List E)
      (hv : x.vote = none) (hc : σ.hist.camp c x.term = some L) (hup : UpToDate R L x.log) :
      Step n σ (σ.update n { x with vote := some c, role := .follower }
        (σ.hist.addVote n x.term c x.log))
  /-- Give up a role, also by a crash. -/
  | stepDown {σ : State N E} {x : Node N E} (hx : σ.nodes n = x) :
      Step n σ (σ.update n { x with role := .follower } σ.hist)
  /-- Win an election. -/
  | win {σ : State N E} {x : Node N E} (hx : σ.nodes n = x) (S : Set N)
      (hrole : x.role = .candidate) (hq : R.quorum x.log x.commit S)
      (hS : ∀ v ∈ S, ∃ VL, σ.hist.vlog v x.term = some (n, VL)) :
      Step n σ (σ.update n { x with role := .leader }
        (σ.hist.addLeader x.term n x.log x.commit S))
  /-- Append to the log of the term that this node leads. -/
  | append {σ : State N E} {x : Node N E} (hx : σ.nodes n = x) (e : E)
      (hl : σ.hist.leader x.term = some n) (he : R.term e = x.term)
      (ha : R.allowed σ.hist.commits x.term x.log e) :
      Step n σ (σ.update n { x with log := x.log ++ [e] } (σ.hist.addEntry x.term e))
  /-- Drop a suffix that starts with an entry the leader's log contradicts. -/
  | truncate {σ : State N E} {x : Node N E} (hx : σ.nodes n = x) (l : N) (k : ℕ)
      (hl : σ.hist.leader x.term = some l) (hln : l ≠ n) (hrole : x.role = .follower)
      (hk : k < x.log.length) (hk' : k < (σ.hist.tlog x.term).length)
      (hne : R.term x.log[k] ≠ R.term (σ.hist.tlog x.term)[k]) :
      Step n σ (σ.update n { x with log := x.log.take k } σ.hist)
  /-- Take over the next entry of the leader's log. -/
  | push {σ : State N E} {x : Node N E} (hx : σ.nodes n = x) (l : N) (e : E)
      (hl : σ.hist.leader x.term = some l) (hln : l ≠ n) (hrole : x.role = .follower)
      (hpre : x.log ++ [e] <+: σ.hist.tlog x.term) :
      Step n σ (σ.update n { x with log := x.log ++ [e] } σ.hist)
  /-- Acknowledge a prefix of the leader's log. -/
  | ack {σ : State N E} {x : Node N E} (hx : σ.nodes n = x) (m : ℕ)
      (hl : (σ.hist.leader x.term).isSome) (hm : m ≤ (σ.hist.tlog x.term).length)
      (hpre : (σ.hist.tlog x.term).take m <+: x.log) :
      Step n σ (σ.update n x (σ.hist.addAck n x.term m))
  /-- Commit as the leader. -/
  | commit {σ : State N E} {x : Node N E} (hx : σ.nodes n = x) (k : ℕ) (S : Set N)
      (hl : σ.hist.leader x.term = some n) (hpos : 1 ≤ k) (hk : k ≤ x.log.length)
      (hterm : ∀ hk : k - 1 < x.log.length, R.term x.log[k - 1] = x.term)
      (hq : R.quorum x.log x.commit S) (hacks : ∀ q ∈ S, (q, x.term, k) ∈ σ.hist.acks) :
      Step n σ (σ.update n { x with commit := k }
        (σ.hist.addCommit ⟨k, x.term, x.log.length, x.commit, S⟩))
  /-- Take over a commit index. -/
  | follow {σ : State N E} {x : Node N E} (hx : σ.nodes n = x) (k : ℕ) (hrole : x.role = .follower)
      (hk : R.strict → k ≤ x.log.length ∧ σ.hist.Settled x.term x.log k) :
      Step n σ (σ.update n { x with commit := k } σ.hist)
  /-- Replace the log by a prefix of the leader's log. -/
  | install {σ : State N E} {x : Node N E} (hx : σ.nodes n = x) (l : N) (p : List E)
      (hl : σ.hist.leader x.term = some l) (hln : l ≠ n) (hrole : x.role = .follower)
      (hp : p <+: σ.hist.tlog x.term) (hset : R.strict → σ.hist.Settled x.term p p.length)
      (hkeep : p <+: x.log → x.log.length ≤ p.length) :
      Step n σ (σ.update n { x with log := p, commit := p.length } σ.hist)
  /-- Provision a new node with a copy of the durable state of another one. -/
  | clone {σ : State N E} (m : N) (hn : Fresh σ.hist n) :
      Step n σ (σ.update n { σ.nodes m with role := .follower }
        (match (σ.nodes m).vote, σ.hist.vlog m (σ.nodes m).term with
          | some _, some (c, VL) => σ.hist.addVote n (σ.nodes m).term c VL
          | _, _ => σ.hist))

/-! ### Invariants -/

/-- The invariant of a node. -/
structure NodeOk (h : History N E) (n : N) (x : Node N E) : Prop where
  chain : h.Chain R x.log
  term_le : ∀ e ∈ x.log, R.term e ≤ x.term
  tlog_eq : h.leader x.term = some n → x.log = h.tlog x.term
  leading : x.role = .leader → h.leader x.term = some n
  running : x.role = .candidate → 1 ≤ x.term ∧ h.camp n x.term = some x.log ∧
    h.leader x.term ≠ some n ∧ (R.strict → h.Settled (x.term - 1) x.log x.commit)
  vote_some : ∀ {c}, x.vote = some c → ∃ VL, h.vlog n x.term = some (c, VL)
  vote_le : ∀ {U c VL}, h.vlog n U = some (c, VL) → U ≤ x.term ∧ (U = x.term → x.vote = some c)
  camp_le : ∀ {U L}, h.camp n U = some L → U ≤ x.term
  leader_le : ∀ {U}, h.leader U = some n → U ≤ x.term
  ack_le : ∀ {T m}, (n, T, m) ∈ h.acks → T ≤ x.term
  ack_kept : ∀ {T m}, (n, T, m) ∈ h.acks → h.Kept T m x.term x.log
  commit_le : R.strict → x.commit ≤ x.log.length
  settled : R.strict → h.Settled x.term x.log x.commit

structure Inv (σ : State N E) : Prop where
  sound : σ.hist.Sound R
  node : ∀ n, NodeOk R σ.hist n (σ.nodes n)

/-- The part of the past that speaks about node `n` has not changed. -/
structure Untouched (h h' : History N E) (n : N) : Prop where
  vlog : ∀ {U}, h'.vlog n U = h.vlog n U
  camp : ∀ {U}, h'.camp n U = h.camp n U
  leader : ∀ {U}, h'.leader U = some n → h.leader U = some n
  tlog : ∀ {T}, h.leader T = some n → h'.tlog T = h.tlog T
  acks : ∀ {T m}, (n, T, m) ∈ h'.acks → (n, T, m) ∈ h.acks

variable {R} {h h' : History N E} {n : N} {x : Node N E}

lemma Untouched.refl (h : History N E) (n : N) : Untouched h h n :=
  ⟨rfl, rfl, id, fun _ => rfl, id⟩

/-- What a node acknowledged it keeps while the past grows. -/
lemma NodeOk.kept (hx : NodeOk R h n x) (hs : h.Sound R) (hle : Le h h') {T m : ℕ}
    (ha : (n, T, m) ∈ h.acks) : h'.Kept T m x.term x.log :=
  (hx.ack_kept ha).mono hle (hs.ack_leader ha) (hs.ack_le ha)

/-- A node that did nothing keeps its invariant while the past grows. -/
lemma NodeOk.mono (hx : NodeOk R h n x) (hs : h.Sound R) (hle : Le h h') (hu : Untouched h h' n) :
    NodeOk R h' n x where
  chain := hx.chain.mono hle
  term_le := hx.term_le
  tlog_eq hl := by rw [hu.tlog (hu.leader hl)]; exact hx.tlog_eq (hu.leader hl)
  leading hr := hle.leader (hx.leading hr)
  running hr := by
    obtain ⟨h1, h2, h3, h4⟩ := hx.running hr
    exact ⟨h1, hle.camp h2, fun hl => h3 (hu.leader hl), fun hst => (h4 hst).mono hs hle⟩
  vote_some hv := (hx.vote_some hv).imp fun _ hVL => hle.vlog hVL
  vote_le hv := hx.vote_le (by rwa [hu.vlog] at hv)
  camp_le hc := hx.camp_le (by rwa [hu.camp] at hc)
  leader_le hl := hx.leader_le (hu.leader hl)
  ack_le ha := hx.ack_le (hu.acks ha)
  ack_kept ha := hx.kept hs hle (hu.acks ha)
  commit_le := hx.commit_le
  settled hst := (hx.settled hst).mono hs hle

lemma Kept.le {T m U U' : ℕ} {L : List E} (hk : h.Kept T m U L) (hU : U ≤ U') :
    h.Kept T m U' L := by
  rcases hk with hk | ⟨T', h1, h2, h3, h4⟩
  · exact .inl hk
  · exact .inr ⟨T', h1, by omega, h3, h4⟩

/-- What a step of node `n` leads to. -/
structure Next (R : Rules N E) (n : N) (σ σ' : State N E) : Prop where
  inv : Inv R σ'
  le : Le σ.hist σ'.hist
  others : ∀ {m}, m ≠ n → σ'.nodes m = σ.nodes m

section

variable [DecidableEq N] (σ : State N E) (n : N) (x : Node N E) (h : History N E)

@[simp]
lemma State.update_self : (σ.update n x h).nodes n = x := by
  simp [update]

@[simp]
lemma State.update_hist : (σ.update n x h).hist = h := rfl

end

lemma Next.trans {σ σ1 σ2 : State N E} (h1 : Next R n σ σ1) (h2 : Next R n σ1 σ2) : Next R n σ σ2 :=
  ⟨h2.inv, h1.le.trans h2.le, fun hm => (h2.others hm).trans (h1.others hm)⟩

/-- The state before anything happened. -/
def State.init : State N E where
  nodes _ := ⟨0, none, [], 0, .follower⟩
  hist := ⟨fun _ => none, fun _ => [], fun _ => [], fun _ => 0, fun _ => ∅, fun _ _ => none,
    fun _ _ => none, ∅, ∅⟩

lemma inv_init : Inv R (State.init : State N E) := by
  refine ⟨?_, fun n => ?_⟩
  · constructor <;> simp [State.init]
  · constructor <;> simp [State.init, Chain, Settled]

/-- The assembly of the invariant after a step of node `n`. -/
lemma Inv.update [DecidableEq N] {σ : State N E} (hi : Inv R σ) (hs : h'.Sound R)
    (hle : Le σ.hist h') (hn : NodeOk R h' n x) (hu : ∀ m, m ≠ n → Untouched σ.hist h' m) :
    Next R n σ (σ.update n x h') := by
  refine ⟨⟨hs, fun m => ?_⟩, hle, fun hm => by simp [State.update, hm]⟩
  by_cases hm : m = n
  · subst hm
    simpa [State.update] using hn
  · simp only [State.update, if_neg hm]
    exact (hi.node m).mono hi.sound hle (hu m hm)

/-! ### Steps of one node -/

section NodeSteps

lemma NodeOk.adopt (hx : NodeOk R h n x) {t : ℕ} (ht : x.term < t) :
    NodeOk R h n { x with term := t, vote := none, role := .follower } where
  chain := hx.chain
  term_le e he := (hx.term_le e he).trans ht.le
  tlog_eq hl := by have := hx.leader_le hl; simp at this; omega
  leading hr := by simp at hr
  running hr := by simp at hr
  vote_some hv := by simp at hv
  vote_le hv := by
    have := (hx.vote_le hv).1
    exact ⟨by simp; omega, by simp; omega⟩
  camp_le hc := (hx.camp_le hc).trans ht.le
  leader_le hl := (hx.leader_le hl).trans ht.le
  ack_le ha := (hx.ack_le ha).trans ht.le
  ack_kept ha := Kept.le (hx.ack_kept ha) ht.le
  commit_le := hx.commit_le
  settled hst := (hx.settled hst).le_term ht.le

lemma NodeOk.stepDown (hx : NodeOk R h n x) : NodeOk R h n { x with role := .follower } :=
  { hx with
    leading := fun hr => by simp at hr
    running := fun hr => by simp at hr }

/-- What a committed prefix of a node's log has to do with the leader of its term. -/
lemma NodeOk.settled_prefix (hx : NodeOk R h n x) (hs : h.Sound R) (hst : R.strict)
    (hcomp : h.Complete) (hl : (h.leader x.term).isSome) :
    x.log.take x.commit <+: h.tlog x.term := by
  rcases hx.settled hst with h0 | ⟨r, hr, h1, h2, h3⟩
  · simp [h0]
  rcases lt_or_eq_of_le h1 with hlt | heq
  · have hcov : x.log.take x.commit <+: h.committed r := by
      refine List.prefix_of_prefix_length_le h3 (List.take_prefix _ _) ?_
      rw [hs.committed_length hr]
      simp
      omega
    exact hcov.trans ((hcomp r hr _ hl hlt).trans (hs.elog_prefix hl))
  · rwa [← heq]

/-- A prefix of a log that the leader's log contradicts was not acknowledged to that leader. -/
lemma Sound.kept_of_contradiction (hs : h.Sound R) {T m U : ℕ} {L : List E}
    (hT : T ≤ U) (hU : (h.leader U).isSome) (hnot : ¬ (h.tlog T).take m <+: h.tlog U) :
    h.Kept T m U L := by
  have hne : T ≠ U := by
    rintro rfl
    exact hnot (List.take_prefix _ _)
  exact .inr ⟨U, by omega, le_rfl, hU, fun hp => hnot (hp.trans (hs.elog_prefix hU))⟩

lemma not_prefix_of_ne {A B C : List E} {k : ℕ} (hA : A <+: B) (hk : k < A.length)
    (hkB : k < B.length) (hkC : k < C.length) (hne : R.term B[k] ≠ R.term C[k]) : ¬ A <+: C := by
  intro hAC
  apply hne
  rw [getElem_of_isPrefix hA hk hkB, getElem_of_isPrefix hAC hk hkC]

lemma Sound.term_le_of_isPrefix (hs : h.Sound R) {T : ℕ} {p : List E} (hT : (h.leader T).isSome)
    (hp : p <+: h.tlog T) : ∀ e ∈ p, R.term e ≤ T := by
  intro e he
  obtain ⟨k, hk, rfl⟩ := List.getElem_of_mem he
  have hkt := lt_of_lt_of_le hk hp.length_le
  have hle := hs.tlog_le hT hkt
  rwa [getElem_of_isPrefix hp hk hkt] at hle

section

variable (hx : NodeOk R h n x) {l : N} (hl : h.leader x.term = some l) (hln : l ≠ n)
  (hrole : x.role = .follower)
include hx hl hln hrole

/-- A follower of another leader may have another log if it keeps what it acknowledged. -/
lemma NodeOk.relog {L : List E} {k : ℕ} (hchain : h.Chain R L) (hterm : ∀ e ∈ L, R.term e ≤ x.term)
    (hkept : ∀ {T m}, (n, T, m) ∈ h.acks → h.Kept T m x.term L)
    (hcommit : R.strict → k ≤ L.length) (hsettled : R.strict → h.Settled x.term L k) :
    NodeOk R h n { x with log := L, commit := k } := by
  refine { hx with
    chain := hchain, term_le := hterm, tlog_eq := ?_, running := ?_, ack_kept := hkept
    commit_le := hcommit, settled := hsettled }
  · intro hl'
    rw [hl] at hl'
    exact absurd (some.inj hl') hln
  · intro hr
    simp [hrole] at hr

lemma NodeOk.truncate (hs : h.Sound R) (hcomp : h.Complete) {k : ℕ}
    (hk : k < x.log.length) (hk' : k < (h.tlog x.term).length)
    (hne : R.term x.log[k] ≠ R.term (h.tlog x.term)[k]) :
    NodeOk R h n { x with log := x.log.take k } := by
  have hlead : (h.leader x.term).isSome := by simp [hl]
  have hcommit : R.strict → x.commit ≤ k := by
    intro hst
    by_contra hlt
    have hle := hx.commit_le hst
    refine not_prefix_of_ne (List.take_prefix x.commit x.log) ?_ hk hk' hne
      (hx.settled_prefix hs hst hcomp hlead)
    simp
    omega
  refine hx.relog hl hln hrole (hx.chain.of_isPrefix (List.take_prefix _ _))
    (fun e he => hx.term_le e (List.mem_of_mem_take he)) ?_ ?_ ?_
  · intro T m ha
    rcases hx.ack_kept ha with hk | hk
    · by_cases hm : m ≤ k
      · refine .inl (List.prefix_of_prefix_length_le hk (List.take_prefix _ _) ?_)
        simp
        omega
      · refine Sound.kept_of_contradiction hs (hx.ack_le ha) hlead ?_
        have := hs.ack_le ha
        exact not_prefix_of_ne hk (by simp; omega) ‹_› hk' hne
    · exact .inr hk
  · intro hst
    have := hcommit hst
    simp
    omega
  · intro hst
    refine (hx.settled hst).of_take le_rfl ?_
    rw [List.take_take, min_eq_left (hcommit hst)]

lemma NodeOk.push (hs : h.Sound R) {e : E}
    (hpre : x.log ++ [e] <+: h.tlog x.term) : NodeOk R h n { x with log := x.log ++ [e] } := by
  have hlead : (h.leader x.term).isSome := by simp [hl]
  refine hx.relog hl hln hrole (hs.chain_of_isPrefix hlead hpre)
    (Sound.term_le_of_isPrefix hs hlead hpre) ?_ ?_ ?_
  · intro T m ha
    exact Or.imp_left (fun hk => hk.trans (List.prefix_append _ _)) (hx.ack_kept ha)
  · intro hst
    have := hx.commit_le hst
    simp
    omega
  · intro hst
    refine (hx.settled hst).of_take le_rfl ?_
    rw [List.take_append_of_le_length (hx.commit_le hst)]

lemma NodeOk.install (hs : h.Sound R) {p : List E}
    (hp : p <+: h.tlog x.term) (hset : R.strict → h.Settled x.term p p.length)
    (hkeep : p <+: x.log → x.log.length ≤ p.length) :
    NodeOk R h n { x with log := p, commit := p.length } := by
  have hlead : (h.leader x.term).isSome := by simp [hl]
  refine hx.relog hl hln hrole (hs.chain_of_isPrefix hlead hp)
    (Sound.term_le_of_isPrefix hs hlead hp) ?_ (fun _ => le_rfl) hset
  intro T m ha
  rcases hx.ack_kept ha with hk | hk
  · -- an acknowledged prefix of the leader's log is not longer than the snapshot
    by_cases hin : (h.tlog T).take m <+: h.tlog x.term
    · have hle : ((h.tlog T).take m).length ≤ p.length := by
        by_contra hlt
        have hpk : p <+: (h.tlog T).take m := List.prefix_of_prefix_length_le hp hin (by omega)
        have := hkeep (hpk.trans hk)
        have := hk.length_le
        omega
      exact .inl (List.prefix_of_prefix_length_le hin hp hle)
    · exact Sound.kept_of_contradiction hs (hx.ack_le ha) hlead hin
  · exact .inr hk

end

end NodeSteps

/-! ### Steps of the system -/

variable [DecidableEq N]

section

variable {σ : State N E} (hi : Inv R σ) (hx : NodeOk R σ.hist n x)
include hi hx

lemma Inv.campaign {U : ℕ} (hU : x.term < U) :
    Next R n σ (σ.update n { x with term := U, vote := some n, role := .candidate }
      ((σ.hist.addCamp n U x.log).addVote n U n x.log)) := by
  have hcamp : σ.hist.camp n U = none := by
    by_contra hc
    obtain ⟨L, hL⟩ := ne_none_iff_exists'.mp hc
    have := hx.camp_le hL
    omega
  have hvlog : σ.hist.vlog n U = none := by
    by_contra hv
    obtain ⟨⟨c, L⟩, hL⟩ := ne_none_iff_exists'.mp hv
    have := (hx.vote_le hL).1
    omega
  have hle1 : Le σ.hist (σ.hist.addCamp n U x.log) := le_addCamp hcamp
  have hs1 : (σ.hist.addCamp n U x.log).Sound R :=
    hi.sound.addCamp hcamp hx.chain (fun e he => by have := hx.term_le e he; omega) (by omega)
  have hle2 : Le (σ.hist.addCamp n U x.log)
      ((σ.hist.addCamp n U x.log).addVote n U n x.log) := le_addVote hvlog
  have hs2 : ((σ.hist.addCamp n U x.log).addVote n U n x.log).Sound R :=
    hs1.addVote hvlog (hx.chain.mono hle1) (by simp [addCamp]) (.inr ⟨rfl, le_rfl⟩)
      fun {T m} ha _ => Kept.le (hx.ack_kept ha) hU.le
  have hle := hle1.trans hle2
  refine hi.update hs2 hle ?_ ?_
  · constructor
    case chain => exact hx.chain.mono hle
    case term_le => exact fun e he => (hx.term_le e he).trans hU.le
    case tlog_eq =>
      intro hl
      have := hx.leader_le hl
      simp at this
      omega
    case leading => simp
    case running =>
      intro _
      refine ⟨by simp; omega, by simp [addVote, addCamp], ?_, fun hst => ?_⟩
      · intro hl
        have := hx.leader_le hl
        simp at this
        omega
      · exact ((hx.settled hst).le_term (by simp; omega)).mono hi.sound hle
    case vote_some =>
      intro c hc
      obtain rfl : n = c := by simpa using hc
      exact ⟨x.log, by simp [addVote]⟩
    case vote_le =>
      intro U' c VL hv
      simp only [addVote, addCamp, true_and] at hv
      split_ifs at hv with heq
      · simp only [some.injEq, Prod.mk.injEq] at hv
        simp [heq, hv.1]
      · have := (hx.vote_le hv).1
        exact ⟨by simp; omega, fun h => absurd h heq⟩
    case camp_le =>
      intro U' L hc
      simp only [addVote, addCamp, true_and] at hc
      split_ifs at hc with heq
      · exact heq.le
      · exact (hx.camp_le hc).trans hU.le
    case leader_le => exact fun hl => (hx.leader_le hl).trans hU.le
    case ack_le => exact fun ha => (hx.ack_le ha).trans hU.le
    case ack_kept =>
      intro T m ha
      exact (Kept.le (hx.ack_kept ha) hU.le).mono hle (hi.sound.ack_leader ha)
        (hi.sound.ack_le ha)
    case commit_le => exact hx.commit_le
    case settled => exact fun hst => ((hx.settled hst).le_term hU.le).mono hi.sound hle
  · intro m hm
    exact ⟨by simp [addVote, addCamp, hm], by simp [addVote, addCamp, hm], id, fun _ => rfl, id⟩

lemma Inv.vote {c : N} {L : List E}
    (hv : x.vote = none) (hc : σ.hist.camp c x.term = some L)
    (hup : UpToDate R L x.log) :
    Next R n σ (σ.update n { x with vote := some c, role := .follower }
      (σ.hist.addVote n x.term c x.log)) := by
  have hvlog : σ.hist.vlog n x.term = none := by
    by_contra hne
    obtain ⟨⟨c', L'⟩, hL⟩ := ne_none_iff_exists'.mp hne
    have := (hx.vote_le hL).2 rfl
    simp [hv] at this
  have hle : Le σ.hist (σ.hist.addVote n x.term c x.log) := le_addVote hvlog
  have hs := hi.sound.addVote hvlog hx.chain hc hup fun {T m} ha _ => hx.ack_kept ha
  refine hi.update hs hle ?_ ?_
  · refine { hx.stepDown with
      chain := hx.chain.mono hle, leading := by simp, running := by simp
      vote_some := ?_, vote_le := ?_
      ack_kept := fun ha => hx.kept hi.sound hle ha
      settled := fun hst => (hx.settled hst).mono hi.sound hle }
    · intro c' hc'
      obtain rfl : c = c' := by simpa using hc'
      exact ⟨x.log, by simp [addVote]⟩
    · intro U' c' VL hv'
      simp only [addVote, true_and] at hv'
      split_ifs at hv' with heq
      · simp only [some.injEq, Prod.mk.injEq] at hv'
        simp [heq, hv'.1]
      · exact ⟨(hx.vote_le hv').1, fun h => absurd h heq⟩
  · intro m hm
    exact ⟨by simp [addVote, hm], rfl, id, fun _ => rfl, id⟩

lemma Inv.win (hsafe : Safe R) {S : Set N}
    (hrole : x.role = .candidate)
    (hq : R.quorum x.log x.commit S)
    (hS : ∀ v ∈ S, ∃ VL, σ.hist.vlog v x.term = some (n, VL)) :
    Next R n σ (σ.update n { x with role := .leader }
      (σ.hist.addLeader x.term n x.log x.commit S)) := by
  obtain ⟨hpos, hcamp, hnl, hset⟩ := hx.running hrole
  have hb : σ.hist.Ballot R x.term n x.log x.commit S :=
    ⟨hpos, hcamp, hq, hS, hset⟩
  have hnew : σ.hist.leader x.term = none := by
    by_contra hne
    obtain ⟨c, hc⟩ := ne_none_iff_exists'.mp hne
    obtain rfl := hsafe.unique hi.sound hb hc
    exact hnl hc
  have hle : Le σ.hist
      (σ.hist.addLeader x.term n x.log x.commit S) :=
    le_addLeader hnew
  have hs := hi.sound.addLeader hnew hb
  have hlead : ∀ {U m}, (σ.hist.addLeader x.term n x.log x.commit
      S).leader U = some m → (U = x.term ∧ m = n) ∨ σ.hist.leader U = some m := by
    intro U m hl
    simp only [addLeader] at hl
    split_ifs at hl with heq
    · exact .inl ⟨heq, (some.inj hl).symm⟩
    · exact .inr hl
  refine hi.update hs hle ?_ ?_
  · refine { hx.stepDown with
      chain := hx.chain.mono hle, tlog_eq := by simp [addLeader], leading := by simp [addLeader]
      running := by simp, leader_le := ?_
      ack_kept := fun ha => hx.kept hi.sound hle ha
      settled := fun hst => (hx.settled hst).mono hi.sound hle }
    intro U hl
    rcases hlead hl with ⟨rfl, -⟩ | hl
    · exact le_rfl
    · exact hx.leader_le hl
  · intro m hm
    refine ⟨rfl, rfl, fun {U} hl => ?_, fun {T} hl => ?_, id⟩
    · rcases hlead hl with ⟨-, rfl⟩ | hl
      · exact absurd rfl hm
      · exact hl
    · have hT : T ≠ x.term := by
        rintro rfl
        simp [hnew] at hl
      simp [addLeader, hT]

lemma Inv.append {e : E}
    (hl : σ.hist.leader x.term = some n) (he : R.term e = x.term)
    (ha : R.allowed σ.hist.commits x.term x.log e) :
    Next R n σ (σ.update n { x with log := x.log ++ [e] }
      (σ.hist.addEntry x.term e)) := by
  have hlog := hx.tlog_eq hl
  have hlead : (σ.hist.leader x.term).isSome := by simp [hl]
  have hle : Le σ.hist (σ.hist.addEntry x.term e) := le_addEntry
  have hs := hi.sound.addEntry hlead he (by rwa [← hlog])
  have hself : (σ.hist.addEntry x.term e).tlog x.term =
      x.log ++ [e] := by simp [addEntry, ← hlog]
  refine hi.update hs hle ?_ ?_
  · refine { hx with
      chain := ?_, tlog_eq := fun _ => hself.symm
      term_le := List.forall_mem_append.mpr ⟨hx.term_le, List.forall_mem_singleton.mpr he.le⟩
      running := fun hr => absurd hl (hx.running hr).2.2.1
      ack_kept := ?_, commit_le := ?_, settled := ?_ }
    · have := hs.chain (t := x.term) hlead
      rwa [hself] at this
    · intro T m hack
      rcases hx.kept hi.sound hle hack with hk | hk
      · exact .inl (hk.trans (List.prefix_append _ _))
      · exact .inr hk
    · intro hst
      have := hx.commit_le hst
      simp
      omega
    · intro hst
      refine ((hx.settled hst).of_take le_rfl ?_).mono hi.sound hle
      rw [List.take_append_of_le_length (hx.commit_le hst)]
  · intro m hm
    refine ⟨rfl, rfl, id, fun {T} hl' => ?_, id⟩
    have hT : T ≠ x.term := by
      rintro rfl
      rw [hl] at hl'
      exact hm (some.inj hl').symm
    simp [addEntry, hT]

lemma Inv.ack {m : ℕ}
    (hl : (σ.hist.leader x.term).isSome) (hm : m ≤ (σ.hist.tlog x.term).length)
    (hpre : (σ.hist.tlog x.term).take m <+: x.log) :
    Next R n σ (σ.update n x (σ.hist.addAck n x.term m)) := by
  have hle : Le σ.hist (σ.hist.addAck n x.term m) := le_addAck
  have hs := hi.sound.addAck (v := n) hl hm fun {U x} hv => (hx.vote_le hv).1
  refine hi.update hs hle ?_ ?_
  · have hacks : ∀ {T k}, (n, T, k) ∈ (σ.hist.addAck n x.term m).acks →
        (T = x.term ∧ k ≤ m) ∨ (n, T, k) ∈ σ.hist.acks := by
      rintro T k (ha | ⟨-, ha⟩)
      · exact .inr ha
      · exact .inl ha
    refine { hx with
      running := ?_, ack_le := ?_, ack_kept := ?_, settled := ?_ }
    · intro hr
      obtain ⟨h1, h2, h3, h4⟩ := hx.running hr
      exact ⟨h1, h2, h3, fun hst => (h4 hst).mono hi.sound hle⟩
    · intro T k ha
      rcases hacks ha with ⟨rfl, -⟩ | ha
      · exact le_rfl
      · exact hx.ack_le ha
    · intro T k ha
      rcases hacks ha with ⟨rfl, hk⟩ | ha
      · exact .inl ((List.take_prefix_take_left hk).trans hpre)
      · exact hx.kept hi.sound hle ha
    · exact fun hst => (hx.settled hst).mono hi.sound hle
  · intro v hv
    refine ⟨rfl, rfl, id, fun _ => rfl, ?_⟩
    rintro T k (ha | ha)
    · exact ha
    · exact absurd ha.1 hv

lemma Inv.commit {k : ℕ} {S : Set N}
    (hl : σ.hist.leader x.term = some n) (hpos : 1 ≤ k)
    (hk : k ≤ x.log.length)
    (hterm : ∀ hk : k - 1 < x.log.length,
      R.term x.log[k - 1] = x.term)
    (hq : R.quorum x.log x.commit S)
    (hacks : ∀ q ∈ S, (q, x.term, k) ∈ σ.hist.acks) :
    Next R n σ (σ.update n { x with commit := k }
      (σ.hist.addCommit ⟨k, x.term, x.log.length, x.commit, S⟩)) := by
  have hlog := hx.tlog_eq hl
  have hlead : (σ.hist.leader x.term).isSome := by simp [hl]
  set r : Commit N := ⟨k, x.term, x.log.length, x.commit, S⟩ with hr
  have hle : Le σ.hist (σ.hist.addCommit r) := le_addCommit
  have htake : (σ.hist.tlog r.term).take r.length = x.log := by
    simp [hr, ← hlog]
  have hs := hi.sound.addCommit (r := r) hlead hpos hk (by simp [hr, ← hlog])
    (by simp only [hr, ← hlog]; exact hterm) (by rw [htake]; exact hq)
    (fun hst => by rw [htake]; exact hx.settled hst) hacks
  refine hi.update hs hle ?_ ?_
  · refine { hx with
      running := fun hr => absurd hl (hx.running hr).2.2.1
      ack_kept := fun ha => hx.kept hi.sound hle ha
      commit_le := fun _ => hk, settled := fun _ => .inr ⟨r, .inl rfl, le_rfl, le_rfl, ?_⟩ }
    change x.log.take k <+: σ.hist.tlog x.term
    rw [← hlog]
    exact List.take_prefix _ _
  · intro m _
    exact ⟨rfl, rfl, id, fun _ => rfl, id⟩

end

lemma Inv.clone {σ : State N E} (hi : Inv R σ) {m : N} (hn : Fresh σ.hist n) :
    Next R n σ (σ.update n { σ.nodes m with role := .follower }
      (match (σ.nodes m).vote, σ.hist.vlog m (σ.nodes m).term with
        | some _, some (c, VL) => σ.hist.addVote n (σ.nodes m).term c VL
        | _, _ => σ.hist)) := by
  have hx := hi.node m
  have hfresh : ∀ {h'}, Le σ.hist h' → (∀ {U}, h'.camp n U = none) → (∀ {U}, h'.leader U ≠ some n) →
      (∀ {T k}, (n, T, k) ∉ h'.acks) →
      (∀ {c}, (σ.nodes m).vote = some c → ∃ VL, h'.vlog n (σ.nodes m).term = some (c, VL)) →
      (∀ {U c VL}, h'.vlog n U = some (c, VL) →
        U = (σ.nodes m).term ∧ (σ.nodes m).vote = some c) →
      NodeOk R h' n { σ.nodes m with role := .follower } := by
    intro h' hle hcamp hlead hacks hvs hvl
    constructor
    case chain => exact hx.chain.mono hle
    case term_le => exact hx.term_le
    case tlog_eq => exact fun hl => absurd hl hlead
    case leading => simp
    case running => simp
    case vote_some => exact hvs
    case vote_le => exact fun hv => ⟨(hvl hv).1.le, fun _ => (hvl hv).2⟩
    case camp_le => exact fun hc => by simp [hcamp] at hc
    case leader_le => exact fun hl => absurd hl hlead
    case ack_le => exact fun ha => absurd ha hacks
    case ack_kept => exact fun ha => absurd ha hacks
    case commit_le => exact hx.commit_le
    case settled => exact fun hst => (hx.settled hst).mono hi.sound hle
  cases hv : (σ.nodes m).vote with
  | none =>
    refine hi.update hi.sound (Le.refl _) ?_ fun k _ => Untouched.refl _ _
    refine hfresh (Le.refl _) (fun {U} => hn.camp U) (fun {U} => hn.leader U)
      (fun {T k} => hn.acks T k) ?_ ?_
    · intro c hc
      simp [hv] at hc
    · intro U c VL hv'
      simp [hn.vlog U] at hv'
  | some c =>
    obtain ⟨VL, hVL⟩ := hx.vote_some hv
    simp only [hVL]
    obtain ⟨L, hc, hup⟩ := hi.sound.vote_upToDate hVL
    have hle := le_addVote (c := c) (L := VL) (hn.vlog (σ.nodes m).term)
    refine hi.update (hi.sound.addVote (hn.vlog _) (hi.sound.vote_chain hVL) hc hup
      fun {T k} ha _ => absurd ha (hn.acks T k)) hle ?_ ?_
    · refine hfresh hle (fun {U} => hn.camp U) (fun {U} => hn.leader U)
        (fun {T k} => hn.acks T k) ?_ ?_
      · intro c' hc'
        obtain rfl : c = c' := by simpa [hv] using hc'
        exact ⟨VL, by simp [addVote]⟩
      · intro U c' VL' hv'
        simp only [addVote, true_and] at hv'
        split_ifs at hv' with heq
        · simp only [some.injEq, Prod.mk.injEq] at hv'
          exact ⟨heq, by rw [hv, hv'.1]⟩
        · simp [hn.vlog U] at hv'
    · intro k hk
      exact ⟨by simp [addVote, hk], rfl, id, fun _ => rfl, id⟩

/-- Every step of a safe instance keeps the invariant. -/
theorem Step.next (hsafe : Safe R) {σ σ' : State N E} (hstep : Step R n σ σ') (hi : Inv R σ) :
    Next R n σ σ' := by
  have hcomp : σ.hist.Complete := hsafe.complete hi.sound
  cases hstep with
  | adopt hx t ht =>
    subst hx
    exact hi.update hi.sound (Le.refl _) ((hi.node n).adopt ht) fun _ _ => Untouched.refl _ _
  | campaign hx U hU =>
    subst hx
    exact hi.campaign (hi.node n) hU
  | vote hx c L hv hc hup =>
    subst hx
    exact hi.vote (hi.node n) hv hc hup
  | stepDown hx =>
    subst hx
    exact hi.update hi.sound (Le.refl _) (hi.node n).stepDown fun _ _ => Untouched.refl _ _
  | win hx S hrole hq hS =>
    subst hx
    exact hi.win (hi.node n) hsafe hrole hq hS
  | append hx e hl he ha =>
    subst hx
    exact hi.append (hi.node n) hl he ha
  | truncate hx l k hl hln hrole hk hk' hne =>
    subst hx
    exact hi.update hi.sound (Le.refl _)
      ((hi.node n).truncate hl hln hrole hi.sound hcomp hk hk' hne) fun _ _ => Untouched.refl _ _
  | push hx l e hl hln hrole hpre =>
    subst hx
    exact hi.update hi.sound (Le.refl _) ((hi.node n).push hl hln hrole hi.sound hpre)
      fun _ _ => Untouched.refl _ _
  | ack hx m hl hm hpre =>
    subst hx
    exact hi.ack (hi.node n) hl hm hpre
  | commit hx k S hl hpos hk hterm hq hacks =>
    subst hx
    exact hi.commit (hi.node n) hl hpos hk hterm hq hacks
  | follow hx k hrole hk =>
    subst hx
    refine hi.update hi.sound (Le.refl _) ?_ fun _ _ => Untouched.refl _ _
    exact { hi.node n with
      running := fun hr => by simp [hrole] at hr
      commit_le := fun hst => (hk hst).1
      settled := fun hst => (hk hst).2 }
  | install hx l p hl hln hrole hp hset hkeep =>
    subst hx
    exact hi.update hi.sound (Le.refl _)
      ((hi.node n).install hl hln hrole hi.sound hp hset hkeep) fun _ _ => Untouched.refl _ _
  | clone m hn => exact hi.clone hn

/-! ### Runs -/

/-- Any number of steps of node `n`. -/
def Steps (R : Rules N E) (n : N) : State N E → State N E → Prop :=
  Relation.ReflTransGen (Step R n)

lemma Steps.next (hsafe : Safe R) {σ σ' : State N E} (h : Steps R n σ σ') (hi : Inv R σ) :
    Next R n σ σ' := by
  induction h with
  | refl => exact ⟨hi, Le.refl _, fun _ => rfl⟩
  | tail _ hstep ih => exact ih.trans (hstep.next hsafe ih.inv)

/-- The states of the runs of the protocol. -/
def Reachable (R : Rules N E) : State N E → Prop :=
  Relation.ReflTransGen (fun σ σ' => ∃ n, Step R n σ σ') .init

lemma Reachable.inv (hsafe : Safe R) {σ : State N E} (h : Reachable R σ) : Inv R σ := by
  induction h with
  | refl => exact inv_init
  | tail _ hstep ih =>
    obtain ⟨n, hstep⟩ := hstep
    exact (hstep.next hsafe ih).inv

lemma Reachable.steps {σ σ' : State N E} (h : Reachable R σ) (hs : Steps R n σ σ') :
    Reachable R σ' := by
  induction hs with
  | refl => exact h
  | tail _ hstep ih => exact ih.tail ⟨n, hstep⟩

end Replog
