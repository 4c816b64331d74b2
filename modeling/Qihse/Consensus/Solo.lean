import Qihse.Consensus.Idle
import Qihse.Consensus.Order
import Qihse.Consensus.Votes

/-!
# One vote per term

One node and whatever the world sends it: ticks, messages with any fields, crashes and restarts from
any record file. The vote lines that the node appends never contradict each other, it grants only
what it has recorded, and its term and its fencing epoch never fall.

Two things can break this. At the last 64-bit term the next one wraps to zero, so that an election
takes place in the same term and records a second vote. And an append that fails after its line has
reached the file leaves the line of a vote behind that the node has withdrawn.
-/

namespace Qihse.Consensus

open Crash Crash.Prog Replay List Proc Line Option

/-! ### Terms and epochs in the file -/

namespace Replay

variable {cfg : Config} {st st' : Replay} {k : ℕ} {ls : List Line} {r : Record}

/-- A line that is not of the identity of the file is a vote or leaves term and epoch alone. -/
lemma Replayed.fence (h : Replayed st k r st') : st'.historyChecked = st.historyChecked ∧
    ((∃ t v e, r = .vote t v e ∧ st.term ≤ t ∧ st.epoch ≤ e ∧ st'.term = t ∧ st'.epoch = e) ∨
      fenceOf (.record r) = none ∧ st'.term = st.term ∧ st'.epoch = st.epoch) := by
  cases h with
  | vote t v e hp ht he hst => exact ⟨rfl, .inl ⟨t, v, e, rfl, ht, hst, rfl, rfl⟩⟩
  | push _ e _ hp hr h =>
    obtain rfl := push_eq h
    exact ⟨rfl, .inr ⟨fenceOf_of_announces (announces_of_entryOf hr), rfl, rfl⟩⟩
  | pendPush _ e p _ hp hr h =>
    obtain rfl := pendPush_eq h
    exact ⟨rfl, .inr ⟨fenceOf_of_announces (announces_of_entryOf hr), rfl, rfl⟩⟩
  | openSnapshot | commit => exact ⟨rfl, .inr ⟨rfl, rfl, rfl⟩⟩
  | swapIn start p _ hp h =>
    obtain ⟨t, g, rfl⟩ := swapIn_eq h
    exact ⟨rfl, .inr ⟨rfl, rfl, rfl⟩⟩
  | cut start _ hp h =>
    obtain ⟨log, next, t, g, -, rfl⟩ := cut_eq h
    exact ⟨rfl, .inr ⟨rfl, rfl, rfl⟩⟩

/-- The replay of `ls` ends with the largest term and epoch that its lines announce. -/
structure Fenced (ls : List Line) (st : Replay) : Prop where
  le : ∀ x ∈ fences ls, x.1 ≤ st.term ∧ x.2 ≤ st.epoch
  top : (st.term, st.epoch) = (0, 0) ∨ (st.term, st.epoch) ∈ fences ls
  early : st.historyChecked = false → st.historyHave = false → fences ls = []

lemma Fenced.of_fences {ls' : List Line} (hst : Fenced ls st) (h : fences ls' = fences ls) :
    Fenced ls' st := by
  refine ⟨?_, ?_, ?_⟩ <;> rw [h]
  exacts [hst.le, hst.top, hst.early]

lemma fences_snoc (h : fenceOf (.record r) = none) : fences (ls ++ [record r]) = fences ls := by
  simp [fences, h]

lemma Fenced.replayed (hst : Fenced ls st) (h : Replayed st.checked k r st') :
    Fenced (ls ++ [record r]) st' := by
  obtain ⟨hchecked, ⟨t, v, e, rfl, ht, he, rfl, rfl⟩ | ⟨hnone, ht, he⟩⟩ := h.fence
  · have hfences : fences (ls ++ [record (.vote st'.term v st'.epoch)]) =
        fences ls ++ [(st'.term, st'.epoch)] := by simp [fences, fenceOf]
    refine ⟨?_, .inr (by simp [hfences]), fun hno => absurd hno (by simp [hchecked, checked])⟩
    rw [hfences]
    exact forall_mem_append.mpr ⟨fun x hx => ⟨(hst.le x hx).1.trans ht, (hst.le x hx).2.trans he⟩,
      forall_mem_singleton.mpr ⟨le_rfl, le_rfl⟩⟩
  · refine ⟨?_, ?_, fun hno => absurd hno (by simp [hchecked, checked])⟩
    · rw [fences_snoc hnone, ht, he]
      exact hst.le
    · rw [fences_snoc hnone, ht, he]
      exact hst.top

lemma Fenced.step (hst : Fenced ls st) (h : st.step cfg k r = some st') :
    Fenced (ls ++ [record r]) st' := by
  cases r with
  | header _ _ | baseline _ =>
    simp only [Replay.step] at h
    split_ifs at h
    cases h
    suffices hsame : Fenced _ st from { hsame with }
    exact hst.of_fences (fences_snoc rfl)
  | history i e =>
    simp only [Replay.step] at h
    split_ifs at h with h1 h2 h3
    cases h
    simp only [not_or, Bool.not_eq_true] at h2
    -- nothing was announced before the history line
    have hnone := hst.early h2.2.1 h2.1
    have hzero : st.term = 0 := by
      rcases hst.top with htop | htop
      · exact congrArg Prod.fst htop
      · rw [hnone] at htop
        exact absurd htop (by simp)
    have hfences : fences (ls ++ [record (.history i e)]) = [(0, e)] := by
      rw [fences_append, hnone]
      rfl
    refine ⟨fun x hx => ?_, .inr ?_, fun _ hhave => absurd hhave (by simp)⟩
    · rw [hfences, mem_singleton] at hx
      subst hx
      exact ⟨Nat.zero_le _, le_rfl⟩
    · rw [hfences, hzero]
      exact mem_singleton_self _
  | _ =>
    simp only [step] at h
    split_ifs at h
    exact hst.replayed (replayed_of_stepBody h)

lemma fenced_of_fold (h : fold cfg start 0 ls = some st) : Fenced ls st := by
  induction ls using List.reverseRecOn generalizing st with
  | nil =>
    cases h
    exact ⟨by simp [fences], .inl rfl, fun _ _ => rfl⟩
  | append_singleton ls l ih =>
    cases l with
    | torn => simp [fold_torn] at h
    | record =>
      obtain ⟨st1, hst1, hst⟩ := fold_snoc h
      exact (ih hst1).step hst

lemma fenced_of_load (h : start.steps cfg 0 ls = some st) : Fenced ls st := by
  obtain ⟨ls0, rfl | ⟨rfl, -⟩, hf⟩ := fold_of_load h
  · exact fenced_of_fold hf
  · exact (fenced_of_fold hf).of_fences (by simp [fences, fenceOf])

end Replay

/-- Whoever reads the file adopts at least term `t` and epoch `e`. -/
def Covers (ls : List Line) (t e : ℕ) : Prop :=
  ∃ x, (x = (0, 0) ∨ x ∈ fences ls) ∧ t ≤ x.1 ∧ e ≤ x.2

lemma Covers.le {ls : List Line} {st : Replay} {t e : ℕ} (h : Covers ls t e)
    (hst : Replay.Fenced ls st) : t ≤ st.term ∧ e ≤ st.epoch := by
  obtain ⟨x, rfl | hx, ht, he⟩ := h
  · exact ⟨ht.trans (Nat.zero_le _), he.trans (Nat.zero_le _)⟩
  · exact ⟨ht.trans (hst.le x hx).1, he.trans (hst.le x hx).2⟩

lemma Covers.mono {ls ls' : List Line} {t e : ℕ} (h : Covers ls t e)
    (hsub : ∀ x ∈ fences ls, x ∈ fences ls') : Covers ls' t e := by
  obtain ⟨x, hx, ht, he⟩ := h
  exact ⟨x, hx.imp_right (hsub x), ht, he⟩

/-! ### Votes in the file -/

/-- The vote line `b` may be written after `a`: the term does not fall, and a vote that was cast in
a term stands. -/
def Succeeds (a b : ℕ × Option Uuid) : Prop :=
  a.1 ≤ b.1 ∧ (a.1 = b.1 → a.2 = none ∨ b.2 = a.2)

lemma Succeeds.trans {a b c : ℕ × Option Uuid} (h : Succeeds a b) (h' : Succeeds b c) :
    Succeeds a c := by
  refine ⟨h.1.trans h'.1, fun heq => ?_⟩
  have hab : a.1 = b.1 := le_antisymm h.1 (heq ▸ h'.1)
  have hbc : b.1 = c.1 := hab.symm.trans heq
  rcases h.2 hab with hnone | hba
  · exact .inl hnone
  · rcases h'.2 hbc with hnone | hcb
    · exact .inl (hba ▸ hnone)
    · exact .inr (hcb.trans hba)

/-- The vote lines of a file from the one on that was current when it had `k` of them. -/
def castSince (k : ℕ) (ls : List Line) : List (ℕ × Option Uuid) := (votes ls).drop (k - 1)

/-- The lines since then are consistent, cover a term and an epoch, and back all votes granted. -/
structure Casts (k t e : ℕ) (ls : List Line) (sent : List Msg) : Prop where
  long : k ≤ (votes ls).length
  order : (castSince k ls).Pairwise Succeeds
  covers : Covers ls t e
  granted : ∀ m ∈ sent, m.grants → (m.term, some m.dest) ∈ castSince k ls

/-- The current vote of a node is in its file. -/
structure Node.Balloted (n : Node) (ls : List Line) : Prop where
  now : (n.term, n.votedFor) = (votes ls).getLast?.getD (0, none)
  fenced : n.term ≤ n.epoch
  marked : (n.term, n.epoch) = (0, 0) ∨ (n.term, n.epoch) ∈ fences ls

section

variable {k t e : ℕ} {ls : List Line} {sent : List Msg} {n n' : Node} {p p' : Proc}

lemma castSince_append (hk : k ≤ (votes ls).length) (xs : List Line) :
    castSince k (ls ++ xs) = castSince k ls ++ votes xs := by
  rw [castSince, votes_append, drop_append_of_le_length (by omega), castSince]

lemma Node.Balloted.covers (h : n.Balloted ls) (ht : t ≤ n.term) (he : e ≤ n.epoch) :
    Covers ls t e :=
  ⟨_, h.marked, ht, he⟩

section

variable (h : Casts k t e ls sent)
include h

/-- A line that continues the current vote of the node continues all of them. -/
lemma Casts.succeeds (hn : n.Balloted ls) {b : ℕ × Option Uuid}
    (hb : Succeeds (n.term, n.votedFor) b) : ∀ a ∈ castSince k ls, Succeeds a b := by
  intro a ha
  have hne : castSince k ls ≠ [] := ne_nil_of_mem ha
  obtain ⟨init, last, heq⟩ : ∃ init last, castSince k ls = init ++ [last] :=
    ⟨_, _, (dropLast_append_getLast hne).symm⟩
  have hlast : last = (n.term, n.votedFor) := by
    have hget : (castSince k ls).getLast? = (votes ls).getLast? := by
      unfold castSince at hne ⊢
      rw [getLast?_drop, if_neg fun hle => hne (drop_eq_nil_of_le hle)]
    rw [hn.now, ← hget, heq]
    simp
  have horder := h.order
  rw [heq] at ha horder
  rcases mem_append.mp ha with ha | ha
  · have hal := (pairwise_append.mp horder).2.2 a ha last (by simp)
    rw [hlast] at hal
    exact hal.trans hb
  · rw [mem_singleton.mp ha, hlast]
    exact hb

/-- One more vote line. -/
lemma Casts.snoc (hn : n.Balloted ls) {t' e' : ℕ} {v' : Option Uuid}
    (hs : Succeeds (n.term, n.votedFor) (t', v')) :
    Casts k t e (ls ++ [record (.vote t' v' e')]) sent := by
  have hcast : castSince k (ls ++ [record (.vote t' v' e')]) = castSince k ls ++ [(t', v')] :=
    castSince_append h.long _
  refine ⟨?_, ?_, h.covers.mono (by simp +contextual), fun m hm hg => ?_⟩
  · rw [votes_append, length_append]
    exact h.long.trans (Nat.le_add_right _ _)
  · rw [hcast, pairwise_append]
    exact ⟨h.order, pairwise_singleton _ _, fun a ha =>
      forall_mem_singleton.mpr (h.succeeds hn hs a ha)⟩
  · rw [hcast]
    exact mem_append_left _ (h.granted m hm hg)

/-- The votes of a file are all that its votes depend on. -/
lemma Casts.of_votes {ls' : List Line} (hv : votes ls' = votes ls)
    (hcovers : Covers ls' t e) : Casts k t e ls' sent := by
  have hcast : castSince k ls' = castSince k ls := by rw [castSince, hv, castSince]
  refine ⟨hv ▸ h.long, ?_, hcovers, ?_⟩ <;> rw [hcast]
  exacts [h.order, h.granted]

lemma Casts.torn : Casts k t e (ls ++ [torn]) sent :=
  h.of_votes (by simp [votes, voteOf]) (h.covers.mono (by simp +contextual))

end

lemma Node.Balloted.of_lines {ls' : List Line} (h : n.Balloted ls) (hv : votes ls' = votes ls)
    (hf : fences ls' = fences ls) : n.Balloted ls' :=
  ⟨hv ▸ h.now, h.fenced, hf ▸ h.marked⟩

lemma Node.Balloted.torn (h : n.Balloted ls) : n.Balloted (ls ++ [torn]) :=
  h.of_lines (by simp [votes, voteOf]) (by simp [fences, fenceOf])

lemma Node.Balloted.congr (h : n.Balloted ls) (hterm : n'.term = n.term)
    (hepoch : n'.epoch = n.epoch) (hvote : n'.votedFor = n.votedFor) : n'.Balloted ls := by
  refine ⟨?_, ?_, ?_⟩
  · rw [hterm, hvote]
    exact h.now
  · rw [hterm, hepoch]
    exact h.fenced
  · rw [hterm, hepoch]
    exact h.marked

/-! ### Programs that cast votes -/

/-- A running operation of a node that has voted consistently; no append fails with its line in the
file. -/
structure Proc.Honest (k t e : ℕ) (sent : List Msg) (p : Proc) : Prop where
  clean : Io.fail .whole ∉ p.io
  casts : Casts k t e p.disk (sent ++ p.out)
  node : p.node.Balloted p.disk
  term : t ≤ p.node.term
  epoch : e ≤ p.node.epoch

/-- What a crash leaves behind. -/
def Proc.Buried (k t e : ℕ) (sent : List Msg) (p : Proc) : Prop :=
  Casts k t e p.disk (sent ++ p.out)

lemma Casts.mute (h : Casts k t e p.disk (sent ++ p.out)) (hm : p.Mute p') :
    Casts k t e p'.disk (sent ++ p'.out) := by
  have h' := h.of_votes hm.votes (h.covers.mono (by rw [hm.fences]; exact fun _ => id))
  refine { h' with granted := fun m hmem hg => h'.granted m ?_ hg }
  rcases mem_append.mp hmem with hmem | hmem
  · exact mem_append_left _ hmem
  · have hfilter : m ∈ p.out.filter Msg.grants := by
      rw [← hm.out]
      exact mem_filter.mpr ⟨hmem, hg⟩
    exact mem_append_right _ (mem_filter.mp hfilter).1

lemma Proc.Honest.idle (h : p.Honest k t e sent) (hi : p.Idle p') : p'.Honest k t e sent := by
  have hnode : p'.node.Balloted p.disk :=
    h.node.congr hi.node.term hi.node.epoch hi.node.votedFor
  refine ⟨fun hmem => h.clean (hi.io _ hmem), h.casts.mute hi.toMute,
    hnode.of_lines hi.votes hi.fences, ?_, ?_⟩
  · rw [hi.node.term]
    exact h.term
  · rw [hi.node.epoch]
    exact h.epoch

/-- A program that leaves the votes consistent, also where it crashes. -/
abbrev Upholds (k t e : ℕ) (sent : List Msg) {α : Type} (m : M α) (p : Proc) : Prop :=
  Sat m p (fun _ => Honest k t e sent) (Buried k t e sent)

/-- Programs that cast no vote keep everything. -/
lemma Idles.honest {α : Type} {m : M α} (hm : Idles m) (h : p.Honest k t e sent) :
    Upholds k t e sent m p :=
  (hm p).mono (fun _ _ hi => h.idle hi) fun _ hi => h.casts.mute hi

section

variable (h : p.Honest k t e sent)
include h

/-- The fields that a vote depends on may be carried over to another record of the node. -/
lemma Proc.Honest.setNode {m : Node} (hterm : m.term = p.node.term)
    (hepoch : m.epoch = p.node.epoch) (hvote : m.votedFor = p.node.votedFor) :
    Honest k t e sent { p with node := m } :=
  ⟨h.clean, h.casts, h.node.congr hterm hepoch hvote, by simpa [hterm] using h.term,
    by simpa [hepoch] using h.epoch⟩

/-- Appending a vote line. While the append runs, the node `m` in memory is already the new one. -/
lemma sat_recordVote {m : Node} {t' e' : ℕ} {v' : Option Uuid}
    (hs : Succeeds (p.node.term, p.node.votedFor) (t', v')) (hle : t' ≤ e')
    (hepoch : p.node.epoch ≤ e') :
    Sat (recordAppend (.vote t' v' e')) { p with node := m }
      (fun b p' => p'.node = m ∧
        (b = true → ∀ n' : Node, n'.term = t' → n'.epoch = e' → n'.votedFor = v' →
          Honest k t e sent { p' with node := n' }) ∧
        (b = false → ∀ n' : Node, n'.term = p.node.term → n'.epoch = p.node.epoch →
          n'.votedFor = p.node.votedFor → Honest k t e sent { p' with node := n' }))
      (Buried k t e sent) := by
  have htail : Io.fail .whole ∉ p.io.tail := fun hmem => h.clean (mem_of_mem_tail hmem)
  have hnew : ∀ (io : List Io) (failed : Bool) (n' : Node), Io.fail .whole ∉ io → n'.term = t' →
      n'.epoch = e' → n'.votedFor = v' → Honest k t e sent
        ⟨n', p.disk ++ [record (.vote t' v' e')], p.out, io, failed⟩ := by
    rintro io failed n' hio rfl rfl rfl
    refine ⟨hio, h.casts.snoc h.node hs, ⟨?_, hle, .inr ?_⟩, h.term.trans hs.1,
      h.epoch.trans hepoch⟩
    · simp [votes, voteOf]
    · simp [fences, fenceOf]
  have hold : ∀ (io : List Io) (failed : Bool) (n' : Node), Io.fail .whole ∉ io →
      n'.term = p.node.term → n'.epoch = p.node.epoch → n'.votedFor = p.node.votedFor →
        Honest k t e sent ⟨n', p.disk, p.out, io, failed⟩ ∧
        Honest k t e sent ⟨n', p.disk ++ [torn], p.out, io, failed⟩ := by
    intro io failed n' hio ht' he' hv'
    have hn' := h.node.congr ht' he' hv'
    have hlow : t ≤ n'.term ∧ e ≤ n'.epoch := ⟨ht' ▸ h.term, he' ▸ h.epoch⟩
    exact ⟨⟨hio, h.casts, hn', hlow.1, hlow.2⟩, ⟨hio, h.casts.torn, hn'.torn, hlow.1, hlow.2⟩⟩
  refine sat_recordAppend_cases (fun _ => ⟨rfl, by rintro ⟨⟩, fun _ n' h1 h2 h3 => ?_⟩)
    (fun _ _ _ _ => ⟨rfl, fun _ n' h1 h2 h3 => hnew _ _ n' htail h1 h2 h3, by rintro ⟨⟩⟩)
    (fun _ _ => ⟨rfl, by rintro ⟨⟩, fun _ n' h1 h2 h3 => (hold _ _ n' htail h1 h2 h3).1⟩)
    (fun l hl _ _ => ⟨rfl, by rintro ⟨⟩, fun _ n' h1 h2 h3 => ?_⟩) fun l _ => ?_
  · exact (hold p.io p.failed n' h.clean h1 h2 h3).1
  · cases l with
    | nothing => exact (hold _ _ n' htail h1 h2 h3).1
    | torn => exact (hold _ _ n' htail h1 h2 h3).2
    | whole => exact absurd (fail_mem_io hl) h.clean
  · change Casts k t e (landed p.disk _ l) (sent ++ p.out)
    rcases landed_cases p.disk (.vote t' v' e') l with hl | ⟨-, hl | hl⟩ <;> rw [hl]
    · exact h.casts
    · exact h.casts.torn
    · exact h.casts.snoc h.node hs

/-- A term that is adopted clears the vote, and an epoch leaves it alone. -/
lemma sat_syncTermEpoch_honest {term epoch : ℕ} {reset : Bool}
    (hreset : reset = true → term ≠ p.node.term) :
    Sat (syncTermEpoch term epoch reset) p
      (fun b p' => p'.Honest k t e sent ∧ (b = true →
        (p.node.term < term ∧ p'.node.role = .follower ∧ p'.node.votedFor = none ∧
          p'.node.cfg = p.node.cfg) ∨
        (term ≤ p.node.term ∧ ∃ e', p'.node = { p.node with epoch := e' })))
      (Buried k t e sent) := by
  simp only [syncTermEpoch, sat_bind, sat_ite, sat_pure, sat_modifyNode]
  refine ⟨fun hlt => ⟨h, fun _ => .inr ⟨hlt.le, _, rfl⟩⟩, fun hge => ⟨fun heq => ⟨h, fun _ =>
    .inr ⟨by omega, _, rfl⟩⟩, fun hne => ?_⟩⟩
  -- within a term the vote stays
  have hkept : p.node.term = max term p.node.term →
      (if reset = true ∨ p.node.term < max term p.node.term then none else p.node.votedFor) =
        p.node.votedFor := by
    intro hterm
    refine if_neg ?_
    rintro (hr | hlt)
    · exact hreset hr (by omega)
    · omega
  have hs : Succeeds (p.node.term, p.node.votedFor) (max term p.node.term,
      if reset = true ∨ p.node.term < max term p.node.term then none else p.node.votedFor) :=
    ⟨le_max_right _ _, fun hterm => .inr (hkept hterm)⟩
  refine (sat_recordVote h hs (by omega) (by omega)).imp ?_
  rintro b ⟨_, _, _, _, _⟩ ⟨hn, hok, hfail⟩
  subst hn
  refine ⟨fun hb => ⟨fun hlt => ⟨hok hb _ rfl rfl rfl, fun _ =>
      .inl ⟨by omega, rfl, if_pos (.inr hlt), rfl⟩⟩,
    fun hlt => ⟨hok hb _ rfl rfl rfl, fun _ => .inr ⟨by omega,
      max (max p.node.epoch epoch) (max term p.node.term), ?_⟩⟩⟩,
    fun hb => ⟨hfail (by simpa using hb) _ rfl rfl rfl, by rintro ⟨⟩⟩⟩
  have hterm : p.node.term = max term p.node.term := by omega
  rw [hkept hterm, Node.setTermEpoch, ← hterm]

/-- A vote that does not contradict the current one. -/
lemma sat_persistVoteFor_honest {u : Uuid}
    (hv : p.node.votedFor = none ∨ p.node.votedFor = some u) : Sat (persistVoteFor u) p
      (fun b p' => p'.Honest k t e sent ∧ (b = true → p'.node.votedFor = some u))
      (Buried k t e sent) := by
  simp only [persistVoteFor, sat_bind, sat_modifyNode, sat_ite, sat_pure]
  have hs : Succeeds (p.node.term, p.node.votedFor) (p.node.term, some u) :=
    ⟨le_rfl, fun _ => hv.imp_right Eq.symm⟩
  refine (sat_recordVote h hs h.node.fenced le_rfl).imp ?_
  rintro b q ⟨hn, hok, hfail⟩
  refine ⟨fun hb => ⟨hok hb q.node ?_ ?_ ?_, fun _ => ?_⟩,
    fun hb => ⟨hfail (by simpa using hb) _ ?_ ?_ rfl, by rintro ⟨⟩⟩⟩
  all_goals
    rw [hn]
    rfl

end

/-- An election in this state does not take place in a term in which the node has voted for another:
the next term is a new one, or there is no such vote. -/
def Node.campaignOk (n : Node) : Bool := n.term + 1 < 2 ^ 64 || n.votedFor.all (· = n.cfg.self)

section

variable (h : p.Honest k t e sent)
include h

lemma sat_startElection_honest (hok : p.node.selfIsLearner = false → p.node.campaignOk) :
    Upholds k t e sent startElection p := by
  have htimer : ∀ {q : Proc}, q.Honest k t e sent →
      Upholds k t e sent (modifyNode Node.resetTimer) q := fun hq => hq.setNode rfl rfl rfl
  simp only [startElection, sat_bind, sat_getNode]
  cases p.node.selfIndex with
  | none => exact h
  | some self =>
    simp only [sat_ite, sat_pure, sat_bind, sat_getNode]
    have hnext : u64 (p.node.term + 1) ≠ p.node.term := by
      unfold u64
      omega
    refine ⟨fun _ => h, fun hlearner => (sat_syncTermEpoch_honest h fun _ => hnext).imp ?_⟩
    rintro b q ⟨hq, hsync⟩
    refine ⟨fun hb => ⟨fun _ => (idles_requestVotes self).honest hq, fun hne => ?_⟩,
      fun _ => htimer hq⟩
    have hnone : q.node.votedFor = none := by
      rcases hsync hb with ⟨-, -, hnone, -⟩ | ⟨hle, e', heq⟩
      · exact hnone
      · -- the next term has wrapped: the old vote still stands
        have hok := hok (by simpa using hlearner)
        simp only [Node.campaignOk, Bool.or_eq_true, decide_eq_true_eq] at hok
        rcases hok with hlt | hself
        · rw [u64, Nat.mod_eq_of_lt hlt] at hle
          omega
        · have hvote : q.node.votedFor = p.node.votedFor := by rw [heq]
          have hcfg : q.node.cfg = p.node.cfg := by rw [heq]
          rw [hvote, hcfg] at hne
          rw [hvote]
          cases hv : p.node.votedFor with
          | none => rfl
          | some =>
            rw [hv, all_some, decide_eq_true_eq] at hself
            exact absurd (hv.trans (by rw [hself])) hne
    refine (sat_persistVoteFor_honest hq (.inl hnone)).imp ?_
    rintro b q' ⟨hq', -⟩
    exact ⟨fun _ => (idles_requestVotes self).honest hq', fun _ => htimer hq'⟩

lemma sat_startPrevote_honest
    (hok : p.node.selfIsLearner = false → p.node.members.length = 1 → p.node.campaignOk) :
    Upholds k t e sent startPrevote p := by
  simp only [startPrevote, sat_read]
  cases p.node.selfIndex with
  | none => exact h
  | some self =>
    simp only [sat_ite, sat_pure, sat_bind, sat_modifyNode]
    have hrun := h.setNode (m := p.node.runFor .preCandidate self) rfl rfl rfl
    refine ⟨fun _ => h, fun hlearner => ⟨fun hlen => ?_, fun _ => ?_⟩⟩
    · exact sat_startElection_honest hrun fun _ => hok (by simpa using hlearner) hlen
    · refine Idles.honest (.forEach fun peer => .bind .getNode fun cs q => ?_) hrun
      exact ⟨⟨rfl, rfl, by simp [Msg.grants], fun _ => id⟩, .refl _⟩

/-- A vote is granted only to the candidate that the file names. -/
lemma sat_confirmVote_honest {sender : Uuid} (hv : p.node.votedFor = some sender) :
    Upholds k t e sent (confirmVote sender) p := by
  have hlast : (p.node.term, some sender) ∈ castSince k p.disk := by
    have hnow := h.node.now
    rw [hv] at hnow
    cases hl : (votes p.disk).getLast? with
    | none =>
      rw [hl] at hnow
      exact absurd (congrArg Prod.snd hnow) nofun
    | some =>
      rw [hl, getD_some] at hnow
      have hlen : k - 1 < (votes p.disk).length := by
        have hpos : 0 < (votes p.disk).length :=
          length_pos_of_mem (mem_of_getLast? hl)
        have hlong := h.casts.long
        omega
      rw [hnow]
      refine mem_of_getLast? (l := castSince k p.disk) ?_
      rw [castSince, getLast?_drop, if_neg (not_le.mpr hlen), hl]
  refine ⟨h.clean, ⟨h.casts.long, h.casts.order, h.casts.covers, ?_⟩,
    h.node.congr rfl rfl rfl, h.term, h.epoch⟩
  rw [← append_assoc]
  exact forall_mem_append.mpr ⟨h.casts.granted, forall_mem_singleton.mpr fun _ => hlast⟩

lemma sat_handleRequestVote_honest {sender : Uuid} {lastLogIndex lastLogTerm : ℕ} :
    Upholds k t e sent (handleRequestVote sender lastLogIndex lastLogTerm) p := by
  have hrefuse : Idles (send sender (.voteReply false)) := .send (by simp)
  simp only [handleRequestVote, sat_bind, sat_ite, sat_pure]
  refine ⟨fun _ => h, fun _ => ⟨fun _ => hrefuse.honest h, fun _ =>
    ⟨fun hv => sat_confirmVote_honest h hv.2, fun _ => ⟨fun hnone => ?_, fun _ =>
      hrefuse.honest h⟩⟩⟩⟩
  refine (sat_persistVoteFor_honest h (.inl hnone.2)).imp ?_
  rintro b q ⟨hq, hv⟩
  exact ⟨fun hb => sat_confirmVote_honest hq (hv hb), fun _ => hrefuse.honest hq⟩

end

/-- With the reply of `sender` the pre-votes reach a majority. -/
def Node.decidedBy (n : Node) (sender : Uuid) : Bool :=
  (n.memberIndex sender).elim false fun i =>
    (n.countVote i).hasVoteMajority (n.countVote i).votesGrantedMask

/-- The message completes the majority of a pre-vote round of the current term. -/
def Node.elects (n : Node) (m : Msg) : Bool :=
  match m.body with
  | .preVoteReply granted =>
    n.role = .preCandidate && granted && m.term = n.term && n.decidedBy m.sender
  | _ => false

lemma sat_handlePreVoteReply_honest {sender : Uuid} {term : ℕ} {granted : Bool}
    (h : p.Honest k t e sent) (hok : p.node.role = .preCandidate → granted →
      p.node.decidedBy sender → p.node.campaignOk) :
    Upholds k t e sent (handlePreVoteReply sender term granted) p := by
  simp only [handlePreVoteReply, sat_read, sat_ite, sat_pure]
  refine ⟨fun _ => h, fun hround => ?_⟩
  simp only [not_or, not_not, Bool.not_eq_true, Bool.not_eq_false'] at hround
  cases hi : p.node.memberIndex sender with
  | none => exact h
  | some i =>
    have hcount := h.setNode (m := p.node.countVote i) rfl rfl rfl
    simp only [sat_bind, sat_modifyNode, sat_getNode, sat_ite, sat_pure]
    refine ⟨fun hmajority => ?_, fun _ => hcount⟩
    refine sat_startElection_honest hcount fun _ => hok hround.1 hround.2.2 ?_
    rw [Node.decidedBy, hi]
    exact hmajority

lemma sat_dispatch_honest {m : Msg} (h : p.Honest k t e sent)
    (hok : ∀ granted, m.body = .preVoteReply granted → p.node.role = .preCandidate → granted →
      p.node.decidedBy m.sender → p.node.campaignOk) : Upholds k t e sent (dispatch m) p := by
  unfold dispatch
  split
  · exact sat_handleRequestVote_honest h
  · exact (idles_handleVoteReply _ _).honest h
  · exact (idles_handlePreVote _ _ _ _).honest h
  · exact sat_handlePreVoteReply_honest h (hok _ ‹_›)
  · exact (idles_handleAppend _ _ _ _ _).honest h
  · exact (idles_handleAppendReply _ _ _).honest h
  · exact (idles_handleSnapshot _ _ _ _).honest h
  · exact (idles_handleAppendReply _ _ _).honest h
  · exact h

lemma sat_receive_honest {m : Msg} (h : p.Honest k t e sent)
    (hok : p.node.elects m → p.node.campaignOk) : Upholds k t e sent (receive m) p := by
  simp only [receive, sat_bind, sat_ite, sat_pure]
  refine ⟨fun _ => h, fun _ => ⟨fun _ => h, fun _ => ⟨fun _ => h, fun _ => ⟨fun _ => h, fun _ =>
    ⟨fun _ => h, fun _ => ⟨fun _ => (idles_rejectStale m).honest h, fun hge =>
    ⟨fun _ => ?_, fun hsame => ?_⟩⟩⟩⟩⟩⟩⟩
  · refine (sat_syncTermEpoch_honest h (by simp)).imp ?_
    rintro b q ⟨hq, hsync⟩
    refine ⟨fun hb => ?_, fun _ => hq⟩
    refine sat_dispatch_honest hq fun granted hbody hrole hgranted hmajority => ?_
    rcases hsync hb with ⟨-, hfollower, -⟩ | ⟨hle, e', heq⟩
    · rw [hfollower] at hrole
      cases hrole
    · -- only the epoch was raised
      rw [heq] at hrole hmajority ⊢
      have hmajority : p.node.decidedBy m.sender := hmajority
      refine hok ?_
      simp only [Node.elects, hbody, Bool.and_eq_true, decide_eq_true_eq]
      exact ⟨⟨⟨hrole, hgranted⟩, by omega⟩, hmajority⟩
  · refine sat_dispatch_honest h fun granted hbody hrole hgranted hmajority => hok ?_
    simp only [hbody, MsgBody.isPreVote, Bool.not_false, true_and, not_or, not_lt] at hsame
    simp only [Node.elects, hbody, Bool.and_eq_true, decide_eq_true_eq]
    exact ⟨⟨⟨hrole, hgranted⟩, by omega⟩, hmajority⟩

/-- A tick at time `now` that starts an election starts it in a new term, or without a vote for
another. -/
def Node.tickVoteOk (n : Node) (now : ℕ) : Bool :=
  n.role = .leader || n.selfIndex.isNone ||
    sub64 now n.lastLeaderContactMs < n.electionTimeoutMs n.term || n.selfIsLearner ||
    n.cfg.enablePrevote && n.members.length ≠ 1 || n.campaignOk

lemma sat_tick_honest {now : ℕ} (h : p.Honest k t e sent) (hok : p.node.tickVoteOk now) :
    Upholds k t e sent (tick now) p := by
  simp only [tick, sat_bind, sat_ite, sat_pure, sat_modifyNode]
  have hnew := h.setNode (m := { p.node with nowMs := now }) rfl rfl rfl
  have hlead : Idles (do tryCompact; heartbeat) := .bind idles_tryCompact fun _ => idles_heartbeat
  refine ⟨fun _ => ?_, fun hrole => ⟨fun htime => ?_, fun _ => hnew⟩⟩
  · have hsat := hlead.honest hnew
    rwa [Upholds, sat_bind] at hsat
  · have hlate : ¬ sub64 now p.node.lastLeaderContactMs < p.node.electionTimeoutMs p.node.term :=
      not_lt.mpr htime.2
    have hself : p.node.selfIndex.isNone = false := by
      simpa [isSome_iff_ne_none] using htime.1
    have hrole : p.node.role ≠ .leader := hrole
    simp only [Node.tickVoteOk, hrole, hself, hlate, decide_false, Bool.false_or] at hok
    refine ⟨fun hpre => sat_startPrevote_honest hnew fun hlearner hlen => ?_, fun hpre => ?_⟩
    · have hlearner : p.node.selfIsLearner = false := hlearner
      have hlen : p.node.members.length = 1 := hlen
      simp only [hlearner, hlen, Bool.false_or, ne_eq, not_true_eq_false, decide_false,
        Bool.and_false] at hok
      exact hok
    · have hpre : p.node.cfg.enablePrevote = false := by simpa using hpre
      refine sat_startElection_honest hnew fun hlearner => ?_
      have hlearner : p.node.selfIsLearner = false := hlearner
      simp only [hpre, hlearner, Bool.false_and, Bool.or_false, Bool.false_or] at hok
      exact hok

end

/-! ### Restarts -/

section

variable {k t e : ℕ} {d : List Line} {sent : List Msg} {c : Config} {st : Replay} {n : Node}

/-- The file that an open leaves behind, after it has cut off an open snapshot transaction. -/
def keptLines (d : List Line) (st : Replay) : List Line :=
  match st.pend with
  | none => d
  | some p => d.take p.start

lemma votes_keptLines (hst : Replay.start.steps c 0 d = some st) :
    votes (keptLines d st) = votes d := by
  unfold keptLines
  cases hp : st.pend with
  | none => rfl
  | some => exact (load_discard hst hp).1

lemma marked_keptLines (hst : Replay.start.steps c 0 d = some st) :
    (st.term, st.epoch) = (0, 0) ∨ (st.term, st.epoch) ∈ fences (keptLines d st) := by
  unfold keptLines
  cases hp : st.pend with
  | none => exact (fenced_of_load hst).top
  | some =>
    obtain ⟨-, st0, hst0, hcore, -⟩ := load_discard hst hp
    have htop := (fenced_of_fold hst0).top
    have hterm : st0.term = st.term := congrArg (·.term) hcore
    have hepoch : st0.epoch = st.epoch := congrArg (·.epoch) hcore
    rwa [hterm, hepoch] at htop

lemma Casts.kept (h : Casts k t e d sent) (hst : Replay.start.steps c 0 d = some st) :
    Casts k t e (keptLines d st) sent := by
  obtain ⟨ht, he⟩ := h.covers.le (fenced_of_load hst)
  exact h.of_votes (votes_keptLines hst) ⟨_, marked_keptLines hst, ht, he⟩

/-- A node that was opened from a file knows its current vote. -/
lemma Booted.balloted (hn : Booted c st n) (hst : Replay.start.steps c 0 d = some st) :
    n.Balloted (keptLines d st) := by
  refine ⟨?_, ?_, ?_⟩
  · rw [votes_keptLines hst, hn.term, hn.votedFor]
    exact load_ballot hst
  · rw [hn.term, hn.epoch]
    exact (regular_of_load hst).epoch
  · rw [hn.term, hn.epoch]
    exact marked_keptLines hst

/-- The first lines of a new file. -/
lemma Casts.born (h : Casts k t e [] sent) (hd : ∀ l ∈ d, l.isIdentity) : Casts k t e d sent :=
  h.of_votes (Cluster.votes_identity hd) (h.covers.mono (by simp [fences]))

lemma Booted.balloted_fresh (hn : Booted c (.fresh c) n) : n.Balloted c.identityLines := by
  have hterm : n.term = 0 := hn.term
  have hepoch : n.epoch = c.writerEpochFloor := hn.epoch
  have hvote : n.votedFor = none := hn.votedFor
  refine ⟨?_, ?_, ?_⟩
  · rw [Cluster.votes_identity c.identityLines_isIdentity, hterm, hvote]
    rfl
  · rw [hterm]
    exact Nat.zero_le _
  · rw [hterm, hepoch]
    by_cases hzero : c.writerEpochFloor = 0
    · exact .inl (by rw [hzero])
    · exact .inr (by simp [Config.identityLines, hzero, fences, fenceOf])

end

/-! ### Runs -/

/-- One node: its instance and its file, and every message it has sent. -/
structure Solo where
  slot : Slot
  sent : List Msg

/-- What can happen to the node. -/
inductive Solo.Act
  | openNode (cfg : Config) (io : List Io)
  | crash
  | tick (now : UInt64) (io : List Io)
  | receive (m : Msg) (io : List Io)

namespace Solo

/-- The node is down, with any record file or none. -/
def start (disk : Option (List Line)) : Solo := ⟨⟨none, disk⟩, []⟩

variable (s : Solo)

def lines : List Line := s.slot.disk.getD []

/-- Run an operation of the node, if it is up. A crash leaves only the file. -/
def runAt {α : Type} (io : List Io) (m : M α) : Solo :=
  match s.slot.node with
  | none => s
  | some cs =>
    let (r, p) := m ⟨cs, s.lines, [], io, false⟩
    ⟨⟨if r.isSome then some p.node else none, some p.disk⟩, s.sent ++ p.out⟩

def step : Act → Solo
  | .openNode cfg io =>
    match s.slot.node with
    | some _ => s
    | none => { s with slot := (openSlot cfg s.slot.disk io).1 }
  | .crash => { s with slot := ⟨none, s.slot.disk⟩ }
  | .tick now io => s.runAt io (Consensus.tick now.toNat)
  | .receive m io => s.runAt io (Consensus.receive m)

def run (acts : List Act) : Solo := acts.foldl step s

/-- No append of the act fails with its line in the file, and no election of it takes place in a
term in which the node has voted for another. -/
def Act.ok : Act → Bool
  | .openNode _ _ | .crash => true
  | .tick now io => decide (Io.fail .whole ∉ io) && s.slot.node.all (·.tickVoteOk now.toNat)
  | .receive m io =>
    decide (Io.fail .whole ∉ io) && s.slot.node.all fun n => !n.elects m || n.campaignOk

/-- Every act of the run meets the condition in the state it finds. -/
def meets : Solo → List Act → Bool
  | _, [] => true
  | s, a :: acts => a.ok s && meets (s.step a) acts

/-- The node has voted consistently and has reached term `t` and epoch `e`. -/
structure Kept (k t e : ℕ) (s : Solo) : Prop where
  casts : Casts k t e s.lines s.sent
  node : ∀ n, s.slot.node = some n → n.Balloted s.lines ∧ t ≤ n.term ∧ e ≤ n.epoch

variable {s} {k t e : ℕ}

section

variable (h : s.Kept k t e)
include h

lemma Kept.runAt {α : Type} {io : List Io} {m : M α} (hio : Io.fail .whole ∉ io)
    (hm : ∀ p : Proc, s.slot.node = some p.node → p.Honest k t e s.sent →
      Upholds k t e s.sent m p) : (s.runAt io m).Kept k t e := by
  unfold Solo.runAt
  cases hn : s.slot.node with
  | none => exact h
  | some cs =>
    obtain ⟨hb, ht, he⟩ := h.node cs hn
    have hsat := hm ⟨cs, s.lines, [], io, false⟩ hn
      ⟨hio, by rw [append_nil]; exact h.casts, hb, ht, he⟩
    unfold Upholds Sat at hsat
    simp only
    rcases hr : m ⟨cs, s.lines, [], io, false⟩ with ⟨r, p⟩
    rw [hr] at hsat
    cases r with
    | none => exact ⟨hsat, by simp⟩
    | some =>
      refine ⟨hsat.casts, ?_⟩
      rintro n ⟨⟩
      exact ⟨hsat.node, hsat.term, hsat.epoch⟩

lemma Kept.opened {cfg : Config} {slot : Slot}
    (hs : Opened cfg s.slot.disk slot) : Kept k t e { s with slot := slot } := by
  have hcasts := h.casts
  unfold lines at hcasts
  generalize hdisk : s.slot.disk = disk at hs hcasts
  cases hs with
  | refused => exact ⟨hcasts, by simp⟩
  | failed d d' hd =>
    refine ⟨?_, by simp⟩
    rcases hd with rfl | ⟨c, st, p, -, hst, hp, rfl⟩
    · exact hcasts
    · have hkept := Casts.kept hcasts hst
      rwa [keptLines, hp] at hkept
  | loaded d d' c st n hc hst hd hn =>
    have hd' : d' = keptLines d st := hd
    obtain ⟨ht, he⟩ := hcasts.covers.le (fenced_of_load hst)
    refine ⟨hd' ▸ Casts.kept hcasts hst, ?_⟩
    rintro n' ⟨⟩
    exact ⟨hd' ▸ hn.balloted hst, hn.term ▸ ht, hn.epoch ▸ he⟩
  | unborn d' hc hd => exact ⟨Casts.born hcasts hd, by simp⟩
  | born d' c n hc hd hsize hn =>
    subst hd
    refine ⟨Casts.born hcasts c.identityLines_isIdentity, ?_⟩
    rintro n' ⟨⟩
    obtain ⟨x, rfl | hx, ht, he⟩ := hcasts.covers
    · exact ⟨hn.balloted_fresh, ht.trans (Nat.zero_le _), he.trans (Nat.zero_le _)⟩
    · exact absurd hx (by simp [fences])

lemma Kept.step {a : Act} (hok : a.ok s) : (s.step a).Kept k t e := by
  cases a with
  | openNode cfg io =>
    simp only [Solo.step]
    cases s.slot.node with
    | some => exact h
    | none => exact h.opened (opened_openSlot cfg s.slot.disk io)
  | crash => exact ⟨h.casts, by simp [Solo.step]⟩
  | tick =>
    simp only [Act.ok, Bool.and_eq_true, decide_eq_true_eq] at hok
    refine h.runAt hok.1 fun p hp hhonest => sat_tick_honest hhonest ?_
    simpa [hp] using hok.2
  | receive =>
    simp only [Act.ok, Bool.and_eq_true, decide_eq_true_eq] at hok
    refine h.runAt hok.1 fun p hp hhonest => sat_receive_honest hhonest fun helects => ?_
    simpa [hp, helects] using hok.2

lemma Kept.run {acts : List Act} (hok : s.meets acts) : (s.run acts).Kept k t e := by
  induction acts generalizing s with
  | nil => exact h
  | cons a acts ih =>
    simp only [meets, Bool.and_eq_true] at hok
    exact ih (h.step hok.1) hok.2

end

lemma kept_start (disk : Option (List Line)) :
    (start disk).Kept (votes (disk.getD [])).length 0 0 := by
  refine ⟨⟨le_rfl, ?_, ⟨(0, 0), .inl rfl, le_rfl, le_rfl⟩, by simp [start]⟩, by simp [start]⟩
  -- at most the last vote line of the file is looked at
  have hlen : (castSince (votes (disk.getD [])).length (disk.getD [])).length ≤ 1 := by
    rw [castSince, length_drop]
    omega
  change (castSince (votes (disk.getD [])).length (disk.getD [])).Pairwise Succeeds
  generalize castSince (votes (disk.getD [])).length (disk.getD []) = xs at hlen
  cases xs with
  | nil => exact .nil
  | cons x xs =>
    obtain rfl : xs = [] := length_eq_zero_iff.mp (by simpa using hlen)
    exact pairwise_singleton _ _

end Solo

lemma Succeeds.eq {t : ℕ} {a b : Uuid} (h : Succeeds (t, some a) (t, some b)) : a = b := by
  rcases h.2 rfl with hnone | heq
  · exact absurd hnone nofun
  · exact (some.inj heq).symm

/-- Consistent vote lines name one candidate for each term. -/
lemma eq_of_pairwise_succeeds {xs : List (ℕ × Option Uuid)} (h : xs.Pairwise Succeeds) {t : ℕ}
    {a b : Uuid} (ha : (t, some a) ∈ xs) (hb : (t, some b) ∈ xs) : a = b := by
  induction xs with
  | nil => exact absurd ha (by simp)
  | cons x xs ih =>
    rw [pairwise_cons] at h
    rcases mem_cons.mp ha with rfl | ha'
    · rcases mem_cons.mp hb with heq | hb'
      · exact (some.inj (congrArg Prod.snd heq)).symm
      · exact (h.1 _ hb').eq
    · rcases mem_cons.mp hb with rfl | hb'
      · exact (h.1 _ ha').eq.symm
      · exact ih h.2 ha' hb'

namespace Solo

/-- The votes of the node: the one its file named at the start of the run, and every vote line it
wrote since. -/
def cast (disk : Option (List Line)) (s : Solo) : List (ℕ × Option Uuid) :=
  castSince (votes (disk.getD [])).length s.lines

/-- Whatever arrives, and whatever file the node was started with: it records one vote in a term, it
grants none but that one, the epoch never lies below the term, and neither ever falls. -/
theorem one_vote_per_term (disk : Option (List Line)) (acts : List Act)
    (hok : (start disk).meets acts) : (∀ t a b, (t, some a) ∈ cast disk ((start disk).run acts) →
      (t, some b) ∈ cast disk ((start disk).run acts) → a = b) ∧
    (∀ m ∈ ((start disk).run acts).sent, m.body = .voteReply true →
      (m.term, some m.dest) ∈ cast disk ((start disk).run acts)) ∧
    ∀ n, ((start disk).run acts).slot.node = some n → n.term ≤ n.epoch ∧
      ∀ more, ((start disk).run acts).meets more → ∀ n',
        (((start disk).run acts).run more).slot.node = some n' →
          n.term ≤ n'.term ∧ n.epoch ≤ n'.epoch := by
  have hkept := (kept_start disk).run hok
  refine ⟨fun t a b ha hb => eq_of_pairwise_succeeds hkept.casts.order ha hb,
    fun m hm hbody => hkept.casts.granted m hm (decide_eq_true hbody), fun n hn => ?_⟩
  obtain ⟨hb, -, -⟩ := hkept.node n hn
  refine ⟨hb.fenced, fun more hmore n' hn' => ?_⟩
  -- the same invariant with the term and the epoch reached so far
  have hnow : ((start disk).run acts).Kept (votes (disk.getD [])).length n.term n.epoch := by
    refine ⟨⟨hkept.casts.long, hkept.casts.order, hb.covers le_rfl le_rfl, hkept.casts.granted⟩, ?_⟩
    intro m hm
    rw [hn, some.injEq] at hm
    subst hm
    exact ⟨hb, le_rfl, le_rfl⟩
  exact ((hnow.run hmore).node n' hn').2

end Solo

namespace Sample

/-- Peer `k` asks node 1 for its vote in term `t`. -/
def asks (k : UInt8) (t : ℕ) : Solo.Act :=
  .receive ⟨['g'], peer k, peer 1, t, t, .requestVote 0 0⟩ []

def starts : Solo.Act := .openNode (config trio 0 (peer 1)) []

theorem one_vote_per_term_restart :
    ((Solo.start none).meets [starts, asks 2 3, .crash, starts, asks 3 3, .tick 5000 []]) ∧
      ∀ m ∈ ((Solo.start none).run [starts, asks 2 3, .crash, starts, asks 3 3,
        .tick 5000 []]).sent,
        m.body = .voteReply true → (m.term, some m.dest) ∈ Solo.cast none
          ((Solo.start none).run [starts, asks 2 3, .crash, starts, asks 3 3, .tick 5000 []]) := by
  have hok : (Solo.start none).meets [starts, asks 2 3, .crash, starts, asks 3 3,
    .tick 5000 []] := by
    decide +kernel
  exact ⟨hok, (Solo.one_vote_per_term none _ hok).2.1⟩

/-- Node 1 grants its vote in the last term to node 2. The election that it starts next wraps
around, takes place in the same term, and records its vote for itself. -/
theorem last_term_two_votes : (2 ^ 64 - 1, some (peer 2)) ∈ Solo.cast none
        ((Solo.start none).run [starts, asks 2 (2 ^ 64 - 1), .tick 5000 []]) ∧
      (2 ^ 64 - 1, some (peer 1)) ∈ Solo.cast none
        ((Solo.start none).run [starts, asks 2 (2 ^ 64 - 1), .tick 5000 []]) ∧
      (⟨['g'], peer 1, peer 2, 2 ^ 64 - 1, 2 ^ 64 - 1, .voteReply true⟩ : Msg) ∈
        ((Solo.start none).run [starts, asks 2 (2 ^ 64 - 1), .tick 5000 []]).sent := by
  decide +kernel

end Sample

end Qihse.Consensus
