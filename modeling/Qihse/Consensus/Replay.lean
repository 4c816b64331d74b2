import Qihse.Consensus.Cluster

/-!
# Facts about the replay of a record file

`Replay.fold` is the replay of complete lines, without the checks that follow the last one, and
`Replay.Replayed` what one line can do. What is rebuilt is read off the lines: term and vote are
those of the last vote line, and a snapshot transaction that was never closed has no effect.
-/

namespace Qihse.Consensus

open List Option Line

namespace Replay

/-- The loop over the lines of a file, all of which must be complete. -/
def fold (cfg : Config) : Replay → ℕ → List Line → Option Replay
  | st, _, [] => some st
  | st, line, .record r :: ls => (st.step cfg line r).bind fun st' => fold cfg st' (line + 1) ls
  | _, _, .torn :: _ => none

variable {cfg : Config} {st st' : Replay} {k : ℕ} {ls : List Line} {r : Record} {e : Entry}
  {p : Pending}

lemma fold_append (st : Replay) (k : ℕ) (xs ys : List Line) :
    fold cfg st k (xs ++ ys) = (fold cfg st k xs).bind fun st' =>
      fold cfg st' (k + xs.length) ys := by
  induction xs generalizing st k with
  | nil => rfl
  | cons x xs ih =>
    cases x with
    | torn => rfl
    | record r =>
      simp only [cons_append, fold, length_cons]
      cases st.step cfg k r with
      | none => rfl
      | some => simp only [bind_some, ih, add_assoc, add_comm 1]

/-- One more line. -/
lemma fold_snoc (h : fold cfg st k (ls ++ [record r]) = some st') :
    ∃ st1, fold cfg st k ls = some st1 ∧ st1.step cfg (k + ls.length) r = some st' := by
  rw [fold_append] at h
  obtain ⟨st1, hst1, h⟩ := bind_eq_some_iff.mp h
  obtain ⟨st2, hst2, heq⟩ := bind_eq_some_iff.mp h
  cases heq
  exact ⟨st1, hst1, hst2⟩

lemma fold_torn (ls : List Line) : fold cfg st k (ls ++ [torn]) = none := by
  rw [fold_append]
  cases fold cfg st k ls <;> rfl

/-- The configuration decides whether a line is accepted, not what it does. -/
lemma step_config {cfg' : Config} {st1 : Replay} (h : st.step cfg k r = some st1)
    (h' : st.step cfg' k r = some st') : st' = st1 := by
  cases r with
  | header | baseline | history =>
    simp only [step] at h h'
    split_ifs at h h'
    cases h
    cases h'
    rfl
  | _ =>
    simp only [step] at h h'
    split_ifs at h h'
    exact Option.some.inj (h'.symm.trans h)

/-- What every line keeps is kept by the loop. -/
lemma fold_induction {P : Replay → Prop} (hst : P st) (h : fold cfg st k ls = some st')
    (hstep : ∀ st k r st', record r ∈ ls → P st → st.step cfg k r = some st' → P st') :
    P st' := by
  induction ls generalizing st k with
  | nil =>
    cases h
    exact hst
  | cons x ls ih =>
    cases x with
    | torn => simp [fold] at h
    | record r =>
      obtain ⟨st1, hst1, h⟩ := bind_eq_some_iff.mp h
      exact ih (hstep st k r st1 mem_cons_self hst hst1) h fun st k r st' hr =>
        hstep st k r st' (mem_cons_of_mem _ hr)

lemma fold_config {cfg' : Config} {st1 : Replay} (h : fold cfg st k ls = some st1)
    (h' : fold cfg' st k ls = some st') : st' = st1 := by
  induction ls generalizing st k with
  | nil =>
    cases h
    cases h'
    rfl
  | cons x ls ih =>
    cases x with
    | torn => simp [fold] at h
    | record =>
      obtain ⟨st2, hst2, h⟩ := bind_eq_some_iff.mp h
      obtain ⟨st3, hst3, h'⟩ := bind_eq_some_iff.mp h'
      obtain rfl := step_config hst2 hst3
      exact ih h h'

/-- A file that loads: its lines are complete, up to a cut one in an open snapshot transaction. -/
lemma fold_of_steps (h : steps cfg st k ls = some st') :
    fold cfg st k ls = some st' ∧ st'.headerSeen ∨
      ∃ ls0, ls = ls0 ++ [torn] ∧ fold cfg st k ls0 = some st' ∧ st'.pend.isSome := by
  induction ls generalizing st k with
  | nil =>
    simp only [steps] at h
    split_ifs at h with hh
    cases h
    exact .inl ⟨rfl, hh⟩
  | cons x ls ih =>
    cases x with
    | record r =>
      obtain ⟨st1, hst1, h⟩ := bind_eq_some_iff.mp h
      rcases ih h with ⟨hfold, hh⟩ | ⟨ls0, rfl, hfold, hp⟩
      · exact .inl ⟨by simp only [fold, hst1, bind_some, hfold], hh⟩
      · exact .inr ⟨.record r :: ls0, rfl, by simp only [fold, hst1, bind_some, hfold], hp⟩
    | torn =>
      cases ls with
      | cons => simp [steps] at h
      | nil =>
        simp only [steps] at h
        split_ifs at h with hp
        cases h
        exact .inr ⟨[], rfl, rfl, hp⟩

/-! ### What a line can do -/

/-- The entry that a line announces. -/
def entryOf : Record → Option Entry
  | .entry _ index term gen phys logical classif sci payload =>
    dataEntry index term gen phys logical classif sci payload
  | .config add uid index term gen roleWeight => configEntry add uid index term gen roleWeight
  | .joint begins index term gen =>
    some ⟨index, term, gen, ⟨0, 0⟩, 0, 0, if begins then .jointBegin else .jointEnd, []⟩
  | _ => none

/-- The lines that announce an entry. -/
def announces : Record → Bool
  | .entry _ _ _ _ _ _ _ _ _ | .config _ _ _ _ _ _ | .joint _ _ _ _ => true
  | _ => false

/-- The lines that identify a file. -/
def isIdentity : Record → Bool
  | .header _ _ | .baseline _ | .history _ _ => true
  | _ => false

/-- The effect of a line that follows the identity lines; `line` is its number. -/
inductive Replayed (st : Replay) (line : ℕ) : Record → Replay → Prop
  | vote (t : ℕ) (v : Option Uuid) (e : ℕ) (hp : st.pend = none) (ht : st.term ≤ t) (he : t ≤ e)
      (hst : st.epoch ≤ e) :
      Replayed st line (.vote t v e) { st with term := t, epoch := e, votedFor := v }
  | push (r : Record) (e : Entry) (st' : Replay) (hp : st.pend = none) (hr : entryOf r = some e)
      (h : st.push e = some st') : Replayed st line r st'
  | pendPush (r : Record) (e : Entry) (p : Pending) (st' : Replay) (hp : st.pend = some p)
      (hr : entryOf r = some e) (h : st.pendPush p e = some st') : Replayed st line r st'
  | openSnapshot (version2 : Bool) (last lastTerm epoch gen digest : ℕ) (hp : st.pend = none)
      (hlast : st.snap.entries.length < last) (hterm : lastTerm ≤ st.term)
      (hepoch : epoch ≤ st.epoch) :
      Replayed st line (.snapshot version2 last lastTerm epoch gen digest last) { st with
        pend := some ⟨line, last, lastTerm, epoch, gen, digest, last, [], fnvOffset, 0, 0⟩ }
  | swapIn (start : ℕ) (p : Pending) (st' : Replay) (hp : st.pend = some p)
      (h : st.swapIn p start = some st') : Replayed st line (.truncate start) st'
  | cut (start : ℕ) (st' : Replay) (hp : st.pend = none) (h : st.cut start = some st') :
      Replayed st line (.truncate start) st'
  | commit (i : ℕ) (hp : st.pend = none) (hle : st.commit ≤ i) (hlast : i ≤ st.nextIndex - 1) :
      Replayed st line (.commit i) { st with commit := i }

lemma replayed_of_pushAny (hr : entryOf r = some e) (h : st.pushAny e = some st') :
    Replayed st k r st' := by
  unfold pushAny at h
  split at h
  · exact .pendPush r e _ st' ‹_› hr h
  · exact .push r e st' ‹_› hr h

lemma replayed_of_stepBody (h : st.stepBody k r = some st') : Replayed st k r st' := by
  cases r with
  | vote t v e =>
    simp only [stepBody, isSome_iff_ne_none] at h
    split_ifs at h with h1 h2 h3 h4
    cases h
    exact .vote t v e (not_not.mp h1) (Nat.le_of_not_lt h2) (Nat.le_of_not_lt h3)
      (Nat.le_of_not_lt h4)
  | entry s =>
    cases s with
    | false =>
      simp only [stepBody, isSome_iff_ne_none] at h
      split_ifs at h with h1
      obtain ⟨e, hr, he⟩ := bind_eq_some_iff.mp h
      exact .push _ e st' (not_not.mp h1) hr he
    | true =>
      simp only [stepBody] at h
      cases hp : st.pend with
      | none => simp [hp] at h
      | some p =>
        simp only [hp] at h
        obtain ⟨e, hr, he⟩ := bind_eq_some_iff.mp h
        exact .pendPush _ e p st' hp hr he
  | config =>
    obtain ⟨e, hr, he⟩ := bind_eq_some_iff.mp h
    exact replayed_of_pushAny hr he
  | joint => exact replayed_of_pushAny rfl h
  | snapshot v2 last lt ep g dg ct =>
    unfold stepBody at h
    simp only [isSome_iff_ne_none] at h
    generalize hcap : (if v2 then snapshotStreamMaxEntries else snapshotMaxEntries) = cap at h
    simp only [ite_none_left_eq_some] at h
    obtain ⟨h1, h2, h3, h4, h5, h6, h7, h⟩ := h
    cases h
    obtain rfl : ct = last := by omega
    exact .openSnapshot v2 ct lt ep g dg (not_not.mp h1) (by omega) (by omega) (by omega)
  | truncate start =>
    simp only [stepBody] at h
    cases hp : st.pend with
    | none =>
      simp only [hp] at h
      exact .cut start st' hp h
    | some p =>
      simp only [hp] at h
      exact .swapIn start p st' hp h
  | commit i =>
    simp only [stepBody, isSome_iff_ne_none] at h
    split_ifs at h with h1 h2 h3
    cases h
    exact .commit i (not_not.mp h1) (Nat.le_of_not_lt h2) (Nat.le_of_not_lt h3)
  | _ => simp [stepBody] at h

/-- The effect of a line that announces an entry. -/
lemma Replayed.announced (h : Replayed st k r st') (hr : announces r) :
    (∃ e, st.pend = none ∧ entryOf r = some e ∧ st.push e = some st') ∨
      ∃ e p, st.pend = some p ∧ entryOf r = some e ∧ st.pendPush p e = some st' := by
  cases h with
  | push _ e _ hp he h => exact .inl ⟨e, hp, he, h⟩
  | pendPush _ e p _ hp he h => exact .inr ⟨e, p, hp, he, h⟩
  | _ => cases hr

/-- The effect of an identity line. -/
structure Identified (st : Replay) (r : Record) (st' : Replay) : Prop where
  line : isIdentity r
  eq : ∃ (flags : Bool × Bool × Bool × Bool × Bool) (epoch : ℕ), st' = { st with
    headerSeen := flags.1
    baselineHave := flags.2.1
    baselineChecked := flags.2.2.1
    historyHave := flags.2.2.2.1
    historyChecked := flags.2.2.2.2
    epoch := epoch }
  epoch : st.pend.isSome → st'.epoch = st.epoch

/-- The effect of any line. -/
lemma replayed_of_step (h : st.step cfg k r = some st') :
    Identified st r st' ∨ Replayed st.checked k r st' := by
  cases r with
  | header =>
    simp only [step] at h
    split_ifs at h
    cases h
    exact .inl ⟨rfl, ⟨⟨true, _, _, _, _⟩, _, rfl⟩, fun _ => rfl⟩
  | baseline =>
    simp only [step] at h
    split_ifs at h
    cases h
    exact .inl ⟨rfl, ⟨⟨_, true, _, _, _⟩, _, rfl⟩, fun _ => rfl⟩
  | history i e =>
    simp only [step] at h
    split_ifs at h with h1 h2 h3
    cases h
    refine .inl ⟨rfl, ⟨⟨_, _, true, true, _⟩, e, rfl⟩, fun hp => ?_⟩
    exact absurd (.inr (.inr (.inl hp))) h2
  | _ =>
    simp only [step] at h
    split_ifs at h
    exact .inr (replayed_of_stepBody h)

lemma entryOf_of_isIdentity (h : isIdentity r) : entryOf r = none := by
  cases r <;> first | rfl | simp [isIdentity] at h

lemma identified_of_step (hr : isIdentity r) (h : st.step cfg k r = some st') :
    Identified st r st' := by
  rcases replayed_of_step h with hid | h
  · exact hid
  · cases h with
    | push _ e _ _ he | pendPush _ e _ _ _ he =>
      exact absurd ((entryOf_of_isIdentity hr).symm.trans he) nofun
    | _ => cases hr

/-! ### Votes -/

/-- The term and the vote of a vote line. -/
def voteOf : Line → Option (ℕ × Option Uuid)
  | .record (.vote t v _) => some (t, v)
  | _ => none

/-- The vote lines of a file, in order. -/
def votes (ls : List Line) : List (ℕ × Option Uuid) := ls.filterMap voteOf

@[simp]
lemma votes_append (xs ys : List Line) : votes (xs ++ ys) = votes xs ++ votes ys := by
  simp [votes]

lemma votes_torn {d d' : List Line} (h : d' = d ∨ d' = d ++ [torn]) : votes d' = votes d := by
  rcases h with rfl | rfl
  · rfl
  · simp [votes, voteOf]

lemma voteOf_of_announces (h : announces r) : voteOf (.record r) = none := by
  cases r <;> first | rfl | simp [announces] at h

lemma announces_of_entryOf (h : entryOf r = some e) : announces r := by
  cases r <;> first | rfl | simp [entryOf] at h

lemma voteOf_of_entryOf (h : entryOf r = some e) : voteOf (.record r) = none :=
  voteOf_of_announces (announces_of_entryOf h)

lemma voteOf_of_isIdentity (h : isIdentity r) : voteOf (.record r) = none := by
  cases r <;> first | rfl | simp [isIdentity] at h

/-- The two fields of the replay that `push`, `pendPush` and the others leave alone. -/
def ballot (st : Replay) : ℕ × Option Uuid := (st.term, st.votedFor)

lemma push_eq (h : st.push e = some st') : st' = { st with
    log := st.log ++ [e]
    nextIndex := st.nextIndex + 1
    lastEntryTerm := e.term
    lastGen := e.journalGeneration } := by
  unfold push at h
  split_ifs at h
  cases h
  rfl

lemma pendPush_eq (h : st.pendPush p e = some st') : st' = { st with
    pend := some { p with
      entries := p.entries ++ [e]
      run := e.digest p.run
      termPrev := e.term
      genPrev := e.journalGeneration } } := by
  unfold pendPush at h
  simp only [ite_none_left_eq_some] at h
  obtain ⟨-, -, -, -, -, -, h⟩ := h
  cases h
  rfl

lemma settleTail_eq (st : Replay) :
    ∃ t g, st.settleTail = { st with lastEntryTerm := t, lastGen := g } := by
  unfold settleTail
  split <;> exact ⟨_, _, rfl⟩

lemma swapIn_eq (h : st.swapIn p k = some st') : ∃ t g, st' = { st with
    log := st.log.drop (st.log.length - (st.absLastIndex - p.lastIndex))
    snap := ⟨p.entries, p.lastIndex, p.lastTerm, p.epoch, p.genHi, p.digest⟩
    pend := none
    nextIndex := max st.nextIndex (p.lastIndex + 1)
    lastEntryTerm := t
    lastGen := g
    commit := max st.commit p.lastIndex } := by
  unfold swapIn at h
  simp only [ite_none_left_eq_some] at h
  obtain ⟨-, -, -, -, -, h⟩ := h
  cases h
  obtain ⟨t, g, heq⟩ := settleTail_eq _
  exact ⟨t, g, by rw [heq]⟩

lemma cut_eq (h : st.cut k = some st') : ∃ log next t g, (∀ e ∈ log, e ∈ st.log) ∧
      st' = { st with log := log, nextIndex := next, lastEntryTerm := t, lastGen := g } := by
  unfold cut at h
  split_ifs at h
  · cases h
    obtain ⟨t, g, heq⟩ := settleTail_eq _
    exact ⟨_, _, t, g, fun e he => mem_of_mem_take he, heq⟩
  · cases h
    exact ⟨_, _, _, _, fun e he => he, rfl⟩

lemma Replayed.ballot_eq (h : Replayed st k r st') :
    st'.ballot = (voteOf (.record r)).getD st.ballot := by
  cases h with
  | vote | openSnapshot | commit => rfl
  | push _ e _ hp hr h =>
    rw [push_eq h, voteOf_of_entryOf hr]
    rfl
  | pendPush _ e p _ hp hr h =>
    rw [pendPush_eq h, voteOf_of_entryOf hr]
    rfl
  | swapIn start p _ hp h =>
    obtain ⟨t, g, rfl⟩ := swapIn_eq h
    rfl
  | cut start _ hp h =>
    obtain ⟨log, next, t, g, -, rfl⟩ := cut_eq h
    rfl

lemma step_ballot (h : st.step cfg k r = some st') :
    st'.ballot = (voteOf (.record r)).getD st.ballot := by
  rcases replayed_of_step h with hid | h
  · obtain ⟨flags, epoch, rfl⟩ := hid.eq
    rw [voteOf_of_isIdentity hid.line]
    rfl
  · exact h.ballot_eq

/-- Term and vote are those of the last vote line. -/
lemma fold_ballot (h : fold cfg st k ls = some st') :
    st'.ballot = (votes ls).getLast?.getD st.ballot := by
  induction ls generalizing st k with
  | nil =>
    cases h
    rfl
  | cons x ls ih =>
    cases x with
    | torn => simp [fold] at h
    | record r =>
      obtain ⟨st1, hst1, h⟩ := bind_eq_some_iff.mp h
      rw [ih h, step_ballot hst1]
      cases hv : voteOf (.record r) with
      | none => simp [votes, hv]
      | some =>
        simp [votes, hv, getLast?_cons]

/-! ### Open snapshot transactions -/

/-- What is rebuilt, without the flags of the loop and the open snapshot transaction. -/
def core (st : Replay) : Replay :=
  { st with
    headerSeen := false
    baselineHave := false
    baselineChecked := false
    historyHave := false
    historyChecked := false
    pend := none }

/-- A line that leaves a snapshot transaction open: it opened it, or it went into it. -/
lemma step_pend (h : st.step cfg k r = some st') (hp' : st'.pend = some p) :
    st'.core = st.core ∧ voteOf (.record r) = none ∧
      (st.pend = none ∧ p.start = k ∨ ∃ p0, st.pend = some p0 ∧ p.start = p0.start) := by
  rcases replayed_of_step h with hid | h
  · obtain ⟨flags, epoch, rfl⟩ := hid.eq
    have hp : st.pend = some p := hp'
    obtain rfl : epoch = st.epoch := hid.epoch (by simp [hp])
    exact ⟨rfl, voteOf_of_isIdentity hid.line, .inr ⟨p, hp, rfl⟩⟩
  cases h with
  | vote t v e hp | commit i hp => cases hp.symm.trans hp'
  | push _ e _ hp hr h =>
    rw [push_eq h] at hp'
    cases hp.symm.trans hp'
  | pendPush _ e p0 _ hp hr h =>
    obtain rfl := pendPush_eq h
    cases hp'
    exact ⟨rfl, voteOf_of_entryOf hr, .inr ⟨p0, hp, rfl⟩⟩
  | openSnapshot v2 last lt ep g dg hp =>
    cases hp'
    exact ⟨rfl, rfl, .inl ⟨hp, rfl⟩⟩
  | swapIn start p0 _ hp h =>
    obtain ⟨t, g, rfl⟩ := swapIn_eq h
    cases hp'
  | cut start _ hp h =>
    obtain ⟨log, next, t, g, -, rfl⟩ := cut_eq h
    cases hp.symm.trans hp'

/-- The lines before an open snapshot transaction rebuild the same. -/
lemma fold_discard (h : fold cfg start 0 ls = some st) (hp : st.pend = some p) :
    p.start ≤ ls.length ∧ votes (ls.take p.start) = votes ls ∧
      ∃ st0, fold cfg start 0 (ls.take p.start) = some st0 ∧ st0.core = st.core ∧
        st0.pend = none := by
  induction ls using List.reverseRecOn generalizing st p with
  | nil =>
    cases h
    simp [start] at hp
  | append_singleton ls l ih =>
    cases l with
    | torn => simp [fold_torn] at h
    | record r =>
      obtain ⟨st1, hst1, hst2⟩ := fold_snoc h
      obtain ⟨hcore, hvote, ⟨hp1, hs⟩ | ⟨p1, hp1, hs⟩⟩ := step_pend hst2 hp
      all_goals
        have hvotes : votes (ls ++ [record r]) = votes ls := by simp [votes, hvote]
      · have hs : p.start = ls.length := by omega
        rw [hs, take_left, hvotes]
        exact ⟨by simp, rfl, st1, hst1, hcore.symm, hp1⟩
      · obtain ⟨hle, hv, st0, hst0, hcore0, hp0⟩ := ih hst1 hp1
        rw [hs, take_append_of_le_length hle, hvotes]
        exact ⟨by simp; omega, hv, st0, hst0, hcore0.trans hcore.symm, hp0⟩

section

variable (h : start.steps cfg 0 ls = some st)
include h

/-- The complete lines of a file that loads. -/
lemma fold_of_load :
    ∃ ls0, (ls = ls0 ∨ ls = ls0 ++ [torn] ∧ st.pend.isSome) ∧ fold cfg start 0 ls0 = some st := by
  rcases fold_of_steps h with ⟨hf, -⟩ | ⟨ls0, rfl, hf, hp⟩
  · exact ⟨ls, .inl rfl, hf⟩
  · exact ⟨ls0, .inr ⟨rfl, hp⟩, hf⟩

lemma load_ballot : st.ballot = (votes ls).getLast?.getD (0, none) := by
  obtain ⟨ls0, rfl | ⟨rfl, -⟩, hf⟩ := fold_of_load h
  · exact fold_ballot hf
  · rw [votes_append, show votes [torn] = [] from rfl, append_nil]
    exact fold_ballot hf

/-- Cutting off an open snapshot transaction changes nothing that was rebuilt. -/
lemma load_discard (hp : st.pend = some p) : votes (ls.take p.start) = votes ls ∧
      ∃ st0, fold cfg start 0 (ls.take p.start) = some st0 ∧ st0.core = st.core ∧
        st0.pend = none := by
  obtain ⟨ls0, rfl | ⟨rfl, -⟩, hf⟩ := fold_of_load h
  · exact (fold_discard hf hp).2
  · obtain ⟨hle, hv, hst0⟩ := fold_discard hf hp
    rw [take_append_of_le_length hle, hv, votes_append]
    exact ⟨by simp [votes, voteOf], hst0⟩

end

/-! ### Entries -/

/-- Every entry that the replay holds satisfies `Q`. -/
structure All (Q : Entry → Prop) (st : Replay) : Prop where
  log : ∀ e ∈ st.log, Q e
  snap : ∀ e ∈ st.snap.entries, Q e
  pend : ∀ p, st.pend = some p → ∀ e ∈ p.entries, Q e

variable {Q : Entry → Prop}

lemma all_start : All Q start := ⟨by simp [start], by simp [start, Snapshot.empty], by simp [start]⟩

section

variable (hst : All Q st) (hr : ∀ e, entryOf r = some e → Q e)
include hst hr

lemma All.replayed (h : Replayed st k r st') : All Q st' := by
  have hsnoc : ∀ {es : List Entry} {e : Entry}, (∀ x ∈ es, Q x) → entryOf r = some e →
      ∀ x ∈ es ++ [e], Q x := by
    intro es e hes he
    exact forall_mem_append.mpr ⟨hes, forall_mem_singleton.mpr (hr e he)⟩
  cases h with
  | vote | commit => exact { hst with }
  | push _ e _ hp he h =>
    obtain rfl := push_eq h
    exact ⟨hsnoc hst.log he, hst.snap, hst.pend⟩
  | pendPush _ e p _ hp he h =>
    obtain rfl := pendPush_eq h
    refine ⟨hst.log, hst.snap, ?_⟩
    rintro p' ⟨⟩
    exact hsnoc (hst.pend p hp) he
  | openSnapshot =>
    refine ⟨hst.log, hst.snap, ?_⟩
    rintro p ⟨⟩
    simp
  | swapIn start p _ hp h =>
    obtain ⟨t, g, rfl⟩ := swapIn_eq h
    exact ⟨fun e he => hst.log e (mem_of_mem_drop he), hst.pend p hp, by simp⟩
  | cut start _ hp h =>
    obtain ⟨log, next, t, g, hlog, rfl⟩ := cut_eq h
    exact ⟨fun e he => hst.log e (hlog e he), hst.snap, hst.pend⟩

lemma All.step (h : st.step cfg k r = some st') : All Q st' := by
  rcases replayed_of_step h with hid | h
  · obtain ⟨flags, epoch, rfl⟩ := hid.eq
    exact { hst with }
  · have hchecked : All Q st.checked := { hst with }
    exact hchecked.replayed hr h

end

/-- What holds of every announced entry holds of every rebuilt one. -/
lemma All.fold (hst : All Q st) (hls : ∀ r, record r ∈ ls → ∀ e, entryOf r = some e → Q e)
    (h : fold cfg st k ls = some st') : All Q st' :=
  fold_induction hst h fun _ _ r _ hr hst hstep => hst.step (hls r hr) hstep

end Replay

end Qihse.Consensus
