import Qihse.Consensus.Ballot
import Qihse.Replog.Protocol

/-!
# What a record file restores

`Recovers x q d` says that a file whose replay succeeds restores the durable state `x`. Whether the
replay succeeds is another matter: a file that is refused makes the node unavailable, not unsafe.
-/

namespace Qihse.Consensus

open Replay List Option

/-! ### Replayed snapshots -/

def lastTermOf (es : List Entry) : ℕ := es.getLast?.elim 0 (·.term)

/-- The header fields of a snapshot are those of its entries. -/
structure Snapshot.Ok (s : Snapshot) : Prop where
  length : s.entries.length = s.lastIncludedIndex
  term : s.lastIncludedTerm = lastTermOf s.entries

/-- What the replay keeps in order while it runs. -/
structure Tidy (st : Replay) : Prop where
  next : st.nextIndex = st.absLastIndex + 1
  snap : st.snap.Ok
  commit : st.snap.entries.length ≤ st.commit
  count : ∀ {p}, st.pend = some p → p.count = p.lastIndex
  term : ∀ {p}, st.pend = some p → p.termPrev = lastTermOf p.entries
  boundary : ∀ {p}, st.pend = some p → st.snap.entries.length < p.lastIndex

section

variable {st st' : Replay} {cfg : Config} {k : ℕ} {r : Record} {ls : List Line} {p : Pending}
  {e : Entry}

lemma tidy_start : Tidy start :=
  ⟨rfl, ⟨rfl, rfl⟩, le_rfl, nofun, nofun, nofun⟩

lemma Tidy.push (hst : Tidy st) (hp : st.pend = none) (h : st.push e = some st') : Tidy st' := by
  obtain rfl := push_eq h
  refine ⟨?_, hst.snap, hst.commit, by simp [hp], by simp [hp], by simp [hp]⟩
  have := hst.next
  simp only [Replay.absLastIndex, length_append, length_singleton] at this ⊢
  omega

lemma Tidy.pendPush (hst : Tidy st) (hp : st.pend = some p) (h : st.pendPush p e = some st') :
    Tidy st' := by
  have hcount := hst.count hp
  have hbound := hst.boundary hp
  obtain rfl := pendPush_eq h
  refine ⟨hst.next, hst.snap, hst.commit, ?_, ?_, ?_⟩
  · rintro q ⟨⟩
    exact hcount
  · rintro q ⟨⟩
    simp [lastTermOf]
  · rintro q ⟨⟩
    exact hbound

/-- The checks that close a snapshot transaction. -/
lemma swapIn_checks (h : st.swapIn p k = some st') :
    k = p.lastIndex + 1 ∧ p.entries.length = p.count ∧ p.termPrev = p.lastTerm := by
  unfold swapIn at h
  simp only [ite_none_left_eq_some] at h
  obtain ⟨h1, h2, -, h4, -⟩ := h
  exact ⟨not_not.mp h1, not_not.mp h2, not_not.mp h4⟩

lemma Tidy.swapIn (hst : Tidy st) (hp : st.pend = some p) (h : st.swapIn p k = some st') :
    Tidy st' := by
  obtain ⟨-, hlen, hterm⟩ := swapIn_checks h
  obtain ⟨t, g, rfl⟩ := swapIn_eq h
  have hnext := hst.next
  have hcount := hst.count hp
  have hbound := hst.boundary hp
  refine ⟨?_, ⟨hlen.trans hcount, hterm.symm.trans (hst.term hp)⟩, ?_, nofun, nofun, nofun⟩
  · simp only [Replay.absLastIndex, length_drop] at hnext ⊢
    omega
  · change p.entries.length ≤ max st.commit p.lastIndex
    omega

lemma cut_log (h : st.cut k = some st') : 1 ≤ k ∧ st.snap.entries.length < k ∧
    (∃ t g, st' = { st with
      log := st.log.take (k - 1 - st.snap.entries.length), nextIndex := k
      lastEntryTerm := t, lastGen := g } ∧ k < st.nextIndex) ∨ st' = st ∧ st.nextIndex ≤ k := by
  unfold cut at h
  split_ifs at h with h1 h2 h3
  · cases h
    obtain ⟨t, g, heq⟩ := settleTail_eq _
    exact .inl ⟨by omega, by omega, t, g, heq, h3⟩
  · cases h
    exact .inr ⟨rfl, by omega⟩

lemma Tidy.cut (hst : Tidy st) (hp : st.pend = none) (h : st.cut k = some st') : Tidy st' := by
  rcases cut_log h with ⟨h1, h2, t, g, rfl, h3⟩ | ⟨rfl, -⟩
  · refine ⟨?_, hst.snap, hst.commit, by simp [hp], by simp [hp], by simp [hp]⟩
    have := hst.next
    simp only [Replay.absLastIndex, length_take] at this ⊢
    omega
  · exact hst

lemma Tidy.replayed (hst : Tidy st) (h : Replayed st k r st') : Tidy st' := by
  cases h with
  | vote t v e hp =>
    exact ⟨hst.next, hst.snap, hst.commit, by simp [hp], by simp [hp], by simp [hp]⟩
  | push _ e _ hp hr h => exact hst.push hp h
  | pendPush _ e p _ hp hr h => exact hst.pendPush hp h
  | openSnapshot v2 last lt ep g dg hp hlast =>
    refine ⟨hst.next, hst.snap, hst.commit, ?_, ?_, ?_⟩ <;> rintro q ⟨⟩
    exacts [rfl, rfl, hlast]
  | swapIn start p _ hp h => exact hst.swapIn hp h
  | cut start _ hp h => exact hst.cut hp h
  | commit i hp hle =>
    exact ⟨hst.next, hst.snap, le_trans hst.commit hle, by simp [hp], by simp [hp],
      by simp [hp]⟩

lemma Tidy.step (hst : Tidy st) (h : st.step cfg k r = some st') : Tidy st' := by
  rcases replayed_of_step h with hid | h
  · obtain ⟨flags, epoch, rfl⟩ := hid.eq
    exact { hst with }
  · have hchecked : Tidy st.checked :=
      { hst with }
    exact hchecked.replayed h

lemma Tidy.fold (hst : Tidy st) (h : fold cfg st k ls = some st') : Tidy st' :=
  fold_induction hst h fun _ _ _ _ _ hst => hst.step

end

/-! ### Restored states -/

/-- The replayed state is the durable part of `x`. -/
structure Restores (x : Replog.Node Uuid Entry) (st : Replay) : Prop where
  term : st.term = x.term
  vote : st.votedFor = x.vote
  log : st.snap.entries ++ st.log = x.log
  commit : st.commit = x.commit

/-- A file that is replayed successfully restores `x`, and holds no open snapshot transaction if it
is `settled`. -/
def Recovers (x : Replog.Node Uuid Entry) (settled : Prop) (d : List Line) : Prop :=
  ∀ cfg ls st, (d = ls ∨ d = ls ++ [Line.torn]) → fold cfg start 0 ls = some st →
    Restores x st ∧ (settled → st.pend = none)

/-- The lines that an entry is printed as are read back as that entry. -/
def Entry.Canonical (e : Entry) : Prop :=
  ∀ r e', e.persistAny = some r ∨ e.persistSnapshotEntry = some r → entryOf r = some e' → e' = e

section

variable {x x' : Replog.Node Uuid Entry} {q : Prop} {d : List Line} {r : Record} {e : Entry}

section

variable (h : Recovers x q d)
include h

/-- One more line: what it does to any state that the file may restore. -/
lemma Recovers.append
    (hstep : ∀ k st st', Tidy st → Restores x st → (q → st.pend = none) → Replayed st k r st' →
      Restores x' st' ∧ (q → st'.pend = none)) (hr : isIdentity r = false) :
    Recovers x' q (d ++ [Line.record r]) := by
  rintro cfg ls st (rfl | hd) hfold
  · obtain ⟨st1, hst1, hst⟩ := fold_snoc hfold
    obtain ⟨hx, hq⟩ := h cfg d st1 (.inl rfl) hst1
    have htidy := tidy_start.fold hst1
    rcases replayed_of_step hst with hid | hst
    · exact absurd hid.line (by simp [hr])
    · refine hstep _ st1.checked st ?_ { hx with } hq hst
      exact { htidy with }
  · simp at hd

lemma Recovers.torn : Recovers x q (d ++ [Line.torn]) := by
  rintro cfg ls st (rfl | hd) hfold
  · simp [fold_torn] at hfold
  · rw [append_cancel_right hd] at h
    exact h cfg ls st (.inl rfl) hfold

lemma Recovers.weaken {q' : Prop} (hq : q' → q) : Recovers x q' d :=
  fun cfg ls st hd hfold => ⟨(h cfg ls st hd hfold).1, fun hq' => (h cfg ls st hd hfold).2 (hq hq')⟩

/-- Only the durable part counts. -/
lemma Recovers.congr (hterm : x'.term = x.term) (hvote : x'.vote = x.vote)
    (hlog : x'.log = x.log) (hcommit : x'.commit = x.commit) : Recovers x' q d := by
  intro cfg ls st hd hfold
  obtain ⟨hx, hq⟩ := h cfg ls st hd hfold
  exact ⟨⟨hx.term.trans hterm.symm, hx.vote.trans hvote.symm, hx.log.trans hlog.symm,
    hx.commit.trans hcommit.symm⟩, hq⟩

lemma Recovers.vote {t e : ℕ} {v : Option Uuid} (hterm : x'.term = t)
    (hvote : x'.vote = v) (hlog : x'.log = x.log) (hcommit : x'.commit = x.commit) :
    Recovers x' q (d ++ [Line.record (.vote t v e)]) := by
  refine h.append (fun k st st' _ hx hq hst => ?_) rfl
  cases hst with
  | vote _ _ _ hp =>
    exact ⟨⟨hterm.symm, hvote.symm, hx.log.trans hlog.symm, hx.commit.trans hcommit.symm⟩,
      fun _ => hp⟩
  | push _ _ _ _ hr | pendPush _ _ _ _ _ hr => cases hr

lemma Recovers.commit {i : ℕ} (hterm : x'.term = x.term)
    (hvote : x'.vote = x.vote) (hlog : x'.log = x.log) (hcommit : x'.commit = i) :
    Recovers x' q (d ++ [Line.record (.commit i)]) := by
  refine h.append (fun k st st' _ hx hq hst => ?_) rfl
  cases hst with
  | commit _ hp =>
    exact ⟨⟨hx.term.trans hterm.symm, hx.vote.trans hvote.symm, hx.log.trans hlog.symm,
      hcommit.symm⟩, fun _ => hp⟩
  | push _ _ _ _ hr | pendPush _ _ _ _ _ hr => cases hr

end

lemma isIdentity_of_announces (h : announces r) : isIdentity r = false := by
  cases r <;> first | rfl | cases h

lemma Recovers.store (h : Recovers x q d) (hq : q) (he : e.Canonical) (hr : e.persistAny = some r)
    (hterm : x'.term = x.term) (hvote : x'.vote = x.vote) (hlog : x'.log = x.log ++ [e])
    (hcommit : x'.commit = x.commit) : Recovers x' q (d ++ [Line.record r]) := by
  have hann := persistAny_announces hr
  refine h.append (fun k st st' _ hx hp hst => ?_) (isIdentity_of_announces hann)
  have hp := hp hq
  rcases hst.announced hann with ⟨e', -, hr', hpush⟩ | ⟨_, p, hp', -⟩
  · obtain rfl := he r e' (.inl hr) hr'
    obtain rfl := push_eq hpush
    refine ⟨⟨hx.term.trans hterm.symm, hx.vote.trans hvote.symm, ?_, hx.commit.trans hcommit.symm⟩,
      fun _ => hp⟩
    rw [hlog, ← hx.log, append_assoc]
  · simp [hp] at hp'

lemma Recovers.cut (h : Recovers x q d) (hq : q) {k : ℕ} (hterm : x'.term = x.term)
    (hvote : x'.vote = x.vote) (hlog : x'.log = x.log.take k) (hcommit : x'.commit = x.commit) :
    Recovers x' q (d ++ [Line.record (.truncate (k + 1))]) := by
  refine h.append (fun _ st st' htidy hx hp hst => ?_) rfl
  have hp := hp hq
  cases hst with
  | push _ _ _ _ hr | pendPush _ _ _ _ _ hr => cases hr
  | swapIn _ p _ hp' => simp [hp] at hp'
  | cut _ _ _ hcut =>
    rcases cut_log hcut with ⟨-, hsnap, t, g, rfl, -⟩ | ⟨rfl, hnext⟩
    · refine ⟨⟨hx.term.trans hterm.symm, hx.vote.trans hvote.symm, ?_,
        hx.commit.trans hcommit.symm⟩, fun _ => hp⟩
      have hpre : st.snap.entries.take k = st.snap.entries := take_of_length_le (by omega)
      change st.snap.entries ++ st.log.take (k + 1 - 1 - st.snap.entries.length) = _
      rw [hlog, ← hx.log, take_append, hpre, Nat.add_sub_cancel]
    · refine ⟨⟨hx.term.trans hterm.symm, hx.vote.trans hvote.symm, ?_,
        hx.commit.trans hcommit.symm⟩, fun _ => hp⟩
      rw [hlog, ← hx.log, take_of_length_le]
      have := htidy.next
      simp only [Replay.absLastIndex] at this
      simp only [length_append]
      omega

end

/-! ### Snapshot transactions -/

/-- Lines that went into an open snapshot transaction, for the entries `es`. -/
structure Gathered (st : Replay) (p : Pending) (es : List Entry) (st' : Replay) : Prop where
  core : st'.core = st.core
  pend : ∃ p', st'.pend = some p' ∧ p'.entries = p.entries ++ es ∧ p'.lastIndex = p.lastIndex
  agree : ∀ j e, es[j]? = some e → p.entries.length + j + 1 < st.nextIndex →
    ∃ l, (st.snap.entries ++ st.log)[p.entries.length + j]? = some l ∧ l.identical e

section

variable {st st' : Replay} {p : Pending} {e : Entry} {es : List Entry} {rs : List Record}
  {cfg : Config} {k : ℕ} {v2 : Bool} {s : Snapshot}

lemma core_fields (h : st'.core = st.core) : st'.term = st.term ∧ st'.votedFor = st.votedFor ∧
    st'.snap = st.snap ∧ st'.log = st.log ∧ st'.commit = st.commit ∧ st'.nextIndex = st.nextIndex :=
  ⟨congrArg (fun s => s.term) h, congrArg (fun s => s.votedFor) h, congrArg (fun s => s.snap) h,
    congrArg (fun s => s.log) h, congrArg (fun s => s.commit) h, congrArg (fun s => s.nextIndex) h⟩

lemma gathered_one (h : st.pendPush p e = some st') : Gathered st p [e] st' := by
  have heq := pendPush_eq h
  unfold pendPush at h
  simp only [ite_none_left_eq_some] at h
  obtain ⟨-, h2, -, -, -, h6, -⟩ := h
  subst heq
  refine ⟨rfl, ⟨_, rfl, rfl, rfl⟩, fun j x hj hlt => ?_⟩
  obtain ⟨rfl, rfl⟩ : j = 0 ∧ e = x := by
    cases j with
    | zero => simpa using hj
    | succ => simp at hj
  have hindex : e.index = p.entries.length + 1 := not_not.mp h2
  have hlt : p.entries.length + 1 < st.nextIndex := hlt
  rw [hindex, logEntryAt_succ] at h6
  cases hl : (st.snap.entries ++ st.log)[p.entries.length]? with
  | none => simp [hl, hlt] at h6
  | some l => exact ⟨l, rfl, by simpa [hl, hlt] using h6⟩

lemma Gathered.cons {st1 st2 : Replay} {p1 : Pending} (h1 : Gathered st p [e] st1)
    (hp1 : st1.pend = some p1) (h2 : Gathered st1 p1 es st2) : Gathered st p (e :: es) st2 := by
  obtain ⟨p', hp', hentries, hlast⟩ := h1.pend
  obtain rfl : p' = p1 := by
    rw [hp1] at hp'
    exact (Option.some.inj hp').symm
  obtain ⟨q, hq, hqe, hql⟩ := h2.pend
  obtain ⟨-, -, hsnap, hlog, -, hnext⟩ := core_fields h1.core
  refine ⟨h2.core.trans h1.core, ⟨q, hq, ?_, hql.trans hlast⟩, fun j x hj hlt => ?_⟩
  · rw [hqe, hentries, append_assoc, singleton_append]
  · cases j with
    | zero => exact h1.agree 0 x hj hlt
    | succ j =>
      have hlen : p'.entries.length + j = p.entries.length + (j + 1) := by
        rw [hentries]
        simp
        omega
      have hag := h2.agree j x hj (by omega)
      rwa [hlen, hsnap, hlog] at hag

lemma gathered_of_fold (hcan : ∀ e ∈ es, e.Canonical)
    (hes : es.mapM Entry.persistSnapshotEntry = some rs) (hp : st.pend = some p)
    (h : fold cfg st k (rs.map .record) = some st') : Gathered st p es st' := by
  induction es generalizing st p k rs with
  | nil =>
    cases hes
    cases h
    exact ⟨rfl, ⟨p, hp, by simp, rfl⟩, by simp⟩
  | cons e es ih =>
    simp only [mapM_cons, bind_eq_bind, bind_eq_some_iff] at hes
    obtain ⟨r, hr, rs', hrs, heq⟩ := hes
    cases heq
    obtain ⟨st1, hst1, h⟩ := bind_eq_some_iff.mp h
    have hann := persistSnapshotEntry_announces hr
    rcases replayed_of_step hst1 with hid | hst1
    · exact absurd hid.line (by simp [isIdentity_of_announces hann])
    rcases hst1.announced hann with ⟨_, hp', -⟩ | ⟨e', p', hp', hr', hpush⟩
    · exact absurd (hp.symm.trans hp') nofun
    · obtain rfl : p = p' := Option.some.inj (hp.symm.trans hp')
      obtain rfl := hcan e (by simp) r e' (.inr hr) hr'
      have h1 := gathered_one hpush
      obtain ⟨p1, hp1, -⟩ := h1.pend
      have h1' : Gathered st p [e'] st1 := { h1 with }
      exact h1'.cons hp1 (ih (fun x hx => hcan x (by simp [hx])) hrs hp1 h)

/-- The opening line of a snapshot transaction. -/
lemma opened_of_step (h : st.step cfg k (s.beginRecord v2) = some st') :
    st.pend = none ∧ st'.core = st.core ∧ ∃ p, st'.pend = some p ∧ p.entries = [] ∧
      p.lastIndex = s.lastIncludedIndex ∧ s.entries.length = s.lastIncludedIndex ∧
        st.snap.entries.length < s.lastIncludedIndex := by
  unfold Snapshot.beginRecord at h
  generalize hcount : s.entries.length = count at h ⊢
  rcases replayed_of_step h with hid | h
  · exact absurd hid.line (by simp [isIdentity])
  · cases h with
    | push _ _ _ _ hr | pendPush _ _ _ _ _ hr => cases hr
    | openSnapshot _ _ _ _ _ _ hp hlast => exact ⟨hp, rfl, _, rfl, rfl, rfl, rfl, hlast⟩

end

section

variable {x x' : Replog.Node Uuid Entry} {q : Prop} {d : List Line} {st st' : Replay}
  {rs : List Record} {v2 : Bool} {s : Snapshot} {cfg : Config} {k : ℕ}

lemma Restores.core (h : Restores x st) (hcore : st'.core = st.core) : Restores x st' := by
  obtain ⟨h1, h2, h3, h4, h5, -⟩ := core_fields hcore
  exact ⟨h1.trans h.term, h2.trans h.vote, by rw [h3, h4, h.log], h5.trans h.commit⟩

/-- The lines before the closing one of a snapshot transaction. -/
lemma gathered_of_lines {es : List Entry} (hcan : ∀ e ∈ es, e.Canonical)
    (hes : es.mapM Entry.persistSnapshotEntry = some rs)
    (h : fold cfg st k ((s.beginRecord v2 :: rs).map .record) = some st') :
    st.pend = none ∧ ∃ st1 p, st1.core = st.core ∧ p.entries = [] ∧
      p.lastIndex = s.lastIncludedIndex ∧ s.entries.length = s.lastIncludedIndex ∧
        st.snap.entries.length < s.lastIncludedIndex ∧ Gathered st1 p es st' := by
  obtain ⟨st1, hst1, h⟩ := bind_eq_some_iff.mp h
  obtain ⟨hp, hcore, p, hp1, hentries, hlast, hlen, hsnap⟩ := opened_of_step hst1
  exact ⟨hp, st1, p, hcore, hentries, hlast, hlen, hsnap, gathered_of_fold hcan hes hp1 h⟩

section

variable (h : Recovers x q d)
include h

/-- A snapshot transaction that was cut short restores the state before it. -/
lemma Recovers.cutShort (hcan : ∀ e ∈ s.entries, e.Canonical)
    (hrs : PartialSnapshot v2 s rs) : Recovers x False (d ++ rs.map .record) := by
  rcases hrs with rfl | ⟨j, es, hes, rfl⟩
  · simpa using h.weaken False.elim
  · have hcan' : ∀ e ∈ s.entries.take j, e.Canonical :=
      fun e he => hcan e (mem_of_mem_take he)
    rintro cfg ls st (rfl | hd) hfold
    · rw [fold_append] at hfold
      obtain ⟨st1, hst1, hfold⟩ := bind_eq_some_iff.mp hfold
      obtain ⟨-, st2, p, hcore, -, -, -, -, hg⟩ := gathered_of_lines hcan' hes hfold
      exact ⟨(h cfg d st1 (.inl rfl) hst1).1.core (hg.core.trans hcore), False.elim⟩
    · have hmem : Line.torn ∈ (s.beginRecord v2 :: es).map Line.record := by
        have hlast := congrArg List.getLast? hd
        rw [getLast?_append_of_ne_nil _ (by simp), getLast?_concat] at hlast
        exact mem_of_getLast? hlast
      simp at hmem

/-- A closed snapshot transaction replaces the prefix that it covers. -/
lemma Recovers.snapshot (hcan : ∀ e ∈ s.entries, e.Canonical)
    (hrs : snapshotRecords v2 s = some rs) (hterm : x'.term = x.term) (hvote : x'.vote = x.vote)
    (hlog : (∀ j e, s.entries[j]? = some e → j < x.log.length →
        ∃ l, x.log[j]? = some l ∧ l.identical e) →
      x'.log = s.entries ++ x.log.drop s.lastIncludedIndex)
    (hcommit : x'.commit = max x.commit s.lastIncludedIndex) :
    Recovers x' q (d ++ rs.map .record) := by
  obtain ⟨es, hes, rfl⟩ := map_eq_some_iff.mp hrs
  rw [cons_append, ← cons_append, map_append, ← append_assoc]
  rintro cfg ls st (rfl | hd) hfold
  · obtain ⟨st2, hst2, hstep⟩ := fold_snoc hfold
    rw [fold_append] at hst2
    obtain ⟨st0, hst0, hst2⟩ := bind_eq_some_iff.mp hst2
    obtain ⟨-, st1, p, hcore, hempty, hlast, hlen, hsnap, hg⟩ := gathered_of_lines hcan hes hst2
    have htidy := tidy_start.fold hst0
    have hx := (h cfg d st0 (.inl rfl) hst0).1
    obtain ⟨p', hp', hentries, hlast'⟩ := hg.pend
    rw [hempty, nil_append] at hentries
    obtain ⟨c1, c2, c3, c4, c5, c6⟩ := core_fields (hg.core.trans hcore)
    obtain ⟨-, -, d3, d4, -, d6⟩ := core_fields hcore
    have hnext := htidy.next
    have hlength : st0.snap.entries.length + st0.log.length = x.log.length := by
      rw [← hx.log, length_append]
    -- the entries of the transaction agree with those the file had before
    have hagree : ∀ j e, s.entries[j]? = some e → j < x.log.length →
        ∃ l, x.log[j]? = some l ∧ l.identical e := by
      intro j e hj hlt
      have hag := hg.agree j e hj
      rw [hempty, d3, d4, hx.log, d6] at hag
      simp only [length_nil, zero_add] at hag
      refine hag ?_
      rw [hnext, Replay.absLastIndex]
      omega
    rcases replayed_of_step hstep with hid | hstep
    · exact absurd hid.line (by simp [isIdentity])
    cases hstep with
    | push _ _ _ _ hr | pendPush _ _ _ _ _ hr => cases hr
    | cut _ _ hp => exact absurd (hp'.symm.trans hp) (by rintro ⟨⟩)
    | swapIn _ q _ hq hswap =>
      obtain rfl : p' = q := Option.some.inj (hp'.symm.trans hq)
      obtain ⟨t, g, rfl⟩ := swapIn_eq hswap
      refine ⟨⟨c1.trans (hx.term.trans hterm.symm), c2.trans (hx.vote.trans hvote.symm), ?_, ?_⟩,
        fun _ => rfl⟩
      · change p'.entries ++ st2.log.drop (st2.log.length - (st2.absLastIndex - p'.lastIndex)) = _
        rw [hlog hagree, hentries, Replay.absLastIndex, c3, c4, hlast', hlast, ← hx.log]
        congr 1
        rw [drop_append, drop_of_length_le (le_of_lt hsnap), nil_append]
        rcases lt_or_ge x.log.length s.lastIncludedIndex with hlt | hge
        · rw [drop_of_length_le (by omega), drop_of_length_le (by omega)]
        · congr 1
          omega
      · change max st2.commit p'.lastIndex = _
        rw [c5, hx.commit, hcommit, hlast', hlast]
  · exact absurd (append_inj_right' hd rfl) (by simp)

/-- The part of a file before an open snapshot transaction. -/
lemma Recovers.discard {p : Pending} (hst : start.steps cfg 0 d = some st) (hp : st.pend = some p) :
    Recovers x True (d.take p.start) := by
  obtain ⟨ls0, hd0, hfold0⟩ := fold_of_load hst
  have hx := (h cfg ls0 st (hd0.imp_right And.left) hfold0).1
  obtain ⟨-, st0, hst0, hcore, hpend⟩ := load_discard hst hp
  rintro cfg' ls st' (heq | heq) hfold
  · rw [← heq] at hfold
    obtain rfl := fold_config hst0 hfold
    exact ⟨hx.core hcore, fun _ => hpend⟩
  · rw [heq, fold_torn] at hst0
    cases hst0

/-- A file that was loaded and holds no open snapshot transaction. -/
lemma Recovers.close (hst : start.steps cfg 0 d = some st)
    (hp : st.pend = none) : Recovers x True d := by
  obtain ⟨ls0, hd0, hfold0⟩ := fold_of_load hst
  intro cfg' ls st' hd hfold
  refine ⟨(h cfg' ls st' hd hfold).1, fun _ => ?_⟩
  -- a line that is cut is never replayed, so both readings of the file stop at the same line
  have heq : ls = ls0 := by
    rcases hd with rfl | rfl <;> rcases hd0 with hd0 | ⟨hd0, -⟩
    · exact hd0
    · rw [hd0, fold_torn] at hfold
      cases hfold
    · rw [← hd0, fold_torn] at hfold0
      cases hfold0
    · exact append_cancel_right hd0
  subst heq
  rw [fold_config hfold0 hfold]
  exact hp

end

/-- A file without anything but identity lines restores the initial state. -/
lemma recovers_identity {role : Replog.Role} (hd : ∀ l ∈ d, l.isIdentity) :
    Recovers ⟨0, none, [], 0, role⟩ True d := by
  have hfold : ∀ {cfg : Config} {ls : List Line} {st st' : Replay} {k : ℕ},
      (∀ l ∈ ls, l.isIdentity) → Restores ⟨0, none, [], 0, role⟩ st ∧ st.pend = none →
      fold cfg st k ls = some st' → Restores ⟨0, none, [], 0, role⟩ st' ∧ st'.pend = none := by
    intro cfg ls st st' k hls hst h
    refine fold_induction (P := fun st => Restores _ st ∧ st.pend = none) hst h
      fun st k r st1 hr hst hst1 => ?_
    obtain ⟨flags, epoch, rfl⟩ := (identified_of_step (hls _ hr) hst1).eq
    exact ⟨{ hst.1 with }, hst.2⟩
  rintro cfg ls st hls hst
  have hid : ∀ l ∈ ls, l.isIdentity := by
    intro l hl
    rcases hls with rfl | rfl
    · exact hd l hl
    · exact hd l (by simp [hl])
  obtain ⟨hx, hp⟩ := hfold hid ⟨⟨rfl, rfl, rfl, rfl⟩, rfl⟩ hst
  exact ⟨hx, fun _ => hp⟩

end

end Qihse.Consensus
