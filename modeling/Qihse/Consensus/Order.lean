import Qihse.Consensus.Open
import Qihse.Consensus.Fold

/-!
# Orderly logs

What every log looks like, whoever wrote it: entries are numbered from one, terms never fall,
generations rise strictly, and no term exceeds the node's own. `Node.Regular` adds what else a
message that leaves the node depends on. The replay of a record file checks all of it again, so that
a loaded node is regular whatever is in its file.
-/

namespace Qihse.Consensus

open List Option Node Replay Snapshot Entry

/-! ### Logs -/

lemma Entry.Before.trans {a b c : Entry} (h : a.Before b) (h' : b.Before c) : a.Before c :=
  ⟨h.1.trans h'.1, h.2.trans h'.2⟩

/-- A log whose terms do not exceed `term`. -/
structure Orderly (term : ℕ) (es : List Entry) : Prop where
  numbered : ∀ k e, es[k]? = some e → e.index = k + 1
  small : ∀ e ∈ es, e.payload.length ≤ payloadMax
  bounded : ∀ e ∈ es, e.term ≤ term
  rising : es.Pairwise Before

section

variable {term term' : ℕ} {es : List Entry} {e l : Entry}

lemma orderly_nil (term : ℕ) : Orderly term [] :=
  ⟨by simp, by simp, by simp, .nil⟩

lemma Orderly.mono (h : Orderly term es) (hle : term ≤ term') : Orderly term' es :=
  { h with bounded := fun e he => (h.bounded e he).trans hle }

lemma Orderly.take (h : Orderly term es) (k : ℕ) : Orderly term (es.take k) := by
  refine ⟨fun i e hi => ?_, fun e he => h.small e (mem_of_mem_take he),
    fun e he => h.bounded e (mem_of_mem_take he), h.rising.sublist (take_sublist k es)⟩
  rw [getElem?_take] at hi
  split_ifs at hi
  exact h.numbered i e hi

/-- Every entry stands before the last one, or is it. -/
lemma before_or_last (h : es.Pairwise Before) (hl : es.getLast? = some l) (he : e ∈ es) :
    e = l ∨ e.Before l := by
  obtain ⟨init, rfl⟩ := getLast?_eq_some_iff.mp hl
  rcases mem_append.mp he with he | he
  · exact .inr ((pairwise_append.mp h).2.2 e he l (by simp))
  · exact .inl (mem_singleton.mp he)

/-- The last entry has the largest term and generation. -/
lemma Orderly.le_last (h : Orderly term es) (hl : es.getLast? = some l) (he : e ∈ es) :
    e.term ≤ l.term ∧ e.journalGeneration ≤ l.journalGeneration := by
  rcases before_or_last h.rising hl he with rfl | hb
  · exact ⟨le_rfl, le_rfl⟩
  · exact ⟨hb.1, hb.2.le⟩

/-- Entries that stand behind the last one may follow. -/
lemma pairwise_append_last {xs : List Entry} (h : es.Pairwise Before)
    (hxs : xs.Pairwise Before) (hlast : ∀ l, es.getLast? = some l → ∀ x ∈ xs, l.Before x) :
    (es ++ xs).Pairwise Before := by
  refine pairwise_append.mpr ⟨h, hxs, fun a ha x hx => ?_⟩
  obtain ⟨l, hl⟩ : ∃ l, es.getLast? = some l :=
    ⟨_, getLast?_eq_some_getLast (ne_nil_of_mem ha)⟩
  rcases before_or_last h hl ha with rfl | hb
  · exact hlast a hl x hx
  · exact hb.trans (hlast _ hl x hx)

/-- One more entry. -/
lemma Orderly.push (h : Orderly term es) (hindex : e.index = es.length + 1)
    (hsmall : e.payload.length ≤ payloadMax) (hterm : e.term ≤ term)
    (hlast : ∀ l, es.getLast? = some l → l.Before e) : Orderly term (es ++ [e]) := by
  refine ⟨fun k x hx => ?_, forall_mem_append.mpr ⟨h.small, forall_mem_singleton.mpr hsmall⟩,
    forall_mem_append.mpr ⟨h.bounded, forall_mem_singleton.mpr hterm⟩, ?_⟩
  · rcases lt_trichotomy k es.length with hk | rfl | hk
    · rw [getElem?_append_left hk] at hx
      exact h.numbered k x hx
    · rw [getElem?_append_right le_rfl, Nat.sub_self] at hx
      cases hx
      exact hindex
    · rw [getElem?_eq_none (by simp; omega)] at hx
      exact absurd hx nofun
  · exact pairwise_append_last h.rising (pairwise_singleton _ _) fun l hl =>
      forall_mem_singleton.mpr (hlast l hl)

end

/-! ### Nodes -/

/-- The fields of a snapshot are those of its last entry, and its epoch fences its term. -/
structure Snapshot.Regular (s : Snapshot) : Prop where
  last : ∀ e, s.entries.getLast? = some e →
    e.term = s.lastIncludedTerm ∧ e.journalGeneration = s.journalGeneration
  fenced : s.lastIncludedTerm ≤ s.epoch
  size : s.entries.length ≤ snapshotStreamMaxEntries

/-- The configuration names the group and every member properly. -/
structure Config.Named (cfg : Config) : Prop where
  group : groupIdValid cfg.groupId
  self : cfg.self.isNil = false
  members : ∀ m ∈ cfg.members, m.id.isNil = false

/-- What the messages of a node depend on. -/
structure Node.Regular (n : Node) : Prop where
  named : n.cfg.Named
  members : ∀ m ∈ n.members, m.id.isNil = false
  ducks : ∀ d ∈ n.ducks, d.id.isNil = false
  epoch : n.term ≤ n.epoch
  log : Orderly n.term n.entries
  snap : n.snap.Regular
  snapTerm : n.snap.lastIncludedTerm ≤ n.term
  snapEpoch : n.snap.epoch ≤ n.epoch

variable {n : Node}

/-- The fields that `Regular` reads. -/
lemma Node.Regular.congr {n' : Node} (h : n.Regular) (hcfg : n'.cfg = n.cfg)
    (hterm : n'.term = n.term) (hepoch : n'.epoch = n.epoch) (hlog : n.SameLog n')
    (hmembers : n'.members = n.members) (hducks : n'.ducks = n.ducks) : n'.Regular where
  named := hcfg ▸ h.named
  members := hmembers ▸ h.members
  ducks := hducks ▸ h.ducks
  epoch := hterm ▸ hepoch ▸ h.epoch
  log := by rw [hterm, hlog.entries]; exact h.log
  snap := hlog.snap ▸ h.snap
  snapTerm := hlog.snap ▸ hterm ▸ h.snapTerm
  snapEpoch := hlog.snap ▸ hepoch ▸ h.snapEpoch

/-! ### Effective members -/

variable {ms : List Member} {e : Entry}

lemma foldApply_named {ms' : List Member} (h : foldApply ms e = some ms')
    (hnil : e.uuid.isNil = false) (hms : ∀ m ∈ ms, m.id.isNil = false) :
    ∀ m ∈ ms', m.id.isNil = false := by
  unfold foldApply at h
  split_ifs at h
  · cases h
    exact hms
  · cases h
    exact forall_mem_append.mpr ⟨hms, forall_mem_singleton.mpr hnil⟩
  · cases h
    exact fun m hm => hms m (mem_of_mem_eraseP hm)

lemma Entry.uuid_of_configEntryValid (h : e.configEntryValid)
    (htype : e.type = .configAdd ∨ e.type = .configRemove) : e.uuid.isNil = false := by
  unfold configEntryValid at h
  rcases htype with ht | ht
  · simp only [ht, Bool.and_eq_true, Bool.not_eq_true'] at h
    exact h.1.2
  · simp only [ht, Bool.and_eq_true, Bool.not_eq_true'] at h
    exact h.2

lemma Node.foldMembership_named {extra : Option Entry} (h : n.foldMembership extra = some ms)
    (hcfg : n.cfg.Named) : ∀ m ∈ ms, m.id.isNil = false := by
  obtain ⟨f, hf, -, rfl⟩ := foldMembership_eq_some.mp h
  obtain ⟨g, hg, -, -, rfl, -⟩ := foldFull_eq_some.mp hf
  have hnamed := Fold.steps_members (P := fun ms => ∀ m ∈ ms, m.id.isNil = false)
    (fun hvalid htype hms => foldApply_named hms (uuid_of_configEntryValid hvalid htype)) hg
  exact hnamed hcfg.members

variable {ducks : List LameDuck}

lemma mem_dropDuck {u : Uuid} {d : LameDuck} (h : d ∈ dropDuck ducks u) : d ∈ ducks := by
  unfold dropDuck at h
  split at h
  · exact h
  · split at h
    · exact h
    · rename_i l hl
      have h := (dropLast_sublist _).subset h
      rcases mem_or_eq_of_mem_set h with h | rfl
      · exact h
      · exact mem_of_getLast? hl

/-- The ducks after a change of the members are old ducks or old members. -/
lemma mem_trackDuck {members : List Member} {lastConfig : ℕ} {old : Member} {d : LameDuck}
    (h : d ∈ trackDuck members lastConfig ducks old) : d ∈ ducks ∨ d.id = old.id := by
  unfold trackDuck at h
  split_ifs at h
  · exact .inl (mem_dropDuck h)
  · exact .inl h
  · exact .inl h
  all_goals
    exact (mem_append.mp h).imp_right fun h => by rw [mem_singleton.mp h]

lemma ducks_named {members olds : List Member} {lastConfig : ℕ}
    (hducks : ∀ d ∈ ducks, d.id.isNil = false) (holds : ∀ m ∈ olds, m.id.isNil = false) :
    ∀ d ∈ olds.foldl (trackDuck members lastConfig) ducks, d.id.isNil = false := by
  refine List.foldlRecOn (motive := fun ducks : List LameDuck => ∀ d ∈ ducks, d.id.isNil = false)
    olds _ hducks fun ducks hducks m hm d hd => ?_
  rcases mem_trackDuck hd with hd | hd
  · exact hducks d hd
  · rw [hd]
    exact holds m hm

lemma Node.setMembership_ducks (n : Node) (ms : List Member) : (n.setMembership ms).ducks =
    n.members.foldl (trackDuck ms n.lastConfigIndex) n.ducks := by
  unfold setMembership
  simp only
  split_ifs <;> rfl

lemma Node.Regular.setMembership (h : n.Regular) (hms : ∀ m ∈ ms, m.id.isNil = false) :
    (n.setMembership ms).Regular := by
  have hf := n.refolded_setMembership ms
  refine ⟨hf.cfg ▸ h.named, ?_, ?_, hf.term ▸ hf.epoch ▸ h.epoch, ?_,
    hf.sameLog.snap ▸ h.snap, ?_, ?_⟩
  · rw [n.setMembership_members]
    exact hms
  · rw [n.setMembership_ducks]
    exact ducks_named h.ducks h.members
  · rw [hf.term, hf.sameLog.entries]
    exact h.log
  · rw [hf.sameLog.snap, hf.term]
    exact h.snapTerm
  · rw [hf.sameLog.snap, hf.epoch]
    exact h.snapEpoch

lemma Node.Regular.recomputed (h : n.Regular) : n.recomputed.Regular := by
  rcases n.recomputed_cases with heq | ⟨ms, hms, -, heq⟩
  · rw [heq]
    exact h
  · rw [heq]
    exact h.setMembership (foldMembership_named hms h.named)

/-! ### Replay -/

/-- What the replay has checked of an open snapshot transaction. -/
structure Pending.Regular (st : Replay) (p : Pending) : Prop where
  log : Orderly st.term p.entries
  last : ∀ e, p.entries.getLast? = some e → e.term = p.termPrev ∧ e.journalGeneration = p.genPrev
  count : p.count = p.lastIndex
  size : p.count ≤ snapshotStreamMaxEntries
  fenced : p.lastTerm ≤ p.epoch
  epoch : p.epoch ≤ st.epoch
  term : p.lastTerm ≤ st.term
  beyond : st.snap.entries.length < p.lastIndex
  agrees : ∀ k e, p.entries[k]? = some e → k < st.absLastIndex →
    ∃ l, (st.snap.entries ++ st.log)[k]? = some l ∧ l.identical e

namespace Replay

variable {cfg : Config} {st st' : Replay} {k : ℕ} {ls : List Line} {r : Record} {e : Entry}
  {p : Pending}

def entries (st : Replay) : List Entry := st.snap.entries ++ st.log

lemma length_entries (st : Replay) : st.entries.length = st.absLastIndex := by
  simp [entries, absLastIndex]

/-- What the replay of a file has checked. -/
structure Regular (st : Replay) : Prop where
  epoch : st.term ≤ st.epoch
  log : Orderly st.term st.entries
  next : st.nextIndex = st.absLastIndex + 1
  tail : ∀ e, st.entries.getLast? = some e →
    e.term = st.lastEntryTerm ∧ e.journalGeneration = st.lastGen
  snap : st.snap.Regular
  snapTerm : st.snap.lastIncludedTerm ≤ st.term
  snapEpoch : st.snap.epoch ≤ st.epoch
  pend : ∀ p, st.pend = some p → p.Regular st
  early : st.historyChecked = false → st.term = 0 ∧ st.snap = .empty

lemma regular_start : start.Regular :=
  ⟨le_rfl, orderly_nil 0, rfl, by simp [start, entries, empty],
    ⟨nofun, le_rfl, by simp [start, empty]⟩, le_rfl, le_rfl, by simp [start], fun _ => ⟨rfl, rfl⟩⟩

/-- An announced entry has a payload within the limit. -/
lemma entryOf_small (h : entryOf r = some e) : e.payload.length ≤ payloadMax := by
  cases r with
  | entry =>
    simp only [entryOf, dataEntry] at h
    split_ifs at h with h1 h2
    cases h
    exact Nat.le_of_not_lt fun hlt => h2 (.inr hlt)
  | config a u i t g rw =>
    simp only [entryOf, configEntry] at h
    cases rw with
    | none | some =>
      dsimp only at h
      split_ifs at h
      all_goals
        cases h
        simp [u.size, payloadMax]
  | joint =>
    cases h
    simp [payloadMax]
  | _ => simp [entryOf] at h

/-- The checks of `push`. -/
lemma push_checks (h : st.push e = some st') :
    e.index = st.nextIndex ∧ e.term ≤ st.term ∧ st.lastEntryTerm ≤ e.term ∧
      (1 ≤ st.absLastIndex → st.lastGen < e.journalGeneration) := by
  unfold push at h
  split_ifs at h with h1 h2 h3 h4
  exact ⟨not_not.mp h1, Nat.le_of_not_lt h2, Nat.le_of_not_lt h3,
    fun h => Nat.lt_of_not_le fun hle => h4 ⟨h, hle⟩⟩

/-- The checks of `pendPush`. -/
lemma pendPush_checks (h : st.pendPush p e = some st') :
    p.entries.length < p.count ∧ e.index = p.entries.length + 1 ∧ e.term ≤ st.term ∧
      p.termPrev ≤ e.term ∧ (0 < p.entries.length → p.genPrev < e.journalGeneration) ∧
      (e.index < st.nextIndex →
        ((logEntryAt st.snap.entries st.log e.index).elim false
          fun l => l.identical e) = true) := by
  unfold pendPush at h
  simp only [ite_none_left_eq_some] at h
  obtain ⟨h1, h2, h3, h4, h5, h6, h⟩ := h
  refine ⟨Nat.lt_of_not_le h1, not_not.mp h2, Nat.le_of_not_lt h3, Nat.le_of_not_lt h4,
    fun h => Nat.lt_of_not_le fun hle => h5 ⟨h, hle⟩, fun hlt => ?_⟩
  by_contra hno
  rw [Bool.not_eq_true] at hno
  exact h6 ⟨hlt, by rw [hno]; rfl⟩

lemma Regular.push (h : st.Regular) (hp : st.pend = none) (hsmall : e.payload.length ≤ payloadMax)
    (hpush : st.push e = some st') : st'.Regular := by
  obtain ⟨hindex, hterm, hlast, hgen⟩ := push_checks hpush
  obtain rfl := push_eq hpush
  have hentries : st.snap.entries ++ (st.log ++ [e]) = st.entries ++ [e] := by
    simp [entries]
  refine { h with log := ?_, next := ?_, tail := ?_, pend := ?_ }
  · simp only [entries, hentries]
    refine h.log.push (by rw [hindex, h.next, st.length_entries]) hsmall hterm fun l hl => ?_
    have hpos : 1 ≤ st.absLastIndex := by
      rw [← st.length_entries]
      exact length_pos_iff.mpr fun hnil => by simp [hnil] at hl
    obtain ⟨ht, hg⟩ := h.tail l hl
    exact ⟨ht ▸ hlast, hg ▸ hgen hpos⟩
  · simp only [absLastIndex, h.next, length_append, length_singleton]
    omega
  · simp only [entries, hentries]
    intro x hx
    rw [getLast?_append, getLast?_singleton, some_or, some.injEq] at hx
    subst hx
    exact ⟨rfl, rfl⟩
  · intro p hp'
    exact absurd (hp.symm.trans hp') nofun

lemma Regular.pendPush (h : st.Regular) (hp : st.pend = some p)
    (hsmall : e.payload.length ≤ payloadMax) (hpush : st.pendPush p e = some st') :
    st'.Regular := by
  obtain ⟨hroom, hindex, hterm, hlast, hgen, hagree⟩ := pendPush_checks hpush
  obtain rfl := pendPush_eq hpush
  have hreg := h.pend p hp
  refine { h with pend := ?_ }
  rintro q ⟨⟩
  refine { hreg with log := ?_, last := ?_, agrees := ?_ }
  · refine hreg.log.push hindex hsmall hterm fun l hl => ?_
    have hpos : 0 < p.entries.length := length_pos_iff.mpr fun hnil => by simp [hnil] at hl
    obtain ⟨ht, hg⟩ := hreg.last l hl
    exact ⟨ht ▸ hlast, hg ▸ hgen hpos⟩
  · intro x hx
    rw [getLast?_append, getLast?_singleton, some_or, some.injEq] at hx
    subst hx
    exact ⟨rfl, rfl⟩
  · intro i x hx hi
    rcases lt_or_ge i p.entries.length with hlt | hge
    · rw [getElem?_append_left hlt] at hx
      exact hreg.agrees i x hx hi
    · have hi' : i = p.entries.length := by
        by_contra hne
        rw [getElem?_eq_none (by simp; omega)] at hx
        exact absurd hx nofun
      subst hi'
      rw [getElem?_append_right le_rfl, Nat.sub_self] at hx
      cases hx
      have hi : p.entries.length < st.absLastIndex := hi
      have hlt : e.index < st.nextIndex := by
        rw [h.next, hindex]
        omega
      have hsame := hagree hlt
      rw [hindex, logEntryAt_succ] at hsame
      cases hl : (st.snap.entries ++ st.log)[p.entries.length]? with
      | none => rw [hl] at hsame; exact absurd hsame (by simp)
      | some l =>
        rw [hl] at hsame
        exact ⟨l, rfl, hsame⟩

/-- After the log was cut, the bookkeeping is that of its last entry. -/
lemma settleTail_tail (hsnap : st.snap.Regular) : ∀ e, st.entries.getLast? = some e →
      e.term = st.settleTail.lastEntryTerm ∧ e.journalGeneration = st.settleTail.lastGen := by
  intro e he
  unfold settleTail
  cases hlog : st.log.getLast? with
  | none =>
    have hnil : st.log = [] := getLast?_eq_none_iff.mp hlog
    rw [entries, hnil, append_nil] at he
    exact hsnap.last e he
  | some =>
    rw [entries, getLast?_append, hlog, some_or, some.injEq] at he
    subst he
    exact ⟨rfl, rfl⟩

/-- Everything but the bookkeeping of the last entry, which `settleTail` does. -/
lemma regular_settleTail (st : Replay) (hepoch : st.term ≤ st.epoch)
    (hlog : Orderly st.term st.entries) (hnext : st.nextIndex = st.absLastIndex + 1)
    (hsnap : st.snap.Regular)
    (hterm : st.snap.lastIncludedTerm ≤ st.term) (hfence : st.snap.epoch ≤ st.epoch)
    (hpend : st.pend = none) (hchecked : st.historyChecked = true) : st.settleTail.Regular := by
  have htail := settleTail_tail hsnap
  obtain ⟨t, g, heq⟩ := settleTail_eq st
  rw [heq] at htail ⊢
  refine ⟨hepoch, hlog, hnext, htail, hsnap, hterm, hfence, ?_, ?_⟩
  · intro p hp
    exact absurd (hpend.symm.trans hp) nofun
  · intro hno
    exact absurd (hchecked.symm.trans hno) nofun

lemma Regular.cut (h : st.Regular) (hp : st.pend = none) (hc : st.historyChecked = true)
    (hcut : st.cut k = some st') : st'.Regular := by
  unfold Replay.cut at hcut
  split_ifs at hcut with h1 h2 h3
  · cases hcut
    have hentries : st.snap.entries ++ st.log.take (k - 1 - st.snap.entries.length) =
        st.entries.take (k - 1) := by
      have hkeep : st.snap.entries.take (k - 1) = st.snap.entries :=
        take_of_length_le (by omega)
      rw [entries, take_append, hkeep]
    refine regular_settleTail _ h.epoch ?_ ?_ h.snap h.snapTerm h.snapEpoch hp hc
    · simp only [entries, hentries]
      exact h.log.take _
    · have hnext := h.next
      simp only [absLastIndex, length_take] at hnext ⊢
      omega
  · cases hcut
    exact h

/-- What is kept of the log behind a snapshot that is swapped in. -/
lemma drop_kept (hbeyond : st.snap.entries.length < k) :
    st.log.drop (st.log.length - (st.absLastIndex - k)) = st.entries.drop k := by
  rw [entries, drop_append, drop_eq_nil_of_le hbeyond.le, nil_append]
  simp only [absLastIndex]
  rcases lt_or_ge (st.snap.entries.length + st.log.length) k with hlt | hge
  · rw [drop_eq_nil_of_le (by omega), drop_eq_nil_of_le (by omega)]
  · congr 1
    omega

section

variable (h : st.Regular)
include h

/-- The entries of the transaction and the rest of the log make one log. -/
lemma Regular.swapped (hreg : p.Regular st) (hfull : p.entries.length = p.lastIndex) :
    Orderly st.term (p.entries ++ st.entries.drop p.lastIndex) := by
  refine ⟨fun i x hx => ?_,
    forall_mem_append.mpr ⟨hreg.log.small, fun x hx => h.log.small x (mem_of_mem_drop hx)⟩,
    forall_mem_append.mpr ⟨hreg.log.bounded, fun x hx => h.log.bounded x (mem_of_mem_drop hx)⟩, ?_⟩
  · rcases lt_or_ge i p.entries.length with hlt | hge
    · rw [getElem?_append_left hlt] at hx
      exact hreg.log.numbered i x hx
    · rw [getElem?_append_right hge, getElem?_drop, hfull] at hx
      rw [h.log.numbered _ x hx]
      omega
  · refine pairwise_append_last hreg.log.rising (h.log.rising.sublist (drop_sublist _ _)) ?_
    intro l hl x hx
    -- the last entry of the transaction is also the entry of the log at its index
    have hpos : 0 < p.lastIndex := Nat.lt_of_le_of_lt (Nat.zero_le _) hreg.beyond
    have hmore : p.lastIndex < st.absLastIndex := by
      rw [← st.length_entries]
      by_contra hle
      rw [drop_eq_nil_of_le (Nat.le_of_not_lt hle)] at hx
      simp at hx
    have hat : p.entries[p.lastIndex - 1]? = some l := by
      rw [getLast?_eq_getElem?, hfull] at hl
      exact hl
    obtain ⟨l', hl', hid⟩ := hreg.agrees (p.lastIndex - 1) l hat (by omega)
    have hl' : st.entries[p.lastIndex - 1]? = some l' := hl'
    have hmem : l' ∈ st.entries.take p.lastIndex := by
      refine mem_of_getElem? (i := p.lastIndex - 1) ?_
      rw [getElem?_take, if_pos (by omega)]
      exact hl'
    have hsplit := h.log.rising
    rw [← take_append_drop p.lastIndex st.entries, pairwise_append] at hsplit
    have hb : l'.Before x := hsplit.2.2 l' hmem x hx
    simp only [identical, Bool.and_eq_true, beq_iff_eq] at hid
    obtain ⟨⟨⟨⟨⟨⟨-, hterm⟩, hgen⟩, -⟩, -⟩, -⟩, -⟩ := hid
    exact ⟨hterm ▸ hb.1, hgen ▸ hb.2⟩

lemma Regular.swapIn (hp : st.pend = some p) (hc : st.historyChecked = true)
    (hswap : st.swapIn p k = some st') : st'.Regular := by
  have hreg := h.pend p hp
  unfold Replay.swapIn at hswap
  simp only [ite_none_left_eq_some] at hswap
  obtain ⟨h1, h2, h3, h4, h5, hswap⟩ := hswap
  cases hswap
  have hfull : p.entries.length = p.lastIndex := (not_not.mp h2).trans hreg.count
  have hkept : st.log.drop (st.log.length - (st.absLastIndex - p.lastIndex)) =
      st.entries.drop p.lastIndex := drop_kept hreg.beyond
  have hsnap : Snapshot.Regular
      ⟨p.entries, p.lastIndex, p.lastTerm, p.epoch, p.genHi, p.digest⟩ := by
    refine ⟨fun e he => ?_, hreg.fenced, ?_⟩
    · rw [← not_not.mp h4, ← not_not.mp h5]
      exact hreg.last e he
    · have hsize := hreg.size
      rw [hreg.count] at hsize
      simpa only [hfull] using hsize
  let swapped : Replay := { st with
    log := st.log.drop (st.log.length - (st.absLastIndex - p.lastIndex))
    snap := ⟨p.entries, p.lastIndex, p.lastTerm, p.epoch, p.genHi, p.digest⟩
    pend := none
    nextIndex := max st.nextIndex (p.lastIndex + 1) }
  have hsettled := regular_settleTail swapped h.epoch (by
      simp only [swapped, entries, hkept]
      exact h.swapped hreg hfull) (by
      have hnext := h.next
      have hbeyond := hreg.beyond
      simp only [swapped, absLastIndex, length_drop, hfull] at hnext ⊢
      omega) hsnap hreg.term hreg.epoch rfl hc
  exact { hsettled with
    pend := fun q hq => absurd hq (by
      obtain ⟨t, g, heq⟩ := settleTail_eq swapped
      simp [swapped, heq]) }

/-- The line that opens a snapshot transaction, with the checks it passed. -/
lemma regular_openSnapshot {v2 : Bool} {last lt ep g dg ct : ℕ}
    (hstep : st.stepBody k (.snapshot v2 last lt ep g dg ct) = some st') : st'.Regular := by
  unfold stepBody at hstep
  simp only [isSome_iff_ne_none] at hstep
  have hcap : (if v2 then snapshotStreamMaxEntries else snapshotMaxEntries) ≤
      snapshotStreamMaxEntries := by
    split_ifs <;> decide
  generalize (if v2 then snapshotStreamMaxEntries else snapshotMaxEntries) = cap at hstep hcap
  simp only [ite_none_left_eq_some] at hstep
  obtain ⟨h1, h2, h3, h4, h5, h6, h7, hstep⟩ := hstep
  cases hstep
  refine { h with pend := ?_ }
  rintro p ⟨⟩
  refine ⟨orderly_nil _, by simp, ?_, ?_, ?_, ?_, ?_, ?_, by simp⟩
  all_goals
    simp only
    omega

lemma Regular.stepBody (hc : st.historyChecked = true)
    (hstep : st.stepBody k r = some st') : st'.Regular := by
  cases replayed_of_stepBody hstep with
  | vote t v e hp ht he hst =>
    refine ⟨he, h.log.mono ht, h.next, h.tail, h.snap, h.snapTerm.trans ht, h.snapEpoch.trans hst,
      fun p hp' => (nomatch hp.symm.trans hp'), fun hno => nomatch hc.symm.trans hno⟩
  | push _ e _ hp hr hpush => exact h.push hp (entryOf_small hr) hpush
  | pendPush _ e p _ hp hr hpush => exact h.pendPush hp (entryOf_small hr) hpush
  | openSnapshot => exact regular_openSnapshot h hstep
  | swapIn start p _ hp hswap => exact h.swapIn hp hc hswap
  | cut start _ hp hcut => exact h.cut hp hc hcut
  | commit i hp => exact { h with pend := fun p hp' => nomatch hp.symm.trans hp' }

lemma Regular.step (hstep : st.step cfg k r = some st') : st'.Regular := by
  have hflags : ∀ b1 b2 b3 b4 b5, (st.historyChecked = true → b5 = true) → Regular { st with
      headerSeen := b1, baselineHave := b2, baselineChecked := b3, historyHave := b4,
      historyChecked := b5 } := by
    intro b1 b2 b3 b4 b5 hb
    refine { h with pend := fun p hp => ?_, early := fun hno => h.early ?_ }
    · have hreg := h.pend p hp
      exact { hreg with }
    · cases hc : st.historyChecked with
      | false => rfl
      | true => exact absurd ((hb hc).symm.trans hno) (by rintro ⟨⟩)
  cases r with
  | header =>
    simp only [step] at hstep
    split_ifs at hstep
    cases hstep
    exact hflags true _ _ _ _ id
  | baseline =>
    simp only [step] at hstep
    split_ifs at hstep
    cases hstep
    exact hflags _ true _ _ _ id
  | history =>
    simp only [step] at hstep
    split_ifs at hstep with h1 h2 h3
    cases hstep
    simp only [not_or, Bool.not_eq_true, isSome_eq_false_iff, isNone_iff_eq_none] at h2
    obtain ⟨hterm, hsnap⟩ := h.early h2.2.1
    refine { h with
      epoch := by simp [hterm], snapEpoch := by simp [hsnap, empty]
      pend := fun p hp => absurd (h2.2.2.1.symm.trans hp) (by rintro ⟨⟩) }
  | _ =>
    simp only [step] at hstep
    split_ifs at hstep
    exact (hflags _ _ true _ true fun _ => rfl).stepBody rfl hstep

lemma Regular.fold (hfold : fold cfg st k ls = some st') : st'.Regular :=
  fold_induction h hfold fun _ _ _ _ _ hst => hst.step

end

/-- Whatever is in a file that loads, what it loads to is regular. -/
lemma regular_of_load (h : start.steps cfg 0 ls = some st) : st.Regular := by
  obtain ⟨ls0, -, hfold⟩ := fold_of_load h
  exact regular_start.fold hfold

end Replay

/-! ### Open -/

lemma Config.Named.prepare {cfg c : Config} {hasFile : Bool} (h : cfg.prepare hasFile = some c)
    (hmembers : ∀ m ∈ cfg.members, m.id.isNil = false) : c.Named := by
  unfold Config.prepare at h
  simp only at h
  split_ifs at h with hok
  cases h
  simp only [identityValid, Bool.and_eq_true, Bool.not_eq_true'] at hok
  have hsame : (cfg.withDefaults.clampHeartbeat).groupId = cfg.groupId ∧
      (cfg.withDefaults.clampHeartbeat).self = cfg.self ∧
      (cfg.withDefaults.clampHeartbeat).members = cfg.members := by
    unfold clampHeartbeat
    split_ifs <;> exact ⟨rfl, rfl, rfl⟩
  obtain ⟨hgroup, hself, hms⟩ := hsame
  exact ⟨hgroup ▸ hok.1.1.1.1.1.1.1.2, hself ▸ hok.1.1.2, hms ▸ hmembers⟩

lemma Node.regular_loaded {c : Config} {st : Replay} (hc : c.Named) (hst : st.Regular) :
    (loaded c st).Regular :=
  { hst with named := hc, members := hc.members, ducks := by simp [loaded, blank] }

lemma Node.regular_finishLoad {n' : Node} (h : finishLoad n = some n') (hn : n.Regular) :
    n'.Regular := by
  unfold finishLoad at h
  cases hr : n.recomputeMembership with
  | none => simp [hr] at h
  | some =>
    simp only [hr] at h
    split_ifs at h
    cases h
    have heq : n.recomputed = n' := by rw [recomputed, hr, getD_some]
    rw [← heq]
    exact hn.recomputed

open Crash Crash.Prog in
lemma sat_finishOpen {c : Config} {st : Replay} (p : Proc) (hc : c.Named) (hst : st.Regular) :
    Sat (finishOpen c st) p (fun b p' => b = true → p'.node.Regular) (fun _ => True) := by
  unfold finishOpen
  rw [sat_ite]
  refine ⟨fun _ => by simp, fun _ => ?_⟩
  cases hn : finishLoad (.loaded c st) with
  | none => simp
  | some =>
    have hcs := regular_finishLoad hn (regular_loaded hc hst)
    exact fun _ => hcs.congr rfl rfl rfl ⟨rfl, rfl⟩ rfl rfl

open Crash Crash.Prog in
lemma sat_openExisting {c : Config} (p : Proc) (hc : c.Named) :
    Sat (openExisting c) p (fun b p' => b = true → p'.node.Regular) (fun _ => True) := by
  unfold Sat openExisting
  cases hst : start.steps c 0 p.disk with
  | none => simp
  | some st =>
    change Sat (openLoaded c st) p _ _
    unfold openLoaded
    have hreg := regular_of_load hst
    cases st.pend with
    | none => exact sat_finishOpen p hc hreg
    | some =>
      simp only [sat_bind, sat_ite, sat_pure]
      exact sat_discardTail (fun p' _ => ⟨fun _ => sat_finishOpen p' hc hreg, by simp⟩)
        (fun p' _ => ⟨by simp, by simp⟩) fun _ _ => trivial

open Crash Crash.Prog in
lemma sat_openFresh {c : Config} (p : Proc) (hc : c.Named) (hp : p.disk = []) :
    Sat (openFresh c) p (fun b p' => b = true → p'.node.Regular) (fun _ => True) := by
  unfold openFresh
  cases hn : finishLoad (blank c) with
  | none => simp
  | some cs =>
    have hcs : cs.Regular :=
      regular_finishLoad hn (regular_loaded hc regular_start)
    simp only [sat_bind, sat_ite, sat_pure, sat_modifyNode]
    refine sat_writeIdentity (p := { p with node := cs }) hp ?_
      (fun p' _ => ⟨by simp, by simp⟩) fun _ _ => trivial
    intro p' _ _ hn'
    refine ⟨fun _ _ => ?_, by simp⟩
    have hb : Booted c .start cs := booted_of_finishLoad hn
    rw [hn']
    refine { hcs with epoch := ?_, snapEpoch := ?_ }
    · have hterm : cs.term = 0 := hb.term
      simp [hterm]
    · have hsnap : cs.snap = .empty := hb.snap
      simp [hsnap, empty]

open Crash Crash.Prog in
lemma regular_slotAfter {m : M Bool} {p : Proc} {n : Node}
    (hm : Sat m p (fun b p' => b = true → p'.node.Regular) (fun _ => True))
    (h : (slotAfter (m p).1 (m p).2).node = some n) : n.Regular := by
  unfold Sat at hm
  rcases hr : m p with ⟨r, p'⟩
  rw [hr] at hm h
  unfold slotAfter at h
  simp only at h
  split_ifs at h with hok
  subst hok
  cases h
  exact hm rfl

/-- A node that was opened is regular. -/
lemma regular_openSlot {cfg : Config} {disk : Option (List Line)} {io : List Io}
    (hmembers : ∀ m ∈ cfg.members, m.id.isNil = false)
    (h : (openSlot cfg disk io).1.node = some n) : n.Regular := by
  unfold openSlot at h
  cases hc : cfg.prepare disk.isSome with
  | none => simp [hc] at h
  | some =>
    have hnamed := Config.Named.prepare hc hmembers
    simp only [hc] at h
    cases disk with
    | none => exact regular_slotAfter (sat_openFresh _ hnamed rfl) h
    | some => exact regular_slotAfter (sat_openExisting _ hnamed) h

end Qihse.Consensus
