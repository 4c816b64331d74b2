import Qihse.Optimistic.Serial
import Qihse.Txn.Step

/-!
# Serializable isolation

Validation looks only at the summaries that the manager has retained. What makes it enough is
`Manager.Retained`: for every live SERIALIZABLE transaction, each commit since it began that wrote
anything has a summary with a commit sequence above the transaction's serialization snapshot.
Summaries are made when a live SERIALIZABLE transaction exists and pruned below the smallest
serialization snapshot, and both rules keep the invariant.
-/

namespace Qihse.Txn

open List Option Function Txn.Event Optimistic

/-! ### Histories -/

/-- The events of a run, oldest first. -/
def Manager.history (m : Manager) : List Op → List Event
  | [] => []
  | op :: ops => (m.event op).toList ++ (m.exec op).2.history ops

/-- The manager after a run. -/
def Manager.run (m : Manager) : List Op → Manager
  | [] => m
  | op :: ops => (m.exec op).2.run ops

def Event.commit? : Event → Option Commit
  | .begun _ => none
  | .committed c => some c

/-- The commits of a history, in the order in which they took effect. -/
def commitsOf (hist : List Event) : List Commit := hist.filterMap commit?

/-- The number of commits that took effect before a transaction began. -/
def begunAt (hist : List Event) (t : ℕ) : ℕ :=
  (commitsOf (hist.takeWhile (· ≠ begun t))).length

/-- Whenever a SERIALIZABLE transaction commits, no commit since it began wrote a key of its
recorded set. -/
def ConflictFree (hist : List Event) : Prop :=
  ∀ before between since after : List Event, ∀ t : ℕ, ∀ u c : Commit,
    hist = before ++ begun t :: between ++ committed u :: since ++ committed c :: after →
    c.id = t → c.isolation = .serializable →
    ∀ w ∈ u.writes, ∀ e ∈ c.rwSet, w.keysEqual e = false

namespace Manager

variable {m m' : Manager} {hist : List Event} {op : Op} {e : Option Event}

lemma mem_dropWhile {α : Type} {p : α → Bool} {l : List α} {a : α} (ha : a ∈ l) (hp : p a = false) :
    a ∈ l.dropWhile p := by
  rw [← takeWhile_append_dropWhile (p := p) (l := l), mem_append] at ha
  refine ha.resolve_left fun hmem => ?_
  rw [mem_takeWhile_imp hmem] at hp
  cases hp

/-- A summary that a live SERIALIZABLE transaction still needs survives pruning. -/
lemma mem_prune {t : ℕ} {h : Handle} (w : m.Wf) (hm : m.txns t = some h) (hlive : h.live)
    (hiso : h.isolation = .serializable) {s : Summary} (hs : s ∈ m.committed)
    (hseq : h.serializationSnapshot < s.commitSeq) : s ∈ m.pruneCommittedHistory.committed := by
  refine mem_dropWhile hs ?_
  have hmem : h.serializationSnapshot ∈ m.active.filterMap m.serializableSnapshot := by
    refine mem_filterMap.mpr ⟨t, (w.active t).mpr ⟨h, hm, hlive⟩, ?_⟩
    simp [serializableSnapshot, hm, hiso, hlive]
  cases hmin : m.minSerializableSnapshot with
  | none =>
    rw [minSerializableSnapshot, min?_eq_none_iff] at hmin
    rw [hmin] at hmem
    cases hmem
  | some =>
    have hle := (min?_eq_some_iff.mp hmin).2 _ hmem
    simp only [decide_eq_false_iff_not]
    omega

/-- What every live SERIALIZABLE transaction needs for its validation is still there. -/
def Retained (m : Manager) (hist : List Event) : Prop :=
  ∀ t h, m.txns t = some h → h.live → h.isolation = .serializable →
    ∀ before since, hist = before ++ Event.begun t :: since →
    ∀ c, .committed c ∈ since → c.writes ≠ [] →
    ∃ s ∈ m.committed, h.serializationSnapshot < s.commitSeq ∧ s.writes = c.writes

structure Inv (m : Manager) (hist : List Event) : Prop where
  wf : m.Wf
  begun : ∀ t h, m.txns t = some h → .begun t ∈ hist
  known : ∀ t, .begun t ∈ hist → t < m.nextTxnId
  started : ∀ before after c, hist = before ++ Event.committed c :: after →
    Event.begun c.id ∈ before
  retained : m.Retained hist
  conflictFree : ConflictFree hist

/-- Where an event of a history that has grown by one lies. -/
lemma eq_of_concat {α : Type} {l before after : List α} {a b : α}
    (h : l ++ [a] = before ++ b :: after) :
    (after = [] ∧ before = l ∧ b = a) ∨ ∃ after', after = after' ++ [a] ∧
      l = before ++ b :: after' := by
  rcases eq_nil_or_concat' after with rfl | ⟨after', z, rfl⟩
  · obtain ⟨rfl, hb⟩ := append_inj' h rfl
    simp only [List.cons.injEq, and_true] at hb
    exact .inl ⟨rfl, rfl, hb.symm⟩
  · rw [← cons_append, ← append_assoc] at h
    obtain ⟨rfl, hz⟩ := append_inj' h rfl
    simp only [List.cons.injEq, and_true] at hz
    subst hz
    exact .inr ⟨after', rfl, rfl⟩

/-- Other handles are as they were when a handle ends. -/
lemma Retires.other {h q : Handle} {t : ℕ} (hr : Retires m m' h) (hq : m'.txns t = some q)
    (hlive : q.live) : t ≠ h.id ∧ m.txns t = some q := by
  obtain ⟨h', htxns, -, hdead, -⟩ := hr.txns
  rw [htxns] at hq
  by_cases ht : t = h.id
  · subst ht
    simp only [update_self, some.injEq] at hq
    subst hq
    rw [hdead] at hlive
    cases hlive
  · rw [update_of_ne ht] at hq
    exact ⟨ht, hq⟩

lemma Retires.begun {h q : Handle} {t u : ℕ} (hr : Retires m m' h) (w : m.Wf)
    (hm : m.txns u = some h) (hq : m'.txns t = some q) : ∃ q', m.txns t = some q' := by
  obtain ⟨h', htxns, -⟩ := hr.txns
  rw [htxns] at hq
  by_cases ht : t = h.id
  · rw [ht, w.id u h hm]
    exact ⟨h, hm⟩
  · rw [update_of_ne ht] at hq
    exact ⟨q, hq⟩

lemma inv_create : create.Inv [] where
  wf := wf_create
  begun := by simp [create]
  known := by simp
  started := by simp
  retained := by simp [Retained]
  conflictFree := by
    intro before between since after t u c h
    simp at h

/-- A commit after the given history is checked against all that the summaries retain. -/
lemma Inv.validated (inv : m.Inv hist) {t : ℕ} {h : Handle} (hm : m.txns t = some h)
    (hlive : h.live) (hvalid : m.validateOcc h) (hiso : h.isolation = .serializable)
    {before since : List Event} (hhist : hist = before ++ Event.begun t :: since) {u : Commit}
    (hu : .committed u ∈ since) : ∀ w ∈ u.writes, ∀ e ∈ h.rwSet, w.keysEqual e = false := by
  intro w hw e he
  obtain ⟨s, hs, hseq, hwrites⟩ := inv.retained t h hm hlive hiso before since hhist u hu
    (ne_nil_of_mem hw)
  simp only [validateOcc, hiso, bne_self_eq_false, Bool.false_or, List.all_eq_true,
    Bool.or_eq_true, decide_eq_true_eq] at hvalid
  obtain hle | hall := hvalid s hs
  · omega
  · simpa using hall w (hwrites ▸ hw) e he

lemma ConflictFree.concat (hfree : ConflictFree hist) {a : Event}
    (ha : ∀ before since c u, a = .committed c → c.isolation = .serializable →
      hist = before ++ Event.begun c.id :: since → Event.committed u ∈ since →
      ∀ w ∈ u.writes, ∀ e ∈ c.rwSet, w.keysEqual e = false) : ConflictFree (hist ++ [a]) := by
  intro before between since after t u c hhist hid hiso
  obtain ⟨rfl, hbefore, hc⟩ | ⟨after', rfl, hhist'⟩ := eq_of_concat hhist
  · subst hid
    refine ha before (between ++ Event.committed u :: since) c u hc.symm hiso ?_ (by simp)
    simp [← hbefore]
  · exact hfree before between since after' t u c hhist' hid hiso

/-- An event at the end of the history keeps the order of commits and begins. -/
lemma started_concat (hstarted : ∀ before after c, hist = before ++ Event.committed c :: after →
    .begun c.id ∈ before) {a : Event} (ha : ∀ c, a = .committed c → Event.begun c.id ∈ hist) :
    ∀ before after c, hist ++ [a] = before ++ Event.committed c :: after →
      Event.begun c.id ∈ before := by
  intro before after c h
  obtain ⟨-, rfl, hc⟩ | ⟨after', -, h'⟩ := eq_of_concat h
  · exact ha c hc.symm
  · exact hstarted before after' c h'

lemma Inv.discard {t : ℕ} {h : Handle} (inv : m.Inv hist) (hm : m.txns t = some h) (cs : List Call)
    (alloc : Bool) : ({ m with calls := cs }.discard h alloc).Inv hist := by
  have hr : Retires m ({ m with calls := cs }.discard h alloc) h := retires_discard h cs alloc
  refine ⟨inv.wf.retire hm hr, ?_, ?_, inv.started, ?_, inv.conflictFree⟩
  · intro u q hq
    obtain ⟨q', hq'⟩ := hr.begun inv.wf hm hq
    exact inv.begun u q' hq'
  · rw [hr.nextTxnId]
    exact inv.known
  · intro u q hq hql hiso
    have hcommitted : ({ m with calls := cs }.discard h alloc).committed = m.committed := by
      cases alloc <;> rfl
    rw [hcommitted]
    exact inv.retained u q (hr.other hq hql).2 hql hiso

lemma Inv.prune (inv : m.Inv hist) : m.pruneCommittedHistory.Inv hist := by
  have w := inv.wf
  refine { inv with wf := { w with }, retained := ?_ }
  intro u q hq hql hiso before since hhist c hc hw
  obtain ⟨s, hs, hseq, hwrites⟩ := inv.retained u q hq hql hiso before since hhist c hc hw
  exact ⟨s, mem_prune w hq hql hiso hs hseq, hseq, hwrites⟩

section

variable (inv : m.Inv hist) {t : ℕ} {h h' : Handle} (cs : List Call) (hm : m.txns t = some h)
include inv

lemma Inv.step_begun {isolation : Isolation} (wf' : (m.begun isolation).Wf) :
    (m.begun isolation).Inv (hist ++ [Event.begun m.nextTxnId]) := by
  have hfresh : Event.begun m.nextTxnId ∉ hist := fun hc =>
    lt_irrefl _ (inv.known _ hc)
  refine ⟨wf', ?_, ?_, ?_, ?_, ?_⟩
  · intro u q hq
    by_cases hu : u = m.nextTxnId
    · simp [hu]
    · have hq' : m.txns u = some q := (update_of_ne hu _ _).symm.trans hq
      simp [inv.begun u q hq']
  · intro t ht
    change t < m.nextTxnId + 1
    simp only [mem_append, mem_singleton, begun.injEq] at ht
    obtain ht | rfl := ht
    · exact Nat.lt_succ_of_lt (inv.known t ht)
    · exact Nat.lt_succ_self _
  · exact started_concat inv.started (by simp)
  · intro t q hq hlive hiso before since hhist c hc hw
    obtain ⟨rfl, -, -⟩ | ⟨since', rfl, hhist'⟩ := eq_of_concat hhist
    · simp at hc
    · -- the new transaction has no event of its own in the history so far
      have ht : t ≠ m.nextTxnId := by
        rintro rfl
        exact hfresh (by simp [hhist'])
      have hq' : m.txns t = some q := (update_of_ne ht _ _).symm.trans hq
      refine inv.retained t q hq' hlive hiso before since' hhist' c ?_ hw
      simpa using hc
  · exact ConflictFree.concat inv.conflictFree (by simp)

include hm

lemma Inv.step_edited (hedit : h.Edit h') (wf' : ({ m with calls := cs }.setTxn h').Wf) :
    ({ m with calls := cs }.setTxn h').Inv hist := by
  have hid : h'.id = t := hedit.id.trans (inv.wf.id t h hm)
  refine ⟨wf', ?_, inv.known, inv.started, ?_, inv.conflictFree⟩
  · intro u q hq
    by_cases hu : u = t
    · exact hu ▸ inv.begun t h hm
    · refine inv.begun u q ?_
      simpa [setTxn, hid, hu] using hq
  · intro u q hq hlive hiso before since hhist
    by_cases hu : u = t
    · subst hu
      have heq : h' = q := by simpa [setTxn, hid] using hq
      subst heq
      rw [hedit.serializationSnapshot]
      exact inv.retained u h hm (hedit.live ▸ hlive) (hedit.isolation ▸ hiso) before since hhist
    · have hq' : m.txns u = some q := by simpa [setTxn, hid, hu] using hq
      exact inv.retained u q hq' hlive hiso before since hhist

lemma Inv.step_settled (hlive : h.live) (hvalid : m.validateOcc h)
    (wf' : ({ m with calls := cs }.settle h (m.summary h)).pruneCommittedHistory.Wf) :
    ({ m with calls := cs }.settle h (m.summary h)).pruneCommittedHistory.Inv
      (hist ++ [h.event]) := by
  have hr : Retires m ({ m with calls := cs }.settle h (m.summary h)) h :=
    retires_settle h cs _
  have hid : h.id = t := inv.wf.id t h hm
  refine ⟨wf', ?_, ?_, ?_, ?_, ?_⟩
  · intro u q hq
    obtain ⟨q', hq'⟩ := hr.prune.begun inv.wf hm hq
    exact mem_append_left _ (inv.begun u q' hq')
  · intro u hu
    refine inv.known u ?_
    simpa [Handle.event] using hu
  · refine started_concat inv.started ?_
    intro c hc
    simp only [Handle.event, Event.committed.injEq] at hc
    subst hc
    rw [hid]
    exact inv.begun t h hm
  · intro u q hq hql hiso before since hhist c hc hw
    have hold := hr.other hq hql
    obtain ⟨-, -, hev⟩ | ⟨since', rfl, hhist'⟩ := eq_of_concat hhist
    · simp [Handle.event] at hev
    have hkeep : ∀ {s : Summary}, s ∈ m.committed ++ (m.summary h).toList →
        q.serializationSnapshot < s.commitSeq → s ∈ ({ m with calls := cs }.settle h
          (m.summary h)).pruneCommittedHistory.committed :=
      fun hs hseq => mem_prune (inv.wf.retire hm hr) hq hql hiso hs hseq
    simp only [mem_append, mem_singleton] at hc
    obtain hc | hc := hc
    · obtain ⟨s, hs, hseq, hwrites⟩ :=
        inv.retained u q hold.2 hql hiso before since' hhist' c hc hw
      exact ⟨s, hkeep (mem_append_left _ hs) hseq, hseq, hwrites⟩
    · -- the commit itself wrote something while `u` was live, so its summary is made
      simp only [Handle.event, Event.committed.injEq] at hc
      subst hc
      have hneeded : m.summaryNeeded h = true := by
        have hcount : h.writeCount ≠ 0 := by
          rw [(inv.wf.counted t h hm).count, countP_eq_length_filter]
          simpa [Commit.writes] using hw
        have hactive : u ∈ m.active := (inv.wf.active u).mpr ⟨q, hold.2, hql⟩
        simp only [summaryNeeded, Bool.and_eq_true, bne_iff_ne, ne_eq, List.any_eq_true]
        exact ⟨hcount, u, hactive, hold.1, by simp [serializableSnapshot, hold.2, hiso, hql]⟩
      have hseq : q.serializationSnapshot < m.commitSeq + 1 :=
        Nat.lt_succ_of_le (inv.wf.seq u q hold.2)
      refine ⟨summaryOf h (m.commitSeq + 1), hkeep ?_ hseq, hseq, rfl⟩
      simp [summary, hneeded]
  · refine ConflictFree.concat inv.conflictFree ?_
    intro before since c u hev hiso hhist hu
    simp only [Handle.event, Event.committed.injEq] at hev
    subst hev
    rw [hid] at hhist
    exact inv.validated hm hlive hvalid hiso hhist hu

end

lemma Inv.step (inv : m.Inv hist) (hs : Step m op e m') : m'.Inv (hist ++ e.toList) := by
  have wf' := inv.wf.step hs
  cases hs with
  | idle n ps hn =>
    simp only [toList_none, append_nil]
    exact { inv with wf := wf', known := fun t ht => (inv.known t ht).trans_le hn }
  | edited cs hm hedit =>
    rw [toList_none, append_nil]
    exact inv.step_edited cs hm hedit wf'
  | begun => exact inv.step_begun wf'
  | discarded cs alloc hm =>
    rw [toList_none, append_nil]
    exact inv.discard hm cs alloc
  | pruned cs alloc hm =>
    rw [toList_none, append_nil]
    exact (inv.discard hm cs alloc).prune
  | settled cs hm hlive hop hvalid => exact inv.step_settled cs hm hlive hvalid wf'

lemma Inv.run (inv : m.Inv hist) (ops : List Op) : (m.run ops).Inv (hist ++ m.history ops) := by
  induction ops generalizing m hist with
  | nil => simpa [run, history] using inv
  | cons op ops ih =>
    have := ih (inv.step (m.exec_step op))
    rwa [append_assoc] at this

lemma inv_run (ops : List Op) : (create.run ops).Inv (create.history ops) := by
  simpa using inv_create.run ops

/-- The registry has a transaction as committed exactly when its commit took effect. -/
theorem isCommitted_run (ops : List Op) (t : ℕ) :
    (create.run ops).isCommitted t = (create.history ops).any (isCommitOf t) := by
  suffices h : ∀ m : Manager, m.Wf → (m.run ops).isCommitted t =
      ((m.history ops).any (isCommitOf t) || m.isCommitted t) from
    (h create wf_create).trans (Bool.or_false _)
  induction ops with
  | nil => simp [run, history]
  | cons op ops ih =>
    intro m w
    rw [run, history, any_append, ih _ (w.exec op), w.isCommitted_step (m.exec_step op)]
    cases m.event op <;> simp [Bool.or_assoc, Bool.or_left_comm]

/-- The active list has every unfinished transaction once. -/
theorem active_run (ops : List Op) : (create.run ops).active.Nodup ∧ ∀ t,
    t ∈ (create.run ops).active ↔ ∃ h, (create.run ops).txns t = some h ∧ h.live :=
  ⟨(inv_run ops).wf.nodup, (inv_run ops).wf.active⟩

end Manager

/-! ### Executions of a history -/

/-- The key that an entry of a read and write set is about. -/
def RwEntry.at (e : RwEntry) : UInt8 × List UInt8 := (e.engineId, e.key)

/-- An execution whose transactions are the commits of a history. A SERIALIZABLE transaction may
depend on all keys it has recorded, each seen at any moment between its begin and its commit; the
others count only with the values they wrote. -/
structure Executes {V : Type} (x : Execution (UInt8 × List UInt8) V)
    (hist : List Event) : Prop where
  n : x.n = (commitsOf hist).length
  writes : ∀ j c, (commitsOf hist)[j]? = some c →
    (x.commit j).writes = {k | ∃ e ∈ c.writes, e.at = k}
  footprint : ∀ j c, (commitsOf hist)[j]? = some c → c.isolation = .serializable →
    (x.commit j).footprint = {k | ∃ e ∈ c.rwSet, e.at = k}
  seen : ∀ j c, (commitsOf hist)[j]? = some c → c.isolation = .serializable →
    ∀ k, begunAt hist c.id ≤ x.seen j k ∧ x.seen j k ≤ j
  blind : ∀ j c, (commitsOf hist)[j]? = some c → c.isolation ≠ .serializable →
    (x.commit j).footprint = ∅

lemma commitsOf_append (hist hist' : List Event) :
    commitsOf (hist ++ hist') = commitsOf hist ++ commitsOf hist' :=
  filterMap_append

/-- The place of a commit in the history. -/
lemma split_of_getElem? {hist : List Event} {j : ℕ} {c : Commit}
    (h : (commitsOf hist)[j]? = some c) :
    ∃ before after, hist = before ++ committed c :: after ∧ (commitsOf before).length = j := by
  obtain ⟨hj, rfl⟩ := List.getElem?_eq_some_iff.mp h
  have hsplit : commitsOf hist = (commitsOf hist).take j ++
      (commitsOf hist)[j] :: (commitsOf hist).drop (j + 1) := by
    rw [getElem_cons_drop, take_append_drop]
  obtain ⟨front, back, hhist, hfront, hback⟩ := filterMap_eq_append_iff.mp hsplit
  obtain ⟨begun, a, after, rfl, hnone, ha, -⟩ := filterMap_eq_cons_iff.mp hback
  refine ⟨front ++ begun, after, ?_, ?_⟩
  · cases a with
    | begun => cases ha
    | committed => rw [← some.inj ha, hhist, append_assoc]
  · rw [commitsOf, filterMap_append, hfront, filterMap_eq_nil_iff.mpr hnone, append_nil,
      length_take_of_le hj.le]

/-- A history is cut at the first begin of a transaction. -/
lemma takeWhile_begun {hist : List Event} {t : ℕ} (h : .begun t ∈ hist) :
    ∃ since, hist = hist.takeWhile (· ≠ begun t) ++ begun t :: since := by
  obtain ⟨before, since, rfl, hnot⟩ := eq_append_cons_of_mem h
  have hbefore : ∀ a ∈ before, decide (a ≠ begun t) = true :=
    fun a ha => decide_eq_true (ne_of_mem_of_not_mem ha hnot)
  exact ⟨since, by rw [takeWhile_append_of_pos hbefore]; simp⟩

/-- A commit whose index lies after those of `pre` is one of the commits that follow. -/
lemma commit_since {hist pre since rest : List Event} {t i : ℕ}
    (hsplit : hist = pre ++ begun t :: since ++ rest) (hle : (commitsOf pre).length ≤ i)
    (hlt : i < (commitsOf pre).length + (commitsOf since).length) :
    ∃ u, (commitsOf hist)[i]? = some u ∧ .committed u ∈ since := by
  have hcommits : commitsOf hist = commitsOf pre ++ (commitsOf since ++ commitsOf rest) := by
    rw [hsplit, commitsOf_append, commitsOf_append, append_assoc]
    rfl
  obtain ⟨u, hu⟩ : ∃ u, (commitsOf since)[i - (commitsOf pre).length]? = some u :=
    ⟨_, getElem?_eq_getElem (by omega)⟩
  refine ⟨u, ?_, ?_⟩
  · rw [hcommits, getElem?_append_right hle, getElem?_append_left (by omega), hu]
  · obtain ⟨a, ha, hac⟩ := mem_filterMap.mp (mem_of_getElem? hu)
    cases a with
    | begun => cases hac
    | committed =>
      simp only [commit?, some.injEq] at hac
      exact hac ▸ ha

/-- In a history without conflicts every transaction that depends on keys has seen them as they
are when it commits. -/
lemma Executes.current {V : Type} {x : Execution (UInt8 × List UInt8) V}
    {hist : List Event} (hx : Executes x hist) (hfree : ConflictFree hist)
    (hstarted : ∀ before after c, hist = before ++ committed c :: after →
      .begun c.id ∈ before) : x.Current := by
  intro j hj k hk
  rw [hx.n] at hj
  have hc := getElem?_eq_getElem hj
  set c := (commitsOf hist)[j] with hcdef
  by_cases hiso : c.isolation = .serializable
  swap
  · rw [hx.blind j c hc hiso] at hk
    cases hk
  obtain ⟨hle, hub⟩ := hx.seen j c hc hiso k
  refine ⟨hub, fun i hi hij hwrite => ?_⟩
  rw [hx.footprint j c hc hiso] at hk
  obtain ⟨e, he, hek⟩ := hk
  -- the commit lies after the begin of its transaction, and commit `i` lies between the two
  obtain ⟨before, after, hhist, hlen⟩ := split_of_getElem? hc
  obtain ⟨since, hsince⟩ := takeWhile_begun (hstarted before after c hhist)
  set pre := before.takeWhile (· ≠ .begun c.id) with hpre
  have hbegun : begunAt hist c.id = (commitsOf pre).length := by
    have : hist.takeWhile (· ≠ .begun c.id) = pre := by
      rw [hhist, hsince, append_assoc, cons_append, takeWhile_append_of_pos]
      · simp
      · intro a ha
        have := mem_takeWhile_imp (hpre ▸ ha)
        simpa using this
    rw [begunAt, this]
  have hlen' : (commitsOf before).length = (commitsOf pre).length + (commitsOf since).length := by
    conv_lhs => rw [hsince]
    rw [commitsOf_append, length_append]
    rfl
  have hsplit : hist = pre ++ begun c.id :: since ++ committed c :: after := by
    rw [hhist]
    conv_lhs => rw [hsince]
  have hlow : (commitsOf pre).length ≤ i := by omega
  obtain ⟨u, hu, hmem⟩ := commit_since hsplit hlow (by omega)
  rw [hx.writes i u hu] at hwrite
  obtain ⟨w, hw, hwk⟩ := hwrite
  obtain ⟨between, rest, hbetween⟩ := append_of_mem hmem
  have hconf := hfree pre between rest after c.id u c
    (by rw [hsplit, hbetween]; simp) rfl hiso w hw e he
  have : w.keysEqual e = true := by
    simpa [RwEntry.keysEqual, RwEntry.at] using hwk.trans hek.symm
  rw [hconf] at this
  cases this

/-- Serializable isolation. In every run of the manager, no commit that took effect after a
committing SERIALIZABLE transaction began wrote a key of its recorded set; and every execution of
the commits of the run is the serial execution in commit order: the database is the same after
each commit, and so is everything that a transaction has seen of the keys it depends on. -/
theorem serializable_in_commit_order (ops : List Op) : ConflictFree (Manager.create.history ops) ∧
      ∀ (V : Type) (x : Execution (UInt8 × List UInt8) V),
        Executes x (Manager.create.history ops) →
        (∀ j ≤ x.n, x.db j = serial x.commit (x.db 0) j) ∧
        ∀ j < x.n, ∀ k ∈ (x.commit j).footprint,
          x.db (x.seen j k) k = serial x.commit (x.db 0) j k := by
  have inv := Manager.inv_run ops
  refine ⟨inv.conflictFree, fun V x hx => ?_⟩
  have hcur := hx.current inv.conflictFree inv.started
  refine ⟨fun j hj => hcur.eq_serial hj, fun j hj k hk => ?_⟩
  rw [hcur.seen_eq hj hk, hcur.eq_serial hj.le]

namespace Sample

/-- Two SERIALIZABLE transactions that overlap: the second writes `b` and commits first, the first
reads `a` and writes `c`. -/
def overlapping : List Op :=
  [.begin .serializable true true, .begin .serializable true true,
    .recordRead 1 0 [97] true, .recordWrite 2 0 [98] true, .commit 2 Env.good,
    .recordWrite 1 0 [99] true, .commit 1 Env.good]

def second : Commit := ⟨2, .serializable, [⟨0, [98], true⟩]⟩

def first : Commit := ⟨1, .serializable, [⟨0, [97], false⟩, ⟨0, [99], true⟩]⟩

lemma history_overlapping : Manager.create.history overlapping =
    [.begun 1, .begun 2, .committed second, .committed first] := by
  decide

/-- The second transaction writes 5, the first copies what it has read. -/
def transaction : ℕ → Optimistic.Commit (UInt8 × List UInt8) ℕ
  | 0 =>
    { footprint := {(0, [98])}
      writes := {(0, [98])}
      body := fun _ _ => 5
      body_congr := fun _ _ _ => rfl }
  | _ =>
    { footprint := {(0, [97]), (0, [99])}
      writes := {(0, [99])}
      body := fun view _ => view (0, [97])
      body_congr := fun v v' h => funext fun _ => h (0, [97]) (by simp) }

/-- The databases of a run in which both transactions see what was there at their begin. -/
noncomputable def databases : ℕ → UInt8 × List UInt8 → ℕ
  | 0 => fun _ => 0
  | j + 1 => (transaction j).install (fun _ => 0) (databases j)

noncomputable def copying : Execution (UInt8 × List UInt8) ℕ where
  commit := transaction
  n := 2
  db := databases
  seen := fun _ _ => 0
  step := fun _ _ => rfl

lemma executes_copying : Executes copying (Manager.create.history overlapping) := by
  rw [history_overlapping]
  have hcases : ∀ j c, (commitsOf [.begun 1, .begun 2, .committed second, .committed first])[j]? =
      some c → (j = 0 ∧ c = second) ∨ (j = 1 ∧ c = first) := by
    intro j c hc
    match j with
    | 0 => exact .inl ⟨rfl, (Option.some.inj hc).symm⟩
    | 1 => exact .inr ⟨rfl, (Option.some.inj hc).symm⟩
    | j + 2 => cases hc
  refine ⟨rfl, fun j c hc => ?_, fun j c hc _ => ?_, fun j c hc _ k => ?_, fun j c hc hiso => ?_⟩
  all_goals obtain ⟨rfl, rfl⟩ | ⟨rfl, rfl⟩ := hcases j c hc
  · ext k
    simp [copying, transaction, second, Commit.writes, RwEntry.at, eq_comm]
  · ext k
    simp [copying, transaction, first, Commit.writes, RwEntry.at, eq_comm]
  · ext k
    simp [copying, transaction, second, RwEntry.at, eq_comm]
  · ext k
    simp [copying, transaction, first, RwEntry.at, eq_comm]
  · exact ⟨Nat.le_of_eq rfl, Nat.zero_le _⟩
  · exact ⟨Nat.le_of_eq rfl, Nat.zero_le _⟩
  · exact absurd rfl hiso
  · exact absurd rfl hiso

theorem serializable_in_commit_order_copying :
    copying.db 2 = Optimistic.serial copying.commit (copying.db 0) 2 :=
  ((serializable_in_commit_order overlapping).2 ℕ copying executes_copying).1 2 (by decide)

end Sample

end Qihse.Txn
