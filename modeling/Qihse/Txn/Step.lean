import Qihse.Txn.Manager

/-!
# What a call does to the manager

`Manager.Step` lists everything that a call can do: nothing that matters, a new transaction, an
edit of one handle, an abort, a commit. `Manager.Wf` is what these keep: live handles are exactly
the active list, the registry knows only finished transactions, and the write counters of a handle
agree with its read and write set.
-/

namespace Qihse.Txn

open List Option Function Handle RwEntry

/-! ### Handles -/

/-- The write counters of a handle and of its savepoints agree with its read and write set. -/
structure Handle.Counted (h : Handle) : Prop where
  count : h.writeCount = h.rwSet.countP isWrite
  sorted : (h.savepoints.map Savepoint.writeCount).Pairwise (· ≤ ·)
  bound : ∀ sp ∈ h.savepoints, sp.writeCount ≤ h.writeCount

/-- A change of a live or finished handle that leaves alone what the other calls rely on. -/
structure Handle.Edit (h h' : Handle) : Prop where
  id : h'.id = h.id
  live : h'.live = h.live
  isolation : h'.isolation = h.isolation
  snapshot : h'.snapshot = h.snapshot
  serializationSnapshot : h'.serializationSnapshot = h.serializationSnapshot
  counted : h.Counted → h'.Counted

namespace Manager

lemma countP_keepWrites (n : ℕ) (es : List RwEntry) :
    (keepWrites n es).countP isWrite = min n (es.countP isWrite) := by
  induction es generalizing n with
  | nil => simp [keepWrites]
  | cons e es ih =>
    unfold keepWrites
    cases hw : e.isWrite with
    | false => simp [hw, ih]
    | true =>
      cases n with
      | zero => simp [ih]
      | succ => simp [hw, ih]

lemma savepointsTo_isPrefix (name : List UInt8) (stack : List Savepoint) :
    savepointsTo name stack <+: stack := by
  unfold savepointsTo
  have h : (stack.reverse.dropWhile fun sp => sp.name != name) <:+ stack.reverse :=
    dropWhile_suffix _
  simpa using reverse_prefix.mpr h

variable {h : Handle}

lemma edit_savepoint (name : List UInt8) : h.Edit { h with
      savepoints := h.savepoints ++ [⟨name, h.startLsn, h.writeCount⟩] } where
  id := rfl
  live := rfl
  isolation := rfl
  snapshot := rfl
  serializationSnapshot := rfl
  counted hc := by
    refine ⟨hc.count, ?_, ?_⟩
    · simp only [map_append, map_cons, map_nil, pairwise_append]
      refine ⟨hc.sorted, by simp, ?_⟩
      intro a ha
      obtain ⟨sp, hsp, rfl⟩ := List.mem_map.mp ha
      exact forall_mem_singleton.mpr (hc.bound sp hsp)
    · exact forall_mem_append.mpr ⟨hc.bound, forall_mem_singleton.mpr (le_rfl)⟩

lemma edit_rollbackToSavepoint {name : List UInt8} {sp : Savepoint}
    (hsp : (savepointsTo name h.savepoints).getLast? = some sp) :
    h.Edit { h with
      writeCount := sp.writeCount
      savepoints := savepointsTo name h.savepoints
      rwSet := if h.rwSet.length > sp.writeCount then keepWrites sp.writeCount h.rwSet
        else h.rwSet } where
  id := rfl
  live := rfl
  isolation := rfl
  snapshot := rfl
  serializationSnapshot := rfl
  counted hc := by
    have hpre := savepointsTo_isPrefix name h.savepoints
    have hmem : sp ∈ h.savepoints := hpre.subset (mem_of_getLast? hsp)
    have hle : sp.writeCount ≤ h.rwSet.countP isWrite :=
      hc.count ▸ hc.bound sp hmem
    have hsorted : ((savepointsTo name h.savepoints).map Savepoint.writeCount).Pairwise
        (· ≤ ·) := hc.sorted.sublist (hpre.sublist.map _)
    refine ⟨?_, hsorted, ?_⟩
    · dsimp only
      split_ifs with hlen
      · rw [countP_keepWrites, min_eq_left hle]
      · -- a set this short holds nothing but the writes up to the savepoint
        have := countP_le_length (p := isWrite) (l := h.rwSet)
        omega
    · -- the found savepoint is the last one kept, so its counter is the largest
      intro q hq
      obtain ⟨front, hfront⟩ := getLast?_eq_some_iff.mp hsp
      rw [hfront] at hq hsorted
      obtain hq | hq := mem_append.mp hq
      · rw [map_append, pairwise_append] at hsorted
        exact hsorted.2.2 _ (List.mem_map_of_mem hq) _ (by simp)
      · rw [mem_singleton.mp hq]

lemma edit_record (e : UInt8) (key : List UInt8) (isWrite : Bool) :
    h.Edit { h with
      rwSet := h.rwSet ++ [⟨e, key, isWrite⟩]
      writeCount := if isWrite then h.writeCount + 1 else h.writeCount } where
  id := rfl
  live := rfl
  isolation := rfl
  snapshot := rfl
  serializationSnapshot := rfl
  counted hc := by
    refine ⟨?_, hc.sorted, ?_⟩
    · cases isWrite <;> simp [hc.count]
    · intro sp hsp
      have := hc.bound sp hsp
      dsimp only
      split_ifs <;> omega

end Manager

/-! ### Events and steps -/

/-- A commit that took effect, with the read and write set that the transaction had recorded. -/
structure Commit where
  id : ℕ
  isolation : Isolation
  rwSet : List RwEntry
deriving DecidableEq

/-- The entries that a commit wrote. -/
def Commit.writes (c : Commit) : List RwEntry := c.rwSet.filter isWrite

/-- What the outside sees of a run: transactions that begin, and commits that take effect. -/
inductive Event
  | begun (t : ℕ)
  | committed (c : Commit)
deriving DecidableEq

def Event.isCommitOf (t : ℕ) : Event → Bool
  | .begun _ => false
  | .committed c => c.id = t

/-- The transaction that a call would commit. -/
def Op.commits : Op → Option ℕ
  | .commit t _ => some t
  | .commitPrepared t _ => some t
  | _ => none

def Handle.event (h : Handle) : Event := .committed { h with }

/-- The event of a call, read off its result. -/
def Manager.event (m : Manager) (op : Op) : Option Event :=
  match op with
  | .begin isolation handle node => (m.begin isolation handle node).1.map .begun
  | .commit t env => if (m.commit t env).1 then (m.txns t).map Handle.event else none
  | .commitPrepared t env =>
    if (m.commitPrepared t env).1 then (m.txns t).map Handle.event else none
  | _ => none

/-- The manager after a new transaction. -/
def Manager.begun (m : Manager) (isolation : Isolation) : Manager :=
  (m.begin isolation true true).2

inductive Manager.Step (m : Manager) (op : Op) : Option Event → Manager → Prop
  | idle (n : ℕ) (ps : List Participant) (hn : m.nextTxnId ≤ n) :
    Step m op none { m with nextTxnId := n, participants := ps }
  | begun (isolation : Isolation) :
    Step m op (some (.begun m.nextTxnId)) (m.begun isolation)
  | edited {t : ℕ} {h h' : Handle} (cs : List Call) (hm : m.txns t = some h)
    (hedit : h.Edit h') : Step m op none ({ m with calls := cs }.setTxn h')
  | discarded {t : ℕ} {h : Handle} (cs : List Call) (alloc : Bool) (hm : m.txns t = some h)
    (hlive : h.live) : Step m op none ({ m with calls := cs }.discard h alloc)
  | pruned {t : ℕ} {h : Handle} (cs : List Call) (alloc : Bool) (hm : m.txns t = some h)
    (hlive : h.live) :
    Step m op none ({ m with calls := cs }.discard h alloc).pruneCommittedHistory
  | settled {t : ℕ} {h : Handle} (cs : List Call) (hm : m.txns t = some h) (hlive : h.live)
    (hop : op.commits = some t) (hvalid : m.validateOcc h) :
    Step m op (some h.event) ({ m with calls := cs }.settle h (m.summary h)).pruneCommittedHistory

namespace Manager

variable {m : Manager} {op : Op}

lemma Step.refl : Step m op none m := .idle m.nextTxnId m.participants (le_rfl)

lemma begin_step (isolation : Isolation) (handle node : Bool) :
    Step m op ((m.begin isolation handle node).1.map .begun) (m.begin isolation handle node).2 := by
  cases handle with
  | false => exact .refl
  | true =>
    cases node with
    | false => exact .idle (m.nextTxnId + 1) m.participants (Nat.le_succ _)
    | true => exact .begun isolation

lemma record_step (t : ℕ) (isWrite : Bool) (e : UInt8) (key : List UInt8) (alloc : Bool) :
    Step m op none (m.record t isWrite e key alloc).2 := by
  unfold record
  split
  · exact .refl
  next _ hm =>
    cases alloc with
    | false => exact .refl
    | true => exact .edited m.calls hm (edit_record _ _ _)

lemma savepoint_step (t : ℕ) (name : List UInt8) : Step m op none (m.savepoint t name).2 := by
  unfold savepoint
  split
  · exact .refl
  next _ hm =>
    split_ifs
    · exact .refl
    · exact .edited m.calls hm (edit_savepoint _)

lemma rollbackToSavepoint_step (t : ℕ) (name : List UInt8) :
    Step m op none (m.rollbackToSavepoint t name).2 := by
  unfold rollbackToSavepoint
  split
  · exact .refl
  next h hm =>
    split_ifs
    · exact .refl
    · cases hsp : (savepointsTo name h.savepoints).getLast? with
      | none => exact .refl
      | some => exact .edited m.calls hm (edit_rollbackToSavepoint hsp)

lemma attachResource_step (t : ℕ) : Step m op none (m.attachResource t).2 := by
  unfold attachResource
  split
  · exact .refl
  next _ hm =>
    split_ifs
    · exact .refl
    · exact .edited m.calls hm
        ⟨rfl, rfl, rfl, rfl, rfl, fun hc => { hc with }⟩

lemma registerParticipant_step (p : Participant) : Step m op none (m.registerParticipant p).2 := by
  unfold registerParticipant
  split_ifs
  · exact .refl
  · exact .idle m.nextTxnId _ (le_rfl)

variable {h : Handle}

lemma live_of_active (hs : ¬ h.state ≠ .active) : h.live := by
  simp_all [live]

lemma live_of_prepared (hs : ¬ h.state ≠ .prepared) : h.live := by
  simp_all [live]

lemma rollback_step (t : ℕ) (alloc : Bool) : Step m op none (m.rollback t alloc).2 := by
  unfold rollback
  split
  · exact .refl
  next _ hm =>
    split_ifs with hs
    · exact .refl
    · exact .pruned m.calls alloc hm (live_of_active hs)

lemma prepare_step (t : ℕ) (votes : List Bool) (alloc : Bool) :
    Step m op none (m.prepare t votes alloc).2 := by
  unfold prepare
  split
  · exact .refl
  next h hm =>
    dsimp only
    split_ifs with hs hok
    · exact .refl
    · refine .edited _ hm ⟨rfl, ?_, rfl, rfl, rfl, fun hc => { hc with }⟩
      have : h.live := live_of_active fun hc => hs (.inl hc)
      rw [this]
      rfl
    · exact .pruned _ alloc hm (live_of_active fun hc => hs (.inl hc))

lemma abortPrepared_step (t : ℕ) (alloc : Bool) : Step m op none (m.abortPrepared t alloc).2 := by
  unfold abortPrepared
  split
  · exact .refl
  next _ hm =>
    split_ifs with hs
    · exact .refl
    · exact .discarded _ alloc hm (live_of_prepared hs)

lemma commit_step (t : ℕ) (env : Env) (hop : op.commits = some t) :
    Step m op (if (m.commit t env).1 then (m.txns t).map Handle.event else none)
      (m.commit t env).2 := by
  generalize hr : m.commit t env = r
  unfold commit at hr
  cases hm : m.txns t with
  | none =>
    simp only [hm] at hr
    subst hr
    exact .refl
  | some =>
    simp only [hm] at hr
    split_ifs at hr with hs hval hsum hreg hres <;> subst hr
    · exact .refl
    iterate 4 · exact .pruned m.calls _ hm (live_of_active hs)
    · exact .settled m.calls hm (live_of_active hs) hop (by simp_all)

lemma commitPrepared_step (t : ℕ) (env : Env) (hop : op.commits = some t) :
    Step m op (if (m.commitPrepared t env).1 then (m.txns t).map Handle.event else none)
      (m.commitPrepared t env).2 := by
  generalize hr : m.commitPrepared t env = r
  unfold commitPrepared at hr
  cases hm : m.txns t with
  | none =>
    simp only [hm] at hr
    subst hr
    exact .refl
  | some =>
    simp only [hm] at hr
    split_ifs at hr with hs hval hsum hreg <;> subst hr
    · exact .refl
    iterate 3 · exact .pruned _ _ hm (live_of_prepared hs)
    · exact .settled _ hm (live_of_prepared hs) hop (by simp_all)

/-- Every call is one of the steps. -/
lemma exec_step (m : Manager) (op : Op) : Step m op (m.event op) (m.exec op).2 := by
  cases op with
  | begin isolation handle node => exact begin_step isolation handle node
  | recordRead t e key alloc => exact record_step t false e key alloc
  | recordWrite t e key alloc => exact record_step t true e key alloc
  | savepoint t name => exact savepoint_step t name
  | rollbackToSavepoint t name => exact rollbackToSavepoint_step t name
  | attachResource t => exact attachResource_step t
  | registerParticipant p => exact registerParticipant_step p
  | commit t env => exact commit_step t env rfl
  | rollback t alloc => exact rollback_step t alloc
  | prepare t votes alloc => exact prepare_step t votes alloc
  | commitPrepared t env => exact commitPrepared_step t env rfl
  | abortPrepared t alloc => exact abortPrepared_step t alloc

/-! ### Well-formed managers -/

structure Wf (m : Manager) : Prop where
  id : ∀ t h, m.txns t = some h → h.id = t
  known : ∀ t h, m.txns t = some h → t < m.nextTxnId
  nodup : m.active.Nodup
  active : ∀ t, t ∈ m.active ↔ ∃ h, m.txns t = some h ∧ h.live
  unfinished : ∀ t h, m.txns t = some h → h.live → m.registryFind t = none
  unborn : ∀ t, m.nextTxnId ≤ t → m.registryFind t = none
  counted : ∀ t h, m.txns t = some h → h.Counted
  seq : ∀ t h, m.txns t = some h → h.serializationSnapshot ≤ m.commitSeq

lemma wf_create : create.Wf where
  id := by simp [create]
  known := by simp [create]
  nodup := nodup_nil
  active := by simp [create]
  unfinished := by simp [create]
  unborn := fun _ _ => rfl
  counted := by simp [create]
  seq := by simp [create]

variable {t : ℕ}

variable {m' : Manager}

/-- A manager that differs from `m` in one handle, and in what the lists say of it. -/
lemma Wf.replace {h' : Handle} (w : m.Wf) (htxns : m'.txns = Function.update m.txns t (some h'))
    (hid : h'.id = t) (hcounted : h'.Counted) (hseq : h'.serializationSnapshot ≤ m'.commitSeq)
    (hle : m.commitSeq ≤ m'.commitSeq) (hnext : m.nextTxnId ≤ m'.nextTxnId)
    (hknown : t < m'.nextTxnId) (hnodup : m'.active.Nodup)
    (hactive : ∀ u, u ∈ m'.active ↔ if u = t then h'.live else u ∈ m.active)
    (hregistry : ∀ u, u ≠ t → m'.registryFind u = m.registryFind u)
    (hlive : h'.live → m'.registryFind t = none) : m'.Wf := by
  have hget : ∀ {u q}, m'.txns u = some q → (u = t ∧ q = h') ∨ (u ≠ t ∧ m.txns u = some q) := by
    intro u q hq
    rw [htxns] at hq
    by_cases hu : u = t
    · subst hu
      simp only [update_self, some.injEq] at hq
      exact .inl ⟨rfl, hq.symm⟩
    · rw [update_of_ne hu] at hq
      exact .inr ⟨hu, hq⟩
  refine ⟨?_, ?_, hnodup, ?_, ?_, ?_, ?_, ?_⟩
  · intro u q hq
    obtain ⟨rfl, rfl⟩ | ⟨-, hq⟩ := hget hq
    · exact hid
    · exact w.id u q hq
  · intro u q hq
    obtain ⟨rfl, rfl⟩ | ⟨-, hq⟩ := hget hq
    · exact hknown
    · exact (w.known u q hq).trans_le hnext
  · intro u
    rw [hactive, htxns]
    by_cases hu : u = t
    · simp [hu]
    · simp [hu, w.active u]
  · intro u q hq hl
    obtain ⟨rfl, rfl⟩ | ⟨hu, hq⟩ := hget hq
    · exact hlive hl
    · rw [hregistry u hu]
      exact w.unfinished u q hq hl
  · intro u hu
    rw [hregistry u (by omega)]
    exact w.unborn u (hnext.trans hu)
  · intro u q hq
    obtain ⟨rfl, rfl⟩ | ⟨-, hq⟩ := hget hq
    · exact hcounted
    · exact w.counted u q hq
  · intro u q hq
    obtain ⟨rfl, rfl⟩ | ⟨-, hq⟩ := hget hq
    · exact hseq
    · exact (w.seq u q hq).trans hle

lemma Wf.edit {h' : Handle} (w : m.Wf) (hm : m.txns t = some h) (hedit : h.Edit h')
    (cs : List Call) : ({ m with calls := cs }.setTxn h').Wf := by
  have hid : h'.id = t := hedit.id.trans (w.id t h hm)
  have htxns : ({ m with calls := cs }.setTxn h').txns = Function.update m.txns t (some h') := by
    simp [setTxn, hid]
  refine w.replace htxns hid (hedit.counted (w.counted t h hm)) ?_ le_rfl le_rfl (w.known t h hm)
    w.nodup ?_ (fun _ _ => rfl) fun hl => w.unfinished t h hm (hedit.live ▸ hl)
  · rw [hedit.serializationSnapshot]
    exact w.seq t h hm
  · intro u
    change u ∈ m.active ↔ _
    by_cases hu : u = t
    · simp [hu, w.active t, hm, hedit.live]
    · simp [hu]

/-- What a commit and an abort have in common: one live handle ends, is taken off the active list
and perhaps entered in the registry. -/
structure Retires (m m' : Manager) (h : Handle) : Prop where
  txns : ∃ h' : Handle, m'.txns = Function.update m.txns h.id (some h') ∧ h'.id = h.id ∧
    h'.live = false ∧ h'.serializationSnapshot = h.serializationSnapshot ∧
    (h.Counted → h'.Counted)
  active : m'.active = m.active.erase h.id
  registry : ∀ t, t ≠ h.id → m'.registryFind t = m.registryFind t
  nextTxnId : m'.nextTxnId = m.nextTxnId
  seq : m.commitSeq ≤ m'.commitSeq

lemma Wf.retire (w : m.Wf) (hm : m.txns t = some h) (hr : Retires m m' h) : m'.Wf := by
  have hid : h.id = t := w.id t h hm
  obtain ⟨h', htxns, hid', hdead, hseq, hcounted⟩ := hr.txns
  have hactive := hr.active
  have hregistry := hr.registry
  rw [hid] at htxns hid' hactive hregistry
  refine w.replace htxns hid' (hcounted (w.counted t h hm)) (hseq ▸ (w.seq t h hm).trans hr.seq)
    hr.seq hr.nextTxnId.ge (hr.nextTxnId ▸ w.known t h hm) (hactive ▸ w.nodup.erase t) ?_
    hregistry ?_
  · intro u
    rw [hactive, w.nodup.mem_erase_iff, hdead]
    by_cases hu : u = t <;> simp [hu]
  · simp [hdead]

variable {u : ℕ}

lemma registryFind_cons {state : TxnState} :
    ({ m with registry := (u, state) :: m.registry } : Manager).registryFind t =
      if u = t then some state else m.registryFind t := by
  unfold registryFind
  by_cases hu : u = t <;> simp [hu]

lemma retires_discard (h : Handle) (cs : List Call) (alloc : Bool) :
    Retires m ({ m with calls := cs }.discard h alloc) h := by
  refine ⟨⟨{ h with state := .aborted, resource := false }, ?_, rfl, rfl, rfl,
    fun hc => { hc with }⟩, ?_, ?_, ?_, ?_⟩
  case refine_3 =>
    intro t ht
    cases alloc with
    | false => rfl
    | true => exact (registryFind_cons (m := m)).trans (if_neg ht.symm)
  all_goals cases alloc <;> rfl

lemma Retires.prune (hr : Retires m m' h) : Retires m m'.pruneCommittedHistory h :=
  { hr with }

lemma retires_settle (h : Handle) (cs : List Call) (summary : Option Summary) :
    Retires m ({ m with calls := cs }.settle h summary) h := by
  refine ⟨⟨{ h with state := .committed, resource := false }, rfl, rfl, rfl, rfl,
    fun hc => { hc with }⟩, rfl, ?_, rfl, Nat.le_succ _⟩
  intro t ht
  exact (registryFind_cons (m := m)).trans (if_neg ht.symm)

lemma Wf.begun (w : m.Wf) (isolation : Isolation) : (m.begun isolation).Wf := by
  let new : Handle :=
    ⟨m.nextTxnId, .active, isolation, m.nextTxnId - 1, m.commitSeq, 0, [], [], 0, false⟩
  have htxns : (m.begun isolation).txns = Function.update m.txns m.nextTxnId (some new) := rfl
  refine w.replace htxns rfl ⟨rfl, List.Pairwise.nil, by simp [new]⟩ le_rfl le_rfl (Nat.le_succ _)
    (Nat.lt_succ_self _) (nodup_cons.mpr ⟨?_, w.nodup⟩) ?_ (fun _ _ => rfl)
    fun _ => w.unborn _ le_rfl
  · intro hmem
    obtain ⟨q, hq, -⟩ := (w.active _).mp hmem
    exact absurd (w.known _ q hq) (lt_irrefl _)
  · intro u
    change u ∈ m.nextTxnId :: m.active ↔ _
    by_cases hu : u = m.nextTxnId <;> simp [hu, new, live]

variable {e : Option Event}

/-- Every step keeps a manager well formed. -/
lemma Wf.step (w : m.Wf) (hs : Step m op e m') : m'.Wf := by
  cases hs with
  | idle n ps hn =>
    exact { w with
      known := fun u q hq => (w.known u q hq).trans_le hn
      unborn := fun u hu => w.unborn u (hn.trans hu) }
  | begun isolation => exact w.begun isolation
  | edited cs hm hedit => exact w.edit hm hedit cs
  | discarded cs alloc hm => exact w.retire hm (retires_discard _ cs alloc)
  | pruned cs alloc hm => exact w.retire hm (retires_discard _ cs alloc).prune
  | settled cs hm => exact w.retire hm (retires_settle _ cs _).prune

lemma Wf.exec (w : m.Wf) (op : Op) : (m.exec op).2.Wf := w.step (m.exec_step op)

/-! ### The registry and the handles after a step -/

lemma isCommitted_cons {state : TxnState} :
    ({ m with registry := (t, state) :: m.registry } : Manager).isCommitted u =
      if t = u then decide (state = .committed) else m.isCommitted u := by
  unfold isCommitted
  rw [registryFind_cons]
  split_ifs <;> simp

lemma Wf.isCommitted_live (w : m.Wf) (hm : m.txns t = some h) (hlive : h.live) :
    m.isCommitted t = false := by
  simp [isCommitted, w.unfinished t h hm hlive]

lemma isCommitted_discard (w : m.Wf) (hm : m.txns t = some h) (hlive : h.live) (cs : List Call)
    (alloc : Bool) : ({ m with calls := cs }.discard h alloc).isCommitted u = m.isCommitted u := by
  cases alloc with
  | false => rfl
  | true =>
    refine (isCommitted_cons (m := m)).trans ?_
    split_ifs with hu
    · subst hu
      rw [w.id t h hm, w.isCommitted_live hm hlive]
      rfl
    · rfl

/-- The registry says of a transaction that it has committed exactly when its commit took
effect. -/
lemma Wf.isCommitted_step (w : m.Wf) (hs : Step m op e m') (u : ℕ) :
    m'.isCommitted u = (e.any (Event.isCommitOf u) || m.isCommitted u) := by
  cases hs with
  | idle | begun | edited => rfl
  | discarded cs alloc hm hlive | pruned cs alloc hm hlive =>
    exact isCommitted_discard w hm hlive cs alloc
  | settled cs hm hlive hop hvalid =>
    rename_i t h
    refine (isCommitted_cons (m := m)).trans ?_
    change _ = (decide (h.id = u) || m.isCommitted u)
    by_cases hu : h.id = u <;> simp [hu]

/-- A transaction that is live after a step was live before it, unless it has just begun, and its
isolation level and snapshots are the same. -/
lemma Wf.live_step {h' : Handle} (w : m.Wf) (hs : Step m op e m') (hm : m.txns t = some h)
    (hm' : m'.txns t = some h') (hlive : h'.live) :
    h.live ∧ h'.isolation = h.isolation ∧ h'.snapshot = h.snapshot := by
  have hsame : m'.txns t = m.txns t → h.live ∧ h'.isolation = h.isolation ∧
      h'.snapshot = h.snapshot := by
    intro heq
    rw [heq, hm, some.injEq] at hm'
    subst hm'
    exact ⟨hlive, rfl, rfl⟩
  have hretire : ∀ {q : Handle}, Retires m m' q → m'.txns t = m.txns t := by
    intro q hr
    obtain ⟨q', htxns, -, hdead, -⟩ := hr.txns
    rw [htxns]
    refine update_of_ne ?_ _ _
    rintro rfl
    rw [htxns, update_self, some.injEq] at hm'
    subst hm'
    rw [hdead] at hlive
    cases hlive
  cases hs with
  | idle => exact hsame rfl
  | begun =>
    refine hsame (update_of_ne ?_ _ _)
    rintro rfl
    exact lt_irrefl _ (w.known _ h hm)
  | edited cs hq hedit =>
    rename_i u q q'
    have hid : q'.id = u := hedit.id.trans (w.id u q hq)
    by_cases ht : t = u
    · subst ht
      rw [hm, some.injEq] at hq
      subst hq
      have heq : q' = h' := by simpa [setTxn, hid] using hm'
      subst heq
      exact ⟨hedit.live ▸ hlive, hedit.isolation, hedit.snapshot⟩
    · exact hsame (by simp [setTxn, hid, ht])
  | discarded cs alloc => exact hsame (hretire (retires_discard _ cs alloc))
  | pruned cs alloc => exact hsame (hretire (retires_discard _ cs alloc).prune)
  | settled cs => exact hsame (hretire (retires_settle _ cs _).prune)

lemma known_step (hs : Step m op e m') (hm : m.txns t = some h) : ∃ h', m'.txns t = some h' := by
  have hupdate : ∀ {u : ℕ} {q : Handle}, m'.txns = Function.update m.txns u (some q) →
      ∃ h', m'.txns t = some h' := by
    intro u q htxns
    by_cases ht : t = u
    · exact ⟨q, by rw [htxns, ht, update_self]⟩
    · exact ⟨h, by rw [htxns, update_of_ne ht, hm]⟩
  have hretire : ∀ {q : Handle}, Retires m m' q → ∃ h', m'.txns t = some h' := by
    intro q hr
    obtain ⟨q', htxns, -⟩ := hr.txns
    exact hupdate htxns
  cases hs with
  | idle => exact ⟨h, hm⟩
  | begun | edited => exact hupdate rfl
  | discarded cs alloc => exact hretire (retires_discard _ cs alloc)
  | pruned cs alloc => exact hretire (retires_discard _ cs alloc).prune
  | settled cs => exact hretire (retires_settle _ cs _).prune

/-- A commit takes effect in a call that commits its transaction, which is live and valid. -/
lemma Wf.commits_of_step {c : Commit} (w : m.Wf) (hs : Step m op (some (.committed c)) m') :
    op.commits = some c.id ∧ ∃ h, m.txns c.id = some h ∧ h.live ∧ m.validateOcc h := by
  generalize he : (some (.committed c) : Option Event) = e at hs
  cases hs with
  | settled cs hm hlive hop hvalid =>
    simp only [Handle.event, some.injEq, Event.committed.injEq] at he
    subst he
    rw [w.id _ _ hm]
    exact ⟨hop, _, hm, hlive, hvalid⟩
  | _ => simp at he

lemma nextTxnId_step (hs : Step m op e m') : m.nextTxnId ≤ m'.nextTxnId := by
  cases hs with
  | idle n ps hn => exact hn
  | begun => exact Nat.le_succ _
  | edited => exact le_rfl
  | discarded cs alloc => exact le_of_eq (retires_discard _ cs alloc).nextTxnId.symm
  | pruned cs alloc =>
    exact le_of_eq (retires_discard _ cs alloc).prune.nextTxnId.symm
  | settled cs =>
    exact le_of_eq (retires_settle _ cs _).prune.nextTxnId.symm

end Manager

end Qihse.Txn
