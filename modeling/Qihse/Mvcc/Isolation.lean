import Qihse.Mvcc.Session

/-!
# Reads of the multi-version store

Transactions that run one after another read what a plain map of the committed operations holds.

Under concurrency a snapshot is a single number, while visibility follows the live registry. A
write of an active transaction never shows in a view, and neither does the end of a transaction
that is younger than the snapshot or has written nothing; what shows is the commit of an older
transaction that has written. Reads at one snapshot are stable wherever no such commit happens.
-/

namespace Qihse.Mvcc

open List Option Session Version Store

open Txn (Manager Handle Isolation Env)

/-! ### Serial histories -/

/-- The reference of a serial history: the performed writes of the committed transactions with an
id up to the snapshot, applied in order to an empty map. -/
def serialReference (outcomes : List Outcome) (snapshot : ℕ) : Reference :=
  ((outcomes.filter fun o => o.committed && decide (o.id ≤ snapshot)).flatMap
    Outcome.performed).foldl Reference.apply Reference.empty

/-- The writes of a serial history with the transaction of each. -/
def logOf (outcomes : List Outcome) : List (ℕ × Mutation) :=
  outcomes.flatMap fun o => o.performed.map fun m => (o.id, m)

namespace Session

variable {s : Session}

/-- What holds between two transactions of a serial history. -/
structure Follows (s : Session) (outcomes : List Outcome) : Prop where
  manager : s.manager.Wf
  store : empty.applyAll (logOf outcomes) = some s.store
  known : ∀ o ∈ outcomes, o.id < s.manager.nextTxnId
  committed : ∀ o ∈ outcomes, s.manager.isCommitted o.id = o.committed
  sorted : (outcomes.map Outcome.id).Pairwise (· ≤ ·)

lemma perform_manager (t : ℕ) (ms : List Mutation) : (s.perform t ms).1.manager = s.manager := by
  induction ms generalizing s with
  | nil => rfl
  | cons m ms ih =>
    change ((s.mutate t m).2.perform t ms).1.manager = s.manager
    rw [ih]
    obtain hm | ⟨store, h, -, -, -, hm⟩ := s.mutate_cases t m <;> rw [hm]

lemma perform_store (t : ℕ) (ms : List Mutation) :
    s.store.applyAll ((s.perform t ms).2.map fun m => (t, m)) = some (s.perform t ms).1.store := by
  induction ms generalizing s with
  | nil => rfl
  | cons m ms ih =>
    obtain hm | ⟨store, h, -, -, hstore, hm⟩ := s.mutate_cases t m
    · simp only [perform, hm, Bool.false_eq_true, if_false]
      exact ih
    · simp only [perform, hm, if_true, map_cons, applyAll, hstore, bind_some]
      exact @ih { s with store := store }

/-- The registry after the end of a transaction that is live. -/
lemma finish_isCommitted (w : s.manager.Wf) {t : ℕ} {h : Handle}
    (hm : s.manager.txns t = some h) (hlive : h.live) (f : Finish) (u : ℕ) :
    (s.finish t f).2.manager.isCommitted u =
      if u = t then (s.finish t f).1 else s.manager.isCommitted u := by
  cases f with
  | commit env =>
    have hstep := w.isCommitted_step (s.manager.exec_step (.commit t env)) u
    refine hstep.trans ?_
    simp only [Manager.event, hm, map_some]
    change _ = if u = t then (s.manager.commit t env).1 else _
    cases (s.manager.commit t env).1 with
    | false =>
      by_cases hu : u = t
      · subst hu
        simp [w.isCommitted_live hm hlive]
      · simp [hu]
    | true =>
      have hid : h.id = t := w.id t h hm
      by_cases hu : u = t
      · simp [hu, Handle.event, Txn.Event.isCommitOf, hid]
      · have : ¬ t = u := fun hc => hu hc.symm
        simp [hu, Handle.event, Txn.Event.isCommitOf, hid, this]
  | rollback alloc =>
    have hstep := w.isCommitted_step (s.manager.exec_step (.rollback t alloc)) u
    refine hstep.trans ?_
    change s.manager.isCommitted u = if u = t then false else _
    split_ifs with hu
    · rw [hu]
      exact w.isCommitted_live hm hlive
    · rfl

lemma finish_store (t : ℕ) (f : Finish) : (s.finish t f).2.store = s.store := by
  cases f <;> rfl

lemma finish_wf (w : s.manager.Wf) (t : ℕ) (f : Finish) : (s.finish t f).2.manager.Wf := by
  cases f with
  | commit env => exact w.exec (.commit t env)
  | rollback alloc => exact w.exec (.rollback t alloc)

lemma finish_nextTxnId (t : ℕ) (f : Finish) :
    s.manager.nextTxnId ≤ (s.finish t f).2.manager.nextTxnId := by
  cases f with
  | commit env => exact Txn.Manager.nextTxnId_step (s.manager.exec_step (.commit t env))
  | rollback alloc => exact Txn.Manager.nextTxnId_step (s.manager.exec_step (.rollback t alloc))

section

variable {outcomes : List Outcome} (hf : s.Follows outcomes)
include hf

lemma Follows.runProgram (p : Program) :
    (s.runProgram p).1.Follows (outcomes ++ [(s.runProgram p).2]) := by
  set t := s.manager.nextTxnId with ht
  set begun : Session := { s with manager := s.manager.begun p.isolation } with hbegun
  have wbegun : begun.manager.Wf := hf.manager.begun p.isolation
  have hmgr : (begun.perform t p.mutations).1.manager = s.manager.begun p.isolation :=
    perform_manager t p.mutations
  have wwritten : (begun.perform t p.mutations).1.manager.Wf := hmgr ▸ wbegun
  obtain ⟨h, hm, hlive⟩ : ∃ h, (begun.perform t p.mutations).1.manager.txns t = some h ∧
      h.live := by
    refine (wwritten.active t).mp ?_
    rw [hmgr]
    exact mem_cons_self
  have hnew : (s.runProgram p).2.id = t := rfl
  have hcommitted : ∀ u, (s.runProgram p).1.manager.isCommitted u =
      if u = t then (s.runProgram p).2.committed else s.manager.isCommitted u := by
    intro u
    refine (finish_isCommitted wwritten hm hlive p.finish u).trans ?_
    rw [hmgr]
    rfl
  refine ⟨finish_wf wwritten t p.finish, ?_, ?_, ?_, ?_⟩
  · have hlog : logOf (outcomes ++ [(s.runProgram p).2]) =
        logOf outcomes ++ (begun.perform t p.mutations).2.map fun m => (t, m) := by
      simp [logOf, Session.runProgram, hbegun, ht]
    rw [hlog, applyAll_append, hf.store, bind_some]
    refine (perform_store (s := begun) t p.mutations).trans ?_
    exact congrArg some (finish_store t p.finish).symm
  · have hnext : t + 1 ≤ (s.runProgram p).1.manager.nextTxnId := by
      refine le_trans ?_ (finish_nextTxnId t p.finish)
      rw [hmgr]
      exact le_refl _
    intro o ho
    obtain ho | ho := mem_append.mp ho
    · have := hf.known o ho
      omega
    · rw [mem_singleton.mp ho, hnew]
      omega
  · intro o ho
    obtain ho | ho := mem_append.mp ho
    · have hlt := hf.known o ho
      rw [hcommitted, if_neg (by omega)]
      exact hf.committed o ho
    · rw [mem_singleton.mp ho, hnew, hcommitted, if_pos rfl]
  · rw [map_append, pairwise_append]
    refine ⟨hf.sorted, by simp, ?_⟩
    intro a ha b hb
    obtain ⟨o, ho, rfl⟩ := List.mem_map.mp ha
    simp only [map_cons, map_nil, mem_singleton, hnew] at hb
    have := hf.known o ho
    omega

lemma Follows.serial (ps : List Program) :
    (s.serial ps).1.Follows (outcomes ++ (s.serial ps).2) := by
  induction ps generalizing s outcomes with
  | nil => simpa [serial] using hf
  | cons p ps ih =>
    have := ih (hf.runProgram p)
    rwa [append_assoc] at this

end

lemma follows_create : create.Follows [] where
  manager := Txn.Manager.wf_create
  store := rfl
  known := by simp
  committed := by simp
  sorted := List.Pairwise.nil

end Session

/-- The ids in the log of a serial history never go back. -/
lemma sorted_logOf {outcomes : List Outcome} (h : (outcomes.map Outcome.id).Pairwise (· ≤ ·)) :
    (logOf outcomes).Pairwise fun a b => a.1 ≤ b.1 := by
  rw [pairwise_map] at h
  refine pairwise_flatMap.mpr ⟨fun o _ => ?_, h.imp fun hle a ha b hb => ?_⟩
  · rw [pairwise_map]
    exact pairwise_of_forall fun _ _ => le_refl _
  · obtain ⟨m, -, rfl⟩ := List.mem_map.mp ha
    obtain ⟨m', -, rfl⟩ := List.mem_map.mp hb
    exact hle

lemma reference_logOf {committed : ℕ → Bool} {outcomes : List Outcome}
    (h : ∀ o ∈ outcomes, committed o.id = o.committed) (snapshot : ℕ) :
    reference committed snapshot (logOf outcomes) = serialReference outcomes snapshot := by
  unfold reference serialReference
  congr 1
  induction outcomes with
  | nil => rfl
  | cons o outcomes ih =>
    have ih := ih fun q hq => h q (mem_cons_of_mem _ hq)
    have ho := h o (by simp)
    change ((o.performed.map (fun m => (o.id, m)) ++ logOf outcomes).filter _).map Prod.snd = _
    rw [filter_append, map_append, ih, filter_cons, List.filter_map]
    have hboth := Bool.and_comm (decide (o.id ≤ snapshot)) o.committed
    cases hsel : o.committed && decide (o.id ≤ snapshot) <;>
      simp only [Function.comp_def, ho, hboth, hsel] <;> simp [Function.comp_def]

section Views

variable {c c' : ℕ → Bool} {snapshot t : ℕ} {chain : List Version}

/-- A node is seen alike under two registries that agree on its settled marks. -/
lemma Version.see_congr {v : Version} (hmin : v.xmin ≤ snapshot → c v.xmin = c' v.xmin)
    (hmax : v.xmax ≤ snapshot → c v.xmax = c' v.xmax) : v.see c snapshot = v.see c' snapshot := by
  have hset : v.settled c snapshot = v.settled c' snapshot := by
    unfold settled
    by_cases h : v.xmin ≤ snapshot
    · rw [hmin h]
    · simp [h]
  have hvis : v.visible c snapshot = v.visible c' snapshot := by
    unfold visible
    split_ifs with h1 h2 h3 h4 h5 h6 <;> grind
  unfold see
  rw [hset, hvis]

lemma view_congr (hmin : ∀ v ∈ chain, v.xmin ≤ snapshot → c v.xmin = c' v.xmin)
    (hmax : ∀ v ∈ chain, v.xmax ≤ snapshot → c v.xmax = c' v.xmax) :
    view c snapshot chain = view c' snapshot chain := by
  exact filterMap_congr fun v hv => see_congr (hmin v hv) (hmax v hv)

/-- The mark of a transaction that has not committed is not seen. -/
lemma view_supersede (ht : c t = false) :
    view c snapshot (supersede t chain) = view c snapshot chain := by
  induction chain with
  | nil => rfl
  | cons v below ih =>
    unfold supersede
    split_ifs with hdel hmax
    · unfold view at ih ⊢
      rw [filterMap_cons, filterMap_cons, ih]
    · have hsee : see c snapshot { v with xmax := t } = v.see c snapshot := by
        simp only [see, visible, settled]
        grind
      unfold view
      rw [filterMap_cons, filterMap_cons, hsee]
    · rfl

/-- A write of a transaction that has not committed is not seen. -/
lemma view_onChain (ht : c t = false) (ch : Change) :
    view c snapshot (ch.onChain t chain) = view c snapshot chain := by
  have hnew : ∀ {v : Version} {rest : List Version}, v.xmin = t →
      view c snapshot (v :: rest) = view c snapshot rest := by
    intro v rest hv
    have hset : v.settled c snapshot = false := by simp [settled, hv, ht]
    simp [view, see_of_not_settled hset]
  cases ch with
  | insert => exact hnew rfl
  | update => exact (hnew rfl).trans (view_supersede ht)
  | delete =>
    unfold Change.onChain
    split_ifs with hnil
    · rw [hnil]
    · exact hnew rfl

end Views

/-! ### Repeatable reads -/

/-- Some version was written or superseded by the transaction. -/
def Store.touched (s : Store) (t : ℕ) : Bool :=
  s.rows.any fun r => r.chain.any fun v => v.xmin == t || v.xmax == t

lemma Store.not_touched {s : Store} {t : ℕ} (h : s.touched t = false) {e : UInt8} {k : Key}
    {v : Version} (hv : v ∈ s.chain e k) : v.xmin ≠ t ∧ v.xmax ≠ t := by
  unfold chain at hv
  cases hr : s.rowLookup e k with
  | none => simp [hr] at hv
  | some r =>
    simp only [hr, elim_some] at hv
    have hmem : r ∈ s.rows := mem_of_find?_eq_some hr
    simp only [touched, List.any_eq_false] at h
    have := h r hmem
    simp only [List.any_eq_true, not_exists, not_and, Bool.or_eq_true, beq_iff_eq] at this
    exact not_or.mp (this v hv)

namespace Session

/-- A transaction with a fixed snapshot that is not older than `u` is live. -/
def observed (s : Session) (u : ℕ) : Bool :=
  s.manager.active.any fun t => (s.manager.txns t).any fun h =>
    h.live && h.isolation != .readCommitted && decide (u ≤ h.snapshot)

/-- The call does not commit a live and valid transaction that has written while a live one with a
fixed snapshot is not older than it. -/
def commitsUnobserved (s : Session) : Op → Bool
  | .call op => op.commits.all fun u => (s.manager.txns u).all fun h =>
    !(h.live && s.manager.validateOcc h && s.store.touched u && s.observed u)
  | .mutate _ _ => true

/-- Every call of the run meets the condition in the state in which it is made. -/
def Unobserved (s : Session) : List Op → Prop
  | [] => True
  | op :: ops => s.commitsUnobserved op = true ∧ (s.step op).Unobserved ops

variable {s : Session} {t : ℕ} {h h' : Handle}

/-- What a live transaction with a fixed snapshot sees does not change in a step. -/
lemma view_step (w : s.Wf) (hm : s.manager.txns t = some h) (hlive : h.live)
    (hiso : h.isolation ≠ .readCommitted) {op : Op} (hun : s.commitsUnobserved op = true)
    (e : UInt8) (k : Key) :
    view (s.step op).manager.isCommitted h.snapshot ((s.step op).store.chain e k) =
      view s.manager.isCommitted h.snapshot (s.store.chain e k) := by
  cases op with
  | mutate u m =>
    change view (s.mutate u m).2.manager.isCommitted h.snapshot
      ((s.mutate u m).2.store.chain e k) = _
    obtain hmut | ⟨store, q, hq, hact, hstore, hmut⟩ := s.mutate_cases u m
    · rw [hmut]
    · rw [hmut]
      have hu : s.manager.isCommitted u = false :=
        w.manager.isCommitted_live hq (by simp [Handle.live, hact])
      rw [chain_mutate hstore]
      split_ifs
      · exact view_onChain hu _
      · rfl
  | call op =>
    change view (s.manager.exec op).2.isCommitted h.snapshot (s.store.chain e k) = _
    -- only the transaction that the call commits changes its standing
    have hsame : ∀ v ∈ s.store.chain e k, ∀ u, u = v.xmin ∨ u = v.xmax → u ≤ h.snapshot →
        (s.manager.exec op).2.isCommitted u = s.manager.isCommitted u := by
      intro v hv u huv hu
      have hstep := s.manager.exec_step op
      rw [w.manager.isCommitted_step hstep u]
      cases hev : s.manager.event op with
      | none => rfl
      | some ev =>
        rw [hev] at hstep
        cases ev with
        | begun => rfl
        | committed c =>
          obtain ⟨hop, q, hq, hqlive, hvalid⟩ := w.manager.commits_of_step hstep
          have hne : c.id ≠ u := by
            rintro rfl
            obtain htouch | hobs : s.store.touched c.id = false ∨ s.observed c.id = false := by
              simpa [commitsUnobserved, hop, hq, hqlive, hvalid] using hun
            · have := not_touched htouch hv
              obtain huv | huv := huv
              · exact this.1 huv.symm
              · exact this.2 huv.symm
            · have hmem : t ∈ s.manager.active := (w.manager.active t).mpr ⟨h, hm, hlive⟩
              simp only [observed, List.any_eq_false] at hobs
              exact hobs t hmem (by simp [hm, hlive, hiso, hu])
          simp [Txn.Event.isCommitOf, hne]
    exact view_congr (fun v hv hle => hsame v hv v.xmin (.inl rfl) hle)
      (fun v hv hle => hsame v hv v.xmax (.inr rfl) hle)

lemma manager_mutate (s : Session) (u : ℕ) (m : Mutation) :
    (s.step (.mutate u m)).manager = s.manager := by
  change (s.mutate u m).2.manager = s.manager
  obtain hmut | ⟨store, q, -, -, -, hmut⟩ := s.mutate_cases u m <;> rw [hmut]

/-- A handle that is live after a step is the one it was, with the same snapshot. -/
lemma live_step (w : s.Wf) (hm : s.manager.txns t = some h) {op : Op}
    (hm' : (s.step op).manager.txns t = some h') (hlive : h'.live) :
    h.live ∧ h'.isolation = h.isolation ∧ h'.snapshot = h.snapshot := by
  cases op with
  | call op => exact w.manager.live_step (s.manager.exec_step op) hm hm' hlive
  | mutate =>
    rw [manager_mutate, hm, some.injEq] at hm'
    subst hm'
    exact ⟨hlive, rfl, rfl⟩

lemma known_step (hm : s.manager.txns t = some h) (op : Op) :
    ∃ h', (s.step op).manager.txns t = some h' := by
  cases op with
  | call op => exact Txn.Manager.known_step (s.manager.exec_step op) hm
  | mutate =>
    exact ⟨h, by rw [manager_mutate, hm]⟩

section

variable (w : s.Wf) (ops : List Op) (hm : s.manager.txns t = some h)
include w hm

/-- A handle that is live after a run was live all along, with the same snapshot. -/
lemma live_run (hm' : (s.run ops).manager.txns t = some h') (hlive : h'.live) :
    h.live ∧ h'.isolation = h.isolation ∧ h'.snapshot = h.snapshot := by
  induction ops generalizing s h with
  | nil =>
    change s.manager.txns t = some h' at hm'
    rw [hm, some.injEq] at hm'
    subst hm'
    exact ⟨hlive, rfl, rfl⟩
  | cons op ops ih =>
    obtain ⟨q, hq⟩ := known_step hm op
    obtain ⟨hql, hiso, hsnap⟩ := ih (w.step op) hq hm'
    obtain ⟨hl, hiso', hsnap'⟩ := live_step w hm hq hql
    exact ⟨hl, hiso.trans hiso', hsnap.trans hsnap'⟩

lemma view_run (hiso : h.isolation ≠ .readCommitted) (hun : s.Unobserved ops)
    (hm' : (s.run ops).manager.txns t = some h') (hlive : h'.live) (e : UInt8) (k : Key) :
    view (s.run ops).manager.isCommitted h.snapshot ((s.run ops).store.chain e k) =
      view s.manager.isCommitted h.snapshot (s.store.chain e k) := by
  induction ops generalizing s h with
  | nil => rfl
  | cons op ops ih =>
    obtain ⟨q, hq⟩ := known_step hm op
    have hql := (live_run (w.step op) ops hq hm' hlive).1
    obtain ⟨hl, hqiso, hqsnap⟩ := live_step w hm hq hql
    have hrest := ih (w.step op) hq (hqiso ▸ hiso) hun.2 hm'
    rw [hqsnap] at hrest
    exact hrest.trans (view_step w hm hl hiso hun.1 e k)

end

end Session

/-- Repeatable reads: two reads of a key at the snapshot of a REPEATABLE READ or SERIALIZABLE
transaction, at any two moments of its life, give the same result if no transaction that has
written and is not younger than that snapshot commits in between. -/
theorem repeatable_read (before between : List Op) (t : ℕ) (h h' : Handle)
    (hm : (create.run before).manager.txns t = some h) (hiso : h.isolation ≠ .readCommitted)
    (hm' : ((create.run before).run between).manager.txns t = some h') (hlive : h'.live)
    (hun : (create.run before).Unobserved between) (e : UInt8) (k : Key) :
    ((create.run before).run between).read e k h'.snapshot =
      (create.run before).read e k h.snapshot := by
  have w : (create.run before).Wf := wf_create.run before
  have hsnap := (Session.live_run w between hm hm' hlive).2.2
  unfold Session.read
  rw [(w.run between).own.read_eq, w.own.read_eq, hsnap]
  exact congrArg (answer []) (view_run w between hm hiso hun hm' hlive e k)

namespace Sample

/-- A writer begins, a reader with a fixed snapshot begins, and the writer inserts a row. -/
def olderWriter : List Op :=
  [.call (.begin .readCommitted true true), .call (.begin .repeatableRead true true),
    .mutate 1 ⟨0, [107], .insert [118]⟩]

/-- The reader begins first, and the writer inserts its row afterwards. -/
def youngerWriter : List Op :=
  [.call (.begin .repeatableRead true true), .call (.begin .readCommitted true true),
    .mutate 2 ⟨0, [107], .insert [118]⟩]

def reader (t : ℕ) : Handle :=
  ⟨t, .active, .repeatableRead, t - 1, 0, 0, [], [], 0, false⟩

/-- A reader finds no row, and finds one later at the same snapshot, after an older transaction has
committed. -/
theorem read_not_repeatable : (create.run olderWriter).manager.txns 2 = some (reader 2) ∧
      ((create.run olderWriter).run [.call (.commit 1 Env.good)]).manager.txns 2 =
        some (reader 2) ∧ (create.run olderWriter).read 0 [107] (reader 2).snapshot = none ∧
      ((create.run olderWriter).run [.call (.commit 1 Env.good)]).read 0 [107]
        (reader 2).snapshot = some [118] := by
  decide

theorem repeatable_read_youngerWriter :
    ((create.run youngerWriter).run [.call (.commit 2 Env.good)]).read 0 [107] 0 =
      (create.run youngerWriter).read 0 [107] 0 :=
  repeatable_read youngerWriter [.call (.commit 2 Env.good)] 1 (reader 1) (reader 1) (by decide)
    (by decide) (by decide) (by decide) ⟨by decide, trivial⟩ 0 [107]

end Sample

end Qihse.Mvcc
