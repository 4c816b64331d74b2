import Qihse.Wal.Journal

/-!
# What survives a crash

A crash loses nothing that is committed, as long as keys are not empty, deletes do not reach behind
younger versions, and no transaction commits that wrote before the last checkpoint. Each of the
three conditions is one on the state before an act, and without it there are runs that lose or
bring back data.
-/

namespace Qihse.Wal

open List Option

open Mvcc (Mutation Change Store LateDeleteFree IntentsYoungest reference)
open Txn (Manager)

/-! ### Reachable journals -/

namespace Journal

variable {j j' : Journal} {a : Act} {acts : List Act}

structure Inv (j : Journal) : Prop where
  logged : Logged j.log j.history
  ids : ∀ t ∈ j.running, t < 2 ^ 64
  finished : ∀ r ∈ j.history, r.op = .commit ∨ r.op = .abort → r.txnId ∉ j.running
  once : ∀ r ∈ j.history, ∀ q ∈ j.history, r.op = .commit → q.op = .abort → r.txnId ≠ q.txnId
  store : Store.empty.applyAll (mutations j.history) = some j.store

lemma inv_create (segmentSize : ℕ) : (create segmentSize).Inv where
  logged := logged_create segmentSize
  ids := by simp [create]
  finished := by simp [create]
  once := by simp [create]
  store := rfl

lemma mutations_concat (rs : List Record) (r : Record) :
    mutations (rs ++ [r]) = mutations rs ++ (r.mutation.map (r.txnId, ·)).toList := by
  unfold mutations
  cases h : r.mutation <;> simp [h]

lemma mutation_eq_none {r : Record} (h : r.op = .begin ∨ r.op = .commit ∨ r.op = .abort ∨
    r.op = .checkpoint) : r.mutation = none := by
  unfold Record.mutation
  obtain h | h | h | h := h <;> rw [h]

lemma Extends.mem {r : Record} (ext : j.Extends j' r) (q : Record) :
    q ∈ j'.history ↔ q ∈ j.history ∨ q = r := by
  rw [ext.history, mem_append, mem_singleton]

/-- Every act writes a record, and the store takes the mutation in it. -/
lemma Step.extends (h : j.Step j' a) : ∃ r, j.Extends j' r ∧
    (a = .checkpoint ∨ j'.log.lastCheckpointLsn = j.log.lastCheckpointLsn) ∧
    ((∃ t m, a = .mutate t m ∧ r.mutation = some m ∧ r.txnId = t ∧
        j.store.mutate t m = some j'.store) ∨ r.mutation = none ∧ j'.store = j.store) := by
  cases h with
  | begin t r ext op _ _ _ _ store checkpoint =>
    exact ⟨r, ext, .inr checkpoint, .inr ⟨mutation_eq_none (.inl op), store⟩⟩
  | mutate t m r ext mutation id _ _ store checkpoint =>
    exact ⟨r, ext, .inr checkpoint, .inl ⟨t, m, rfl, mutation, id, store⟩⟩
  | commit t r ext op _ _ _ store checkpoint =>
    exact ⟨r, ext, .inr checkpoint, .inr ⟨mutation_eq_none (.inr (.inl op)), store⟩⟩
  | abort t r ext op _ _ _ store checkpoint =>
    exact ⟨r, ext, .inr checkpoint, .inr ⟨mutation_eq_none (.inr (.inr (.inl op))), store⟩⟩
  | checkpoint r ext op _ _ store =>
    exact ⟨r, ext, .inl rfl, .inr ⟨mutation_eq_none (.inr (.inr (.inr op))), store⟩⟩

section

variable {r : Record} (ext : j.Extends j' r)
include ext

/-- Of a record that ends no transaction: those that did are from before. -/
lemma Extends.mem_of_ended (hne : r.op ≠ .commit ∧ r.op ≠ .abort) {q : Record}
    (hq : q ∈ j'.history) (hop : q.op = .commit ∨ q.op = .abort) : q ∈ j.history := by
  obtain hq | rfl := (ext.mem q).mp hq
  · exact hq
  · exact absurd hop (not_or.mpr hne)

variable (inv : j.Inv)
include inv

lemma Inv.once_extends (hne : r.op ≠ .commit ∧ r.op ≠ .abort) : ∀ q ∈ j'.history,
    ∀ p ∈ j'.history, q.op = .commit → p.op = .abort → q.txnId ≠ p.txnId :=
  fun q hq p hp hc ha => inv.once q (ext.mem_of_ended hne hq (.inl hc)) p
    (ext.mem_of_ended hne hp (.inr ha)) hc ha

variable (hstore : Store.empty.applyAll (mutations j'.history) = some j'.store)
include hstore

lemma Inv.of_running_eq (hne : r.op ≠ .commit ∧ r.op ≠ .abort)
    (hrunning : j'.running = j.running) : j'.Inv := by
  refine ⟨ext.logged, hrunning ▸ inv.ids, fun q hq hop => ?_, inv.once_extends ext hne, hstore⟩
  rw [hrunning]
  exact inv.finished q (ext.mem_of_ended hne hq hop) hop

/-- The transaction that ends was running, so it had not ended before. -/
lemma Inv.of_running_filter (hrun : r.txnId ∈ j.running)
    (hrunning : j'.running = j.running.filter fun u => decide (u ≠ r.txnId)) : j'.Inv := by
  have hbefore : ∀ q ∈ j.history, q.op = .commit ∨ q.op = .abort → q.txnId ≠ r.txnId :=
    fun q hq hop heq => inv.finished q hq hop (heq ▸ hrun)
  refine ⟨ext.logged, fun u hu => ?_, fun q hq hop hin => ?_, fun q hq p hp hc ha => ?_, hstore⟩
  · rw [hrunning] at hu
    exact inv.ids u (mem_of_mem_filter hu)
  · rw [hrunning, mem_filter, decide_eq_true_eq] at hin
    obtain hq | rfl := (ext.mem q).mp hq
    · exact inv.finished q hq hop hin.1
    · exact hin.2 rfl
  · obtain hq | rfl := (ext.mem q).mp hq
    · obtain hp | rfl := (ext.mem p).mp hp
      · exact inv.once q hq p hp hc ha
      · exact hbefore q hq (.inl hc)
    · obtain hp | rfl := (ext.mem p).mp hp
      · exact (hbefore p hp (.inr ha)).symm
      · simp [hc] at ha

end

lemma Inv.step (inv : j.Inv) (h : j.step a = some j') : j'.Inv := by
  have hstep := step_cases inv.logged inv.ids h
  have hstore : Store.empty.applyAll (mutations j'.history) = some j'.store := by
    obtain ⟨r, ext, -, ⟨t, m, -, hm, rfl, hs⟩ | ⟨hnone, hs⟩⟩ := hstep.extends
    · rw [ext.history, mutations_concat, hm, Store.applyAll_append, inv.store]
      simp [Store.applyAll, hs]
    · rw [ext.history, mutations_concat, hnone, hs]
      simpa using inv.store
  cases hstep with
  | begin t r ext op id lt fresh running =>
    have hne : r.op ≠ .commit ∧ r.op ≠ .abort := by simp [op]
    refine ⟨ext.logged, ?_, ?_, inv.once_extends ext hne, hstore⟩
    · rw [running]
      exact forall_mem_cons.mpr ⟨lt, inv.ids⟩
    · intro q hq hop
      have hq := ext.mem_of_ended hne hq hop
      rw [running, mem_cons, not_or]
      exact ⟨fresh q hq, inv.finished q hq hop⟩
  | mutate t m r ext mutation id run running =>
    refine inv.of_running_eq ext hstore ?_ running
    constructor <;> intro hop <;> simp [mutation_eq_none, hop] at mutation
  | commit t r ext op id run running | abort t r ext op id run running =>
    subst id
    exact inv.of_running_filter ext hstore run running
  | checkpoint r ext op id running => exact inv.of_running_eq ext hstore (by simp [op]) running

/-- What a run that meets a condition keeps, if each of its acts does. -/
lemma run_induction {P : Journal → Prop} {cond : Journal → Act → Bool}
    (hstep : ∀ {j j' a}, j.Inv → P j → cond j a = true → j.Step j' a → P j') (inv : j.Inv)
    (hP : P j) (hrun : j.run acts = some j') (hmeets : j.meets cond acts) : j'.Inv ∧ P j' := by
  induction acts generalizing j with
  | nil =>
    simp only [run, some.injEq] at hrun
    subst hrun
    exact ⟨inv, hP⟩
  | cons a acts ih =>
    simp only [run, bind_eq_some_iff] at hrun
    obtain ⟨j1, hs, hrun⟩ := hrun
    simp only [meets, hs, all_some, Bool.and_eq_true] at hmeets
    exact ih (inv.step hs) (hstep inv hP hmeets.1 (step_cases inv.logged inv.ids hs)) hrun
      hmeets.2

/-! ### Conditions on an act -/

/-- A mutation names a key that is not empty. -/
def keyed : Act → Bool
  | .mutate _ m => decide (m.key ≠ [])
  | _ => true

/-- A delete finds no version of a younger transaction. -/
def deletesLast (j : Journal) : Act → Bool
  | .mutate t m => decide (m.change ≠ .delete) ||
      (j.store.chain m.engineId m.key).all fun v => v.isDelete || decide (v.xmin ≤ t)
  | _ => true

/-- A commit finds no mutation of its transaction from before the checkpoint. -/
def unspanned (j : Journal) : Act → Bool
  | .commit t => j.history.all fun r => !(r.mutation.isSome && decide (r.txnId = t)) ||
      decide (j.log.lastCheckpointLsn ≤ r.lsn)
  | _ => true

/-! ### The writing calls of the redo phase -/

def Keyed (rs : List Record) : Prop := ∀ r ∈ rs, r.mutation.isSome → r.key ≠ []

lemma key_of_mutation {r : Record} {m : Mutation} (h : r.mutation = some m) : m.key = r.key := by
  unfold Record.mutation at h
  cases hop : r.op <;> simp_all <;> rw [← h]

lemma Step.keyed (h : j.Step j' a) (hk : Journal.keyed a = true) (hrs : Keyed j.history) :
    Keyed j'.history := by
  intro q hq hm
  obtain ⟨r, ext, -, hr⟩ := h.extends
  obtain hq | rfl := (ext.mem q).mp hq
  · exact hrs q hq hm
  · obtain ⟨t, m, rfl, hmutation, -⟩ | ⟨hnone, -⟩ := hr
    · rw [← key_of_mutation hmutation]
      simpa [Journal.keyed] using hk
    · simp [hnone] at hm

lemma filterMap_mutation {rs : List Record} (h : Keyed rs) (p : ℕ → Bool) :
    ((rs.filter fun r => r.mutation.isSome).filter fun r => p r.txnId).filterMap
        (fun r => if r.key = [] then none else r.mutation.map (r.txnId, ·)) =
      (mutations rs).filter fun x => p x.1 := by
  unfold mutations
  induction rs with
  | nil => rfl
  | cons r rs ih =>
    have ih := ih fun q hq => h q (mem_cons_of_mem _ hq)
    have hr := h r (by simp)
    cases hm : r.mutation with
    | none => simpa [hm] using ih
    | some =>
      have hkey : r.key ≠ [] := hr (by simp [hm])
      cases hp : p r.txnId <;> simpa [hm, hp, hkey] using ih

/-- With keys that are not empty the redo phase makes every call of a committed transaction. -/
lemma redone_analyse {rs : List Record} (h : Keyed rs) :
    (analyse rs).redone = (mutations rs).filter fun x =>
      decide ((analyse rs).findTxn x.1 = some .committed) := by
  unfold Analysis.redone
  rw [Analysis.records_analyse]
  exact filterMap_mutation h fun t => decide ((analyse rs).findTxn t = some .committed)

lemma Inv.findTxn_analyse (inv : j.Inv) (start t : ℕ) :
    (analyse (j.history.filter fun r => decide (start ≤ r.lsn))).findTxn t = some .committed ↔
      ∃ r ∈ j.history, start ≤ r.lsn ∧ r.op = .commit ∧ r.txnId = t := by
  rw [Analysis.findTxn_analyse]
  · simp [mem_filter, and_assoc]
  · intro r hr q hq hc ha hrt hqt
    exact inv.once r (mem_of_mem_filter hr) q (mem_of_mem_filter hq) hc ha
      (hrt.trans hqt.symm)

/-- The manager and the store that a crash leaves, in terms of the history. -/
def afterCrash (j : Journal) : Manager × Store :=
  let found := analyse (j.history.filter fun r => decide (j.log.lastCheckpointLsn ≤ r.lsn))
  (found.txns.foldl register Manager.create, found.redone.foldl redo Store.empty)

lemma Inv.recover (inv : j.Inv) (segmentSize : ℕ) : j.recover segmentSize = some j.afterCrash := by
  obtain ⟨w, hopen, hfound⟩ := inv.logged.analysis segmentSize
  simp [Journal.recover, hopen, Log.recoveryReplay, hfound, afterCrash]

lemma Inv.run (inv : j.Inv) (hrun : j.run acts = some j') : j'.Inv := by
  induction acts generalizing j with
  | nil =>
    simp only [Journal.run, some.injEq] at hrun
    subst hrun
    exact inv
  | cons a acts ih =>
    simp only [Journal.run, bind_eq_some_iff] at hrun
    obtain ⟨j1, hs, hrun⟩ := hrun
    exact ih (inv.step hs) hrun

/-! ### Across checkpoints -/

/-- A transaction with a mutation from before the checkpoint has no `COMMIT` from after it. -/
def Covered (j : Journal) : Prop :=
  ∀ r ∈ j.history, r.mutation.isSome → r.lsn < j.log.lastCheckpointLsn →
    ∀ c ∈ j.history, c.op = .commit → c.txnId = r.txnId → c.lsn < j.log.lastCheckpointLsn

lemma Step.covered (h : j.Step j' a) (inv : j.Inv) (hun : j.unspanned a = true)
    (hc : j.Covered) : j'.Covered := by
  have hkeep : ∀ {r : Record}, j.Extends j' r → j'.log.lastCheckpointLsn = j.log.lastCheckpointLsn →
      (r.op = .commit → ∀ q ∈ j.history, q.mutation.isSome → r.txnId = q.txnId →
        j.log.lastCheckpointLsn ≤ q.lsn) → j'.Covered := by
    intro r ext hlast hcommit q hq hm hlt c hcin hop hid
    rw [hlast] at hlt ⊢
    -- the new record is at or past the checkpoint, so it is not covered itself
    have hq : q ∈ j.history := by
      refine ((ext.mem q).mp hq).resolve_right ?_
      rintro rfl
      have := inv.logged.checkpoint
      rw [ext.lsn] at hlt
      omega
    obtain hcin | rfl := (ext.mem c).mp hcin
    · exact hc q hq hm hlt c hcin hop hid
    · exact absurd (hcommit hop q hq hm hid) (not_le.mpr hlt)
  cases h with
  | begin t r ext op id lt fresh running store checkpoint
  | abort t r ext op id run running store checkpoint => exact hkeep ext checkpoint (by simp [op])
  | mutate t m r ext mutation id run running store checkpoint =>
    refine hkeep ext checkpoint fun hop => ?_
    simp [mutation_eq_none, hop] at mutation
  | commit t r ext op id run running store checkpoint =>
    refine hkeep ext checkpoint fun _ q hq hm hid => ?_
    simpa [hm, ← hid, id] using List.all_eq_true.mp hun q hq
  | checkpoint r ext op id running store checkpoint =>
    intro q hqin hm hlt c hcin hop hid
    rw [checkpoint]
    obtain hcin | rfl := (ext.mem c).mp hcin
    · exact inv.logged.below c hcin
    · simp [op] at hop

/-- Dropping records of other transactions keeps the mutations of one. -/
lemma mutations_filter {rs : List Record} {p : Record → Bool} {t : ℕ}
    (h : ∀ r ∈ rs, r.mutation.isSome → r.txnId = t → p r = true) :
    (mutations (rs.filter p)).filter (fun x => decide (x.1 = t)) =
      (mutations rs).filter fun x => decide (x.1 = t) := by
  unfold mutations
  induction rs with
  | nil => rfl
  | cons r rs ih =>
    have ih := ih fun q hq => h q (mem_cons_of_mem _ hq)
    have hr := h r (by simp)
    cases hm : r.mutation with
    | none => cases hp : p r <;> simpa [hm, hp] using ih
    | some =>
      by_cases ht : r.txnId = t
      · have hp : p r = true := hr (by simp [hm]) ht
        simpa [hm, hp, ht] using ih
      · cases hp : p r <;> simpa [hm, hp, ht] using ih

/-- After a crash the redo phase makes, for every transaction whose `COMMIT` is not older than the
last checkpoint, all the writing calls of its mutation records in their order, whatever manager and
store it recovers into. -/
theorem recovery_redoes_committed {segmentSize : ℕ} (hrun : (create segmentSize).run acts = some j)
    (hmeets : (create segmentSize).meets (fun j a => keyed a && j.unspanned a) acts)
    (reopenSize : ℕ) (manager : Manager) (store : Store) :
    ∃ w found, Log.openDirectory reopenSize j.log.closed j.log.current = some w ∧
      w.analysis = some found ∧ w.recoveryReplay manager store =
        some (found.txns.foldl register manager, found.redone.foldl redo store) ∧
      ∀ c ∈ j.history, c.op = .commit → j.log.lastCheckpointLsn ≤ c.lsn →
        found.redone.filter (fun x => decide (x.1 = c.txnId)) =
          (mutations j.history).filter fun x => decide (x.1 = c.txnId) := by
  obtain ⟨inv, hkeyed, hcovered⟩ := run_induction
    (P := fun j => Keyed j.history ∧ j.Covered)
    (fun inv hP hcond h => by
      rw [Bool.and_eq_true] at hcond
      exact ⟨h.keyed hcond.1 hP.1, h.covered inv hcond.2 hP.2⟩)
    (inv_create segmentSize) ⟨by simp [Keyed, create], by simp [Covered, create]⟩ hrun hmeets
  obtain ⟨w, hopen, hfound⟩ := inv.logged.analysis reopenSize
  refine ⟨w, _, hopen, hfound, by simp [Log.recoveryReplay, hfound], fun c hc hop hle => ?_⟩
  have hcommitted := (inv.findTxn_analyse j.log.lastCheckpointLsn c.txnId).mpr
    ⟨c, hc, hle, hop, rfl⟩
  rw [redone_analyse fun r hr => hkeyed r (mem_of_mem_filter hr), List.filter_filter]
  have hsame : (fun x : ℕ × Mutation => decide (x.1 = c.txnId) && decide ((analyse
      (j.history.filter fun r => decide (j.log.lastCheckpointLsn ≤ r.lsn))).findTxn x.1 =
        some .committed)) = fun x => decide (x.1 = c.txnId) := by
    funext x
    by_cases hx : x.1 = c.txnId
    · simp [hx, hcommitted]
    · simp [hx]
  rw [hsame]
  refine mutations_filter fun r hr hm ht => ?_
  rw [decide_eq_true_eq]
  by_contra hlt
  have := hcovered r hr hm (not_le.mp hlt) c hc hop ht.symm
  omega

namespace Sample

def segmentSize : ℕ := 16 * 1024 * 1024

def put (key value : Mvcc.Key) : Mutation := ⟨1, key, .insert value⟩

/-- A checkpoint between the mutation of a transaction and its `COMMIT`. -/
def spanning : List Act := [.begin 1, .mutate 1 (put [1] [7]), .checkpoint, .commit 1]

/-- The `COMMIT` is past the checkpoint, and the mutation is not redone. -/
theorem spanning_mutation_lost : ∃ j w found, (create segmentSize).run spanning = some j ∧
    Log.openDirectory segmentSize j.log.closed j.log.current = some w ∧ w.analysis = some found ∧
    (∃ c ∈ j.history, c.op = .commit ∧ c.txnId = 1 ∧ j.log.lastCheckpointLsn ≤ c.lsn) ∧
    found.redone = [] ∧ mutations j.history = [(1, put [1] [7])] := by
  have h : (((create segmentSize).run spanning).bind fun j =>
      (Log.openDirectory segmentSize j.log.closed j.log.current).bind fun w =>
        w.analysis.map fun found => (found.redone, mutations j.history,
          j.history.any fun c => decide (c.op = .commit ∧ c.txnId = 1 ∧
            j.log.lastCheckpointLsn ≤ c.lsn))) = some ([], [(1, put [1] [7])], true) := by
    decide +kernel
  simp only [bind_eq_some_iff, map_eq_some_iff, Prod.mk.injEq] at h
  obtain ⟨j, hrun, w, hopen, found, hfound, hredone, hmut, hc⟩ := h
  rw [List.any_eq_true] at hc
  obtain ⟨c, hin, hc⟩ := hc
  exact ⟨j, w, found, hrun, hopen, hfound, ⟨c, hin, of_decide_eq_true hc⟩, hredone, hmut⟩

/-- A checkpoint between two transactions, while a third has written and runs until the crash. -/
def between : List Act :=
  [.begin 1, .mutate 1 (put [1] [7]), .commit 1, .begin 2, .begin 3, .mutate 3 (put [3] [9]),
    .checkpoint, .mutate 2 (put [2] [8]), .commit 2]

theorem recovery_redoes_committed_between : ∃ j, (create segmentSize).run between = some j ∧
    ∃ w found, Log.openDirectory segmentSize j.log.closed j.log.current = some w ∧
      w.analysis = some found ∧ w.recoveryReplay Manager.create Store.empty =
        some (found.txns.foldl register Manager.create, found.redone.foldl redo Store.empty) ∧
      ∀ c ∈ j.history, c.op = .commit → j.log.lastCheckpointLsn ≤ c.lsn →
        found.redone.filter (fun x => decide (x.1 = c.txnId)) =
          (mutations j.history).filter fun x => decide (x.1 = c.txnId) := by
  have hsome : ((create segmentSize).run between).isSome = true := by decide +kernel
  obtain ⟨j, hrun⟩ := isSome_iff_exists.mp hsome
  exact ⟨j, hrun, recovery_redoes_committed hrun (by decide +kernel) segmentSize Manager.create
    Store.empty⟩

end Sample

/-! ### Without checkpoints -/

lemma meets_and {cond : Journal → Act → Bool} (h : j.meets cond acts) {p : Act → Bool}
    (hp : ∀ a ∈ acts, p a = true) : j.meets (fun j a => cond j a && p a) acts := by
  induction acts generalizing j with
  | nil => rfl
  | cons a acts ih =>
    simp only [meets, Bool.and_eq_true, Option.all_eq_true] at h ⊢
    refine ⟨⟨h.1, hp a (by simp)⟩, fun j' hs => ?_⟩
    exact ih (h.2 j' hs) fun b hb => hp b (mem_cons_of_mem _ hb)

lemma Step.lateDeleteFree (h : j.Step j' a) (inv : j.Inv) (hlast : j.deletesLast a = true)
    (hfree : LateDeleteFree (mutations j.history)) : LateDeleteFree (mutations j'.history) := by
  obtain ⟨r, ext, -, ⟨t, m, rfl, hmutation, rfl, -⟩ | ⟨hnone, -⟩⟩ := h.extends
  · rw [ext.history, mutations_concat, hmutation]
    refine pairwise_append.mpr ⟨hfree, pairwise_singleton _ _, ?_⟩
    intro x hx y hy he hk hput hdel
    simp only [map_some, toList_some, mem_singleton] at hy
    subst hy
    -- the version that the earlier operation left is in the chain that the delete finds
    obtain ⟨-, v, hv, hmin, hvdel⟩ := Store.mem_chain_applyAll inv.store hx hput
    rw [he, hk] at hv
    have hall : (j.store.chain m.engineId m.key).all
        (fun v => v.isDelete || decide (v.xmin ≤ r.txnId)) = true := by
      have hdel : m.change = .delete := hdel
      simpa [deletesLast, hdel] using hlast
    simpa [hvdel, hmin] using List.all_eq_true.mp hall v hv
  · rw [ext.history, mutations_concat, hnone]
    simpa using hfree

/-- The redo phase builds a store that follows the calls it makes. -/
lemma follows_foldl_redo {log : List (ℕ × Mutation)}
    (hlen : ∀ x ∈ log, x.2.change ≠ .delete → x.2.key.length < Mvcc.maxKey)
    (hfree : LateDeleteFree log) : (log.foldl redo Store.empty).Follows log ∧
      ∀ e k, IntentsYoungest ((log.foldl redo Store.empty).chain e k) := by
  induction log using List.reverseRecOn with
  | nil => exact ⟨Store.follows_empty, fun _ _ => trivial⟩
  | append_singleton log x ih =>
    obtain ⟨hfree, -, hlate⟩ := pairwise_append.mp hfree
    obtain ⟨hfollows, hyoung⟩ := ih (fun y hy => hlen y (by simp [hy])) hfree
    rw [foldl_append, foldl_cons, foldl_nil]
    obtain ⟨t, m⟩ := x
    generalize log.foldl redo Store.empty = s0 at *
    cases hm : s0.mutate t m with
    | none =>
      have hredo : redo s0 (t, m) = s0 := by simp [redo, hm]
      rw [hredo]
      obtain ⟨hdel, hnil⟩ := Store.mutate_eq_none hm (hlen (t, m) (by simp))
      exact ⟨hfollows.skip hdel hnil, hyoung⟩
    | some s =>
      have hredo : redo s0 (t, m) = s := by simp [redo, hm]
      rw [hredo]
      refine ⟨hfollows.mutate hm, hfollows.young_mutate hyoung hm ?_⟩
      intro hc y hy he hk hput
      exact hlate y hy (t, m) (by simp) he hk hput hc

/-- The reference only looks at committed transactions. -/
lemma reference_filter (committed : ℕ → Bool) (snapshot : ℕ) (log : List (ℕ × Mutation)) :
    reference committed snapshot (log.filter fun x => committed x.1) =
      reference committed snapshot log := by
  unfold reference
  rw [List.filter_filter]
  congr 3
  funext x
  cases committed x.1 <;> simp

/-- Recovery after a run without checkpoints answers every read as before the crash, with the
transactions that have a `COMMIT` record as the committed ones. -/
theorem recovery_reproduces_reads {segmentSize : ℕ}
    (hrun : (create segmentSize).run acts = some j) (hno : .checkpoint ∉ acts)
    (hmeets : (create segmentSize).meets (fun j a => keyed a && j.deletesLast a) acts)
    (reopenSize : ℕ) : ∃ manager store, j.recover reopenSize = some (manager, store) ∧
      ∀ e k snapshot, store.read e k snapshot manager.isCommitted =
        j.store.read e k snapshot j.committed := by
  obtain ⟨inv, hkeyed, hfree, hzero⟩ := run_induction
    (P := fun j => Keyed j.history ∧ LateDeleteFree (mutations j.history) ∧
      j.log.lastCheckpointLsn = 0)
    (fun inv hP hcond h => by
      simp only [Bool.and_eq_true, decide_eq_true_eq] at hcond
      obtain ⟨r, -, hlsn, -⟩ := h.extends
      exact ⟨h.keyed hcond.1.1 hP.1, h.lateDeleteFree inv hcond.1.2 hP.2.1,
        (hlsn.resolve_left hcond.2).trans hP.2.2⟩)
    (inv_create segmentSize) ⟨by simp [Keyed, create], List.Pairwise.nil, rfl⟩ hrun
    (meets_and hmeets (p := fun a => decide (a ≠ .checkpoint)) fun a ha => by
      rw [decide_eq_true_eq]
      rintro rfl
      exact hno ha)
  have hall : (j.history.filter fun r => decide (j.log.lastCheckpointLsn ≤ r.lsn)) = j.history := by
    simp [hzero]
  have hcommitted : ∀ t, decide ((analyse j.history).findTxn t = some .committed) =
      j.committed t := by
    intro t
    have := inv.findTxn_analyse j.log.lastCheckpointLsn t
    rw [hall] at this
    rw [Bool.eq_iff_iff, decide_eq_true_eq, this]
    simp [committed, hzero]
  refine ⟨_, _, inv.recover reopenSize, fun e k snapshot => ?_⟩
  simp only [hall]
  have hmanager : ((analyse j.history).txns.foldl register Manager.create).isCommitted =
      j.committed := funext fun t => (isCommitted_recovered j.history t).trans (hcommitted t)
  have hredone : (analyse j.history).redone =
      (mutations j.history).filter fun x => j.committed x.1 := by
    rw [redone_analyse hkeyed]
    simp [hcommitted]
  obtain ⟨hfollows, hyoung⟩ := @follows_foldl_redo
    ((mutations j.history).filter fun x => j.committed x.1)
    (fun x hx hput => (Store.mem_chain_applyAll inv.store (mem_of_mem_filter hx) hput).1)
    (hfree.sublist filter_sublist)
  rw [hmanager, hredone, hfollows.read_eq hyoung, reference_filter,
    Store.read_eq_reference inv.store hfree]

namespace Sample

def emptyKey : List Act := [.begin 1, .mutate 1 (put [] [7]), .commit 1]

/-- The update of transaction 3 is aborted, so its version is not there after a crash, and the
update of transaction 1 marks the version below it. -/
def lateDelete : List Act :=
  [.begin 1, .begin 2, .begin 3, .begin 4, .mutate 4 (put [1] [7]), .commit 4,
    .mutate 3 ⟨1, [1], .update [8]⟩, .abort 3, .mutate 1 ⟨1, [1], .update [9]⟩, .commit 1,
    .mutate 2 ⟨1, [1], .delete⟩, .commit 2]

/-- The reads of a key before the crash and after it. -/
def reads (acts : List Act) (key : Mvcc.Key) (snapshot : ℕ) :
    Option (Option Mvcc.Value × Option Mvcc.Value) :=
  ((create segmentSize).run acts).bind fun j =>
    (j.recover segmentSize).map fun (manager, store) =>
      (j.store.read 1 key snapshot j.committed, store.read 1 key snapshot manager.isCommitted)

lemma reads_eq (acts : List Act) (key : Mvcc.Key) (snapshot : ℕ) :
    reads acts key snapshot = ((create segmentSize).run acts).map fun j =>
      (j.store.read 1 key snapshot j.committed,
        j.afterCrash.2.read 1 key snapshot j.afterCrash.1.isCommitted) := by
  unfold reads
  cases hrun : (create segmentSize).run acts with
  | none => rfl
  | some => simp [((inv_create segmentSize).run hrun).recover]

/-- A value under an empty key is lost, and a late delete takes a value it had not taken. -/
theorem recovery_loses_reads : reads emptyKey [] 10 = some (some [7], none) ∧
    reads lateDelete [1] 10 = some (some [7], none) := by
  rw [reads_eq, reads_eq]
  decide +kernel

/-- An aborted update, a delete in order, and a transaction that is running at the crash. -/
def inOrder : List Act :=
  [.begin 1, .mutate 1 (put [1] [7]), .mutate 1 (put [2] [7]), .commit 1, .begin 2,
    .mutate 2 ⟨1, [1], .update [8]⟩, .abort 2, .begin 3, .mutate 3 ⟨1, [2], .delete⟩, .commit 3,
    .begin 4, .mutate 4 ⟨1, [1], .delete⟩]

theorem recovery_reproduces_reads_inOrder : ∃ j, (create segmentSize).run inOrder = some j ∧
    ∃ manager store, j.recover segmentSize = some (manager, store) ∧
      ∀ e k snapshot, store.read e k snapshot manager.isCommitted =
        j.store.read e k snapshot j.committed := by
  have hsome : ((create segmentSize).run inOrder).isSome = true := by decide +kernel
  obtain ⟨j, hrun⟩ := isSome_iff_exists.mp hsome
  exact ⟨j, hrun, recovery_reproduces_reads hrun (by decide) (by decide +kernel) segmentSize⟩

end Sample

end Journal

end Qihse.Wal
