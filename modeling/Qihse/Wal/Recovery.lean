import Qihse.Mvcc.Store
import Qihse.Txn.Step
import Qihse.Wal.Holds

/-!
# Crash recovery

`qihse_recovery.c`: the analysis of the log from the last checkpoint on, the registration of the
transactions it finds, the redo of the mutations of those that committed, and the checkpoint.
-/

namespace Qihse.Wal

open List

open Mvcc (Mutation Change Store)
open Txn (Manager)

/-- The `status` of a transaction during the analysis. -/
inductive Status
  | active
  | committed
  | aborted
deriving DecidableEq

/-- `qihse_rec_analysis_t`. -/
structure Analysis where
  txns : List (ℕ × Status)
  records : List Record

/-- The writing call that a record is redone by, if it is one of a mutation. -/
def Record.mutation (r : Record) : Option Mutation :=
  match r.op with
  | .insert => some ⟨r.engineId, r.key, .insert r.value⟩
  | .update => some ⟨r.engineId, r.key, .update r.value⟩
  | .delete => some ⟨r.engineId, r.key, .delete⟩
  | _ => none

namespace Analysis

/-- `analysis_find_txn`, with the status at the index. -/
def findTxn (a : Analysis) (t : ℕ) : Option Status :=
  (a.txns.find? fun x => x.1 = t).map Prod.snd

/-- `analysis_add_txn`. -/
def addTxn (a : Analysis) (t : ℕ) : Analysis :=
  if (a.findTxn t).isSome then a else { a with txns := a.txns ++ [(t, .active)] }

/-- Write the status of a transaction that is in the table, where its id stands once. -/
def setStatus (a : Analysis) (t : ℕ) (status : Status) : Analysis :=
  { a with txns := a.txns.map fun x => if x.1 = t then (t, status) else x }

def finish (a : Analysis) (t : ℕ) (status : Status) : Analysis := (a.addTxn t).setStatus t status

def addRecord (a : Analysis) (r : Record) : Analysis := { a with records := a.records ++ [r] }

/-- `recovery_replay_cb`. -/
def note (a : Analysis) (r : Record) : Analysis :=
  match r.op with
  | .begin => a.addTxn r.txnId
  | .commit => a.finish r.txnId .committed
  | .abort => a.finish r.txnId .aborted
  | .checkpoint => a
  | .insert | .update | .delete =>
    (if 0 < r.txnId then a.addTxn r.txnId else a).addRecord r

/-- The writing calls of the redo phase. The copy of an empty key is a null pointer, which the
store refuses. -/
def redone (a : Analysis) : List (ℕ × Mutation) :=
  (a.records.filter fun r => decide (a.findTxn r.txnId = some .committed)).filterMap fun r =>
    if r.key = [] then none else r.mutation.map (r.txnId, ·)

end Analysis

def analyse (rs : List Record) : Analysis := rs.foldl Analysis.note ⟨[], []⟩

/-- The registration of one transaction after the analysis. -/
def register (m : Manager) (x : ℕ × Status) : Manager :=
  match x.2 with
  | .committed => m.registerCommitted x.1
  | .aborted => m.registerAborted x.1
  | .active => m.registerAborted x.1

/-- One writing call of the redo phase, whose result is not looked at. -/
def redo (s : Store) (x : ℕ × Mutation) : Store := (s.mutate x.1 x.2).getD s

namespace Log

/-- The analysis phase of `qihse_recovery_replay`. -/
def analysis (w : Log) : Option Analysis := (w.replay w.lastCheckpointLsn).map analyse

/-- `qihse_recovery_replay`; `none` is the result −1. -/
def recoveryReplay (w : Log) (m : Manager) (s : Store) : Option (Manager × Store) :=
  w.analysis.map fun a => (a.txns.foldl register m, a.redone.foldl redo s)

/-- `qihse_recovery_checkpoint` after its flush callback, with the marker that it appends. -/
def recoveryCheckpoint (w : Log) : Option (Record × Log) :=
  (w.appendCheckpoint w.nextLsn).bind fun (r, w') =>
    (w'.checkpoint w.nextLsn).map fun w'' => (r, w'')

end Log

/-! ### The transaction table -/

namespace Analysis

variable {a : Analysis} {t u : ℕ} {status : Status} {r : Record} {rs : List Record}

lemma findTxn_addTxn :
    (a.addTxn t).findTxn u = if u = t then some ((a.findTxn t).getD .active) else a.findTxn u := by
  unfold addTxn
  cases h : a.findTxn t with
  | some =>
    rw [if_pos (by rfl)]
    split_ifs with hu
    · rw [hu, h]
      rfl
    · rfl
  | none =>
    rw [if_neg (by simp)]
    unfold findTxn at h ⊢
    rw [find?_append]
    split_ifs with hu
    · subst hu
      rw [Option.map_eq_none_iff] at h
      simp [h]
    · cases hfind : a.txns.find? (fun x => decide (x.1 = u)) with
      | some => simp
      | none => simp [Ne.symm hu]

lemma findTxn_setStatus : (a.setStatus t status).findTxn u =
      if u = t then (a.findTxn t).map fun _ => status else a.findTxn u := by
  unfold findTxn setStatus
  rw [find?_map]
  have hcongr : ((fun x : ℕ × Status => decide (x.1 = u)) ∘ fun x =>
      if x.1 = t then (t, status) else x) = fun x => decide (x.1 = u) := by
    funext x
    simp only [Function.comp_apply]
    split_ifs with hx
    · rw [hx]
    · rfl
  rw [hcongr]
  cases hfind : a.txns.find? (fun x => decide (x.1 = u)) with
  | none =>
    split_ifs with hu
    · subst hu
      simp [hfind]
    · rfl
  | some x =>
    have hx : x.1 = u := by simpa using find?_some hfind
    split_ifs with hu
    · subst hu
      simp [hfind, hx]
    · simp [hx, hu]

lemma findTxn_finish :
    (a.finish t status).findTxn u = if u = t then some status else a.findTxn u := by
  unfold finish
  rw [findTxn_setStatus]
  split_ifs with hu
  · rw [findTxn_addTxn, if_pos rfl]
    rfl
  · rw [findTxn_addTxn, if_neg hu]

/-- A record leaves alone whether a transaction is committed, or it is its `COMMIT` or `ABORT`. -/
lemma findTxn_note (a : Analysis) (r : Record) (u : ℕ) :
    ((a.note r).findTxn u = some .committed ↔ a.findTxn u = some .committed) ∨
      r.op = .commit ∧ r.txnId = u ∧ (a.note r).findTxn u = some .committed ∨
      r.op = .abort ∧ r.txnId = u ∧ (a.note r).findTxn u = some .aborted := by
  have hadd : (a.addTxn r.txnId).findTxn u = some .committed ↔ a.findTxn u = some .committed := by
    rw [findTxn_addTxn]
    split_ifs with hu
    · subst hu
      cases a.findTxn r.txnId <;> simp
    · exact Iff.rfl
  unfold note
  cases hop : r.op with
  | begin => exact .inl hadd
  | checkpoint => exact .inl Iff.rfl
  | commit =>
    simp only [findTxn_finish]
    split_ifs with hu
    · exact .inr (.inl ⟨trivial, hu.symm, rfl⟩)
    · exact .inl Iff.rfl
  | abort =>
    simp only [findTxn_finish]
    split_ifs with hu
    · exact .inr (.inr ⟨trivial, hu.symm, rfl⟩)
    · exact .inl Iff.rfl
  | insert | update | delete =>
    split_ifs
    · exact .inl hadd
    · exact .inl Iff.rfl

/-- Only its own `COMMIT` makes a transaction committed. -/
lemma findTxn_note_ne (h : a.findTxn u ≠ some .committed)
    (hr : r.op = .commit → r.txnId ≠ u) : (a.note r).findTxn u ≠ some .committed := by
  obtain hkeep | ⟨hop, rfl, hnote⟩ | ⟨-, rfl, hnote⟩ := a.findTxn_note r u
  · rwa [Ne, hkeep]
  · exact absurd rfl (hr hop)
  · simp [hnote]

/-- Only an `ABORT` undoes the status of a committed transaction. -/
lemma findTxn_note_eq (h : a.findTxn u = some .committed)
    (hr : r.op = .abort → r.txnId ≠ u) : (a.note r).findTxn u = some .committed := by
  obtain hkeep | ⟨-, rfl, hnote⟩ | ⟨hop, rfl, -⟩ := a.findTxn_note r u
  · exact hkeep.mpr h
  · exact hnote
  · exact absurd rfl (hr hop)

lemma analyse_concat (rs : List Record) (r : Record) :
    analyse (rs ++ [r]) = (analyse rs).note r := by
  simp [analyse]

/-- A transaction that does not have both a `COMMIT` and an `ABORT` record is committed exactly
when it has the former. -/
lemma findTxn_analyse (hboth : ∀ r ∈ rs, ∀ q ∈ rs, r.op = .commit → q.op = .abort →
      r.txnId = u → q.txnId ≠ u) :
    (analyse rs).findTxn u = some .committed ↔ ∃ r ∈ rs, r.op = .commit ∧ r.txnId = u := by
  induction rs using List.reverseRecOn with
  | nil => simp [analyse, findTxn]
  | append_singleton rs r ih =>
    have ih := ih fun q hq q' hq' => hboth q (by simp [hq]) q' (by simp [hq'])
    rw [analyse_concat]
    by_cases hr : r.op = .commit ∧ r.txnId = u
    · refine iff_of_true ?_ ⟨r, by simp, hr⟩
      unfold note
      rw [hr.1, hr.2]
      simp [findTxn_finish]
    · have hex : (∃ q ∈ rs ++ [r], q.op = .commit ∧ q.txnId = u) ↔
          ∃ q ∈ rs, q.op = .commit ∧ q.txnId = u := by
        simp only [mem_append, mem_singleton, or_and_right, exists_or, exists_eq_left,
          or_iff_left hr]
      rw [hex, ← ih]
      constructor
      · intro h
        by_contra hne
        exact findTxn_note_ne hne (fun hc hu => hr ⟨hc, hu⟩) h
      · intro h
        obtain ⟨q, hq, hc, hu⟩ := ih.mp h
        exact findTxn_note_eq h fun ha => hboth q (by simp [hq]) r (by simp) hc ha hu

lemma records_addTxn : (a.addTxn t).records = a.records := by
  unfold addTxn
  split_ifs <;> rfl

lemma records_note : (a.note r).records = a.records ++ if r.mutation.isSome then [r] else [] := by
  unfold note Record.mutation
  cases r.op <;> simp [records_addTxn, finish, setStatus, addRecord, apply_ite records]

lemma records_analyse (rs : List Record) :
    (analyse rs).records = rs.filter fun r => r.mutation.isSome := by
  induction rs using List.reverseRecOn with
  | nil => rfl
  | append_singleton rs r ih =>
    rw [analyse_concat, records_note, ih, filter_append]
    cases h : r.mutation.isSome <;> simp [h]

/-! ### Registration -/

lemma nodup_addTxn (h : (a.txns.map Prod.fst).Nodup) : ((a.addTxn t).txns.map Prod.fst).Nodup := by
  unfold addTxn
  split_ifs with hs
  · exact h
  · simp only [Bool.not_eq_true, Option.isSome_eq_false_iff, Option.isNone_iff_eq_none,
      findTxn, Option.map_eq_none_iff, find?_eq_none, decide_eq_true_eq] at hs
    rw [map_append, nodup_append]
    refine ⟨h, nodup_singleton _, ?_⟩
    intro x hx y hy
    obtain ⟨q, hq, rfl⟩ := mem_map.mp hx
    simp only [map_cons, map_nil, mem_singleton] at hy
    rw [hy]
    exact hs q hq

lemma nodup_finish (h : (a.txns.map Prod.fst).Nodup) :
    ((a.finish t status).txns.map Prod.fst).Nodup := by
  have hids : (a.finish t status).txns.map Prod.fst = (a.addTxn t).txns.map Prod.fst := by
    unfold finish setStatus
    rw [map_map]
    refine map_congr_left fun x _ => ?_
    simp only [Function.comp_apply]
    split_ifs with hx
    · exact hx.symm
    · rfl
  rw [hids]
  exact nodup_addTxn h

/-- No transaction is in the table twice. -/
lemma nodup_analyse (rs : List Record) : ((analyse rs).txns.map Prod.fst).Nodup := by
  induction rs using List.reverseRecOn with
  | nil => exact nodup_nil
  | append_singleton rs r ih =>
    rw [analyse_concat]
    unfold note
    have hput : (((if 0 < r.txnId then (analyse rs).addTxn r.txnId else analyse rs).addRecord
        r).txns.map Prod.fst).Nodup := by
      split_ifs
      · exact nodup_addTxn ih
      · exact ih
    cases r.op with
    | begin => exact nodup_addTxn ih
    | commit | abort => exact nodup_finish ih
    | checkpoint => exact ih
    | insert | update | delete => exact hput

end Analysis

lemma isCommitted_register (m : Manager) (x : ℕ × Status) (t : ℕ) :
    (register m x).isCommitted t =
      if x.1 = t then decide (x.2 = .committed) else m.isCommitted t := by
  have hpass : ∀ m : Manager, (m.passId x.1).isCommitted t = m.isCommitted t := by
    intro m
    unfold Manager.passId
    split_ifs <;> rfl
  have hinsert : ∀ state, (m.registryInsert x.1 state true).isCommitted t =
      if x.1 = t then decide (state = .committed) else m.isCommitted t := by
    intro state
    unfold Manager.isCommitted
    rw [Manager.registryInsert, if_pos rfl, Manager.registryFind_cons]
    split_ifs <;> simp
  obtain ⟨u, status⟩ := x
  cases status with
  | active | aborted => exact (hpass _).trans (hinsert .aborted)
  | committed => exact (hpass _).trans (hinsert .committed)

/-- After the registration of a table the manager says of its transactions what the table says. -/
lemma isCommitted_foldl_register (m : Manager) {txns : List (ℕ × Status)}
    (h : (txns.map Prod.fst).Nodup) (t : ℕ) :
    (txns.foldl register m).isCommitted t =
      match txns.find? (fun x => decide (x.1 = t)) with
      | some x => decide (x.2 = .committed)
      | none => m.isCommitted t := by
  induction txns generalizing m with
  | nil => rfl
  | cons x txns ih =>
    rw [map_cons, nodup_cons] at h
    rw [foldl_cons, ih (register m x) h.2, find?_cons, isCommitted_register]
    by_cases hx : x.1 = t
    · have hnone : txns.find? (fun x => decide (x.1 = t)) = none := by
        rw [find?_eq_none]
        intro y hy hc
        rw [decide_eq_true_eq] at hc
        exact h.1 (hx ▸ hc ▸ mem_map_of_mem hy)
      simp [hx, hnone]
    · simp [hx]

/-- A fresh manager knows as committed exactly the transactions that the analysis found so. -/
lemma isCommitted_recovered (rs : List Record) (t : ℕ) :
    ((analyse rs).txns.foldl register Manager.create).isCommitted t =
      decide ((analyse rs).findTxn t = some .committed) := by
  rw [isCommitted_foldl_register _ (Analysis.nodup_analyse rs)]
  unfold Analysis.findTxn
  cases (analyse rs).txns.find? (fun x => decide (x.1 = t)) with
  | none => rfl
  | some => simp

end Qihse.Wal
