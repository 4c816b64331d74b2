import Qihse.Mvcc.Reference
import Qihse.Txn.Step

/-!
# Transactions over the multi-version store

The transaction manager and the version store together: a transaction writes under its own id
while it is active, and reads are resolved with the registry of the manager.
-/

namespace Qihse.Mvcc

open Txn (Manager Handle Isolation Env)

structure Session where
  manager : Manager
  store : Store

/-- A call on the manager, or a write of an active transaction. -/
inductive Op
  | call (op : Txn.Op)
  | mutate (t : ℕ) (m : Mutation)

namespace Session

def create : Session := ⟨Manager.create, Store.empty⟩

def isActive (s : Session) (t : ℕ) : Bool :=
  (s.manager.txns t).any fun h => h.state = .active

/-- A write of transaction `t`; the flag is the result 0 of the store. -/
def mutate (s : Session) (t : ℕ) (m : Mutation) : Bool × Session :=
  if s.isActive t then
    match s.store.mutate t m with
    | some store => (true, { s with store := store })
    | none => (false, s)
  else (false, s)

def step (s : Session) : Op → Session
  | .call op => { s with manager := (s.manager.exec op).2 }
  | .mutate t m => (s.mutate t m).2

def run (s : Session) : List Op → Session
  | [] => s
  | op :: ops => (s.step op).run ops

/-- `qihse_mvcc_read` with `qihse_txn_is_committed` as its callback. -/
def read (s : Session) (e : UInt8) (k : Key) (snapshot : ℕ) : Option Value :=
  s.store.read e k snapshot s.manager.isCommitted

structure Wf (s : Session) : Prop where
  manager : s.manager.Wf
  own : s.store.Own

lemma wf_create : create.Wf := ⟨Txn.Manager.wf_create, Store.own_empty⟩

variable {s s' : Session}

/-- A write of an active transaction that the store takes, or nothing. -/
lemma mutate_cases (s : Session) (t : ℕ) (m : Mutation) : (s.mutate t m = (false, s)) ∨
      ∃ store h, s.manager.txns t = some h ∧ h.state = .active ∧
        s.store.mutate t m = some store ∧ s.mutate t m = (true, { s with store := store }) := by
  unfold mutate
  by_cases hact : s.isActive t
  · rw [if_pos hact]
    unfold isActive at hact
    cases hm : s.manager.txns t with
    | none => simp [hm] at hact
    | some h =>
      have hstate : h.state = .active := by simpa [hm] using hact
      cases hstore : s.store.mutate t m with
      | none => exact .inl rfl
      | some store => exact .inr ⟨store, h, rfl, hstate, rfl, rfl⟩
  · exact .inl (if_neg hact)

lemma Wf.step (w : s.Wf) (op : Op) : (s.step op).Wf := by
  cases op with
  | call op => exact ⟨w.manager.exec op, w.own⟩
  | mutate t m =>
    change (s.mutate t m).2.Wf
    obtain hm | ⟨store, h, -, -, hstore, hm⟩ := s.mutate_cases t m
    · rw [hm]
      exact w
    · rw [hm]
      exact ⟨w.manager, w.own.mutate hstore⟩

lemma Wf.run (w : s.Wf) (ops : List Op) : (s.run ops).Wf := by
  induction ops generalizing s with
  | nil => exact w
  | cons op ops ih => exact ih (w.step op)

end Session

/-! ### Transactions one after another -/

inductive Finish
  | commit (env : Env)
  | rollback (registryAlloc : Bool)

/-- A transaction that runs alone: its isolation level, the writes it asks for and its end. -/
structure Program where
  isolation : Isolation
  mutations : List Mutation
  finish : Finish

/-- What became of a transaction: its id, the writes that were performed, and whether its commit
succeeded. -/
structure Outcome where
  id : ℕ
  performed : List Mutation
  committed : Bool

namespace Session

/-- Ask for the writes one after another; those that the store refuses are not performed. -/
def perform (s : Session) (t : ℕ) : List Mutation → Session × List Mutation
  | [] => (s, [])
  | m :: ms =>
    let r := s.mutate t m
    let rest := r.2.perform t ms
    (rest.1, if r.1 then m :: rest.2 else rest.2)

def finish (s : Session) (t : ℕ) : Finish → Bool × Session
  | .commit env =>
    ((s.manager.commit t env).1, { s with manager := (s.manager.commit t env).2 })
  | .rollback alloc =>
    (false, { s with manager := (s.manager.rollback t alloc).2 })

def runProgram (s : Session) (p : Program) : Session × Outcome :=
  let t := s.manager.nextTxnId
  let begun : Session := { s with manager := s.manager.begun p.isolation }
  let written := begun.perform t p.mutations
  let ended := written.1.finish t p.finish
  (ended.2, ⟨t, written.2, ended.1⟩)

def serial (s : Session) : List Program → Session × List Outcome
  | [] => (s, [])
  | p :: ps =>
    let r := s.runProgram p
    let rest := r.1.serial ps
    (rest.1, r.2 :: rest.2)

end Session

end Qihse.Mvcc
