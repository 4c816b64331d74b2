import Mathlib

/-!
# The transaction manager

`qihse_txn.c`: begin, commit, rollback and savepoints, the read and write sets of optimistic
validation, the retained summaries of committed transactions, and the two-phase commit calls.

A handle is reached through its id, and the manager keeps every handle it has returned. The
registry and the active list are lists with the newest entry first, as the hash buckets and the
linked list of the source are. The outcome of an allocation, of a resource callback and of a
participant's vote is an argument of the call that asks for it; the callbacks made to participants
are kept in `calls`, oldest first. Ids are natural numbers: each one costs a node of an arena that
is never released, so the 64-bit counter cannot wrap. The commit sequence is compared with its
64-bit limit, as the source does.
-/

namespace Qihse.Txn

inductive TxnState
  | active
  | prepared
  | committed
  | aborted
deriving DecidableEq

inductive Isolation
  | readCommitted
  | repeatableRead
  | serializable
deriving DecidableEq

/-- `qihse_rw_entry_t`. -/
structure RwEntry where
  engineId : UInt8
  key : List UInt8
  isWrite : Bool
deriving DecidableEq

/-- `rw_keys_equal`. -/
def RwEntry.keysEqual (a b : RwEntry) : Bool := a.engineId == b.engineId && a.key == b.key

/-- `qihse_savepoint_t`, with the bytes of its name. -/
structure Savepoint where
  name : List UInt8
  lsn : ℕ
  writeCount : ℕ
deriving DecidableEq

/-- `qihse_txn_t`; `resource` says that a resource is attached. -/
structure Handle where
  id : ℕ
  state : TxnState
  isolation : Isolation
  snapshot : ℕ
  serializationSnapshot : ℕ
  startLsn : ℕ
  savepoints : List Savepoint
  rwSet : List RwEntry
  writeCount : ℕ
  resource : Bool
deriving DecidableEq

def Handle.live (h : Handle) : Bool := h.state = .active || h.state = .prepared

/-- `qihse_committed_summary_t`. -/
structure Summary where
  commitSeq : ℕ
  txnId : ℕ
  writes : List RwEntry

/-- The callbacks that a participant of two-phase commit provides. -/
structure Participant where
  prepare : Bool
  commit : Bool
  abort : Bool

inductive CallKind
  | prepare
  | commit
  | abort
deriving DecidableEq

/-- A callback to the participant at an index, for a transaction. -/
structure Call where
  participant : ℕ
  kind : CallKind
  txnId : ℕ

structure Manager where
  nextTxnId : ℕ
  txns : ℕ → Option Handle
  active : List ℕ
  registry : List (ℕ × TxnState)
  commitSeq : ℕ
  committed : List Summary
  participants : List Participant
  calls : List Call

def maxSavepoints : ℕ := 64

def maxParticipants : ℕ := 16

/-- Size of the buffer that holds a savepoint's name, without its terminator. -/
def maxSavepointName : ℕ := 63

/-- Longest key that a read or write set entry holds. -/
def maxRwKey : ℕ := 255

def u64Max : ℕ := 2 ^ 64 - 1

/-- Outcomes that a commit depends on: its allocations and the callback of an attached resource. -/
structure Env where
  summaryAlloc : Bool
  registryAlloc : Bool
  resourceCommit : Bool

def Env.good : Env := ⟨true, true, true⟩

namespace Manager

/-- `qihse_txn_manager_create`. -/
def create : Manager where
  nextTxnId := 1
  txns := fun _ => none
  active := []
  registry := []
  commitSeq := 0
  committed := []
  participants := []
  calls := []

/-- `registry_find`. -/
def registryFind (m : Manager) (t : ℕ) : Option TxnState :=
  (m.registry.find? (·.1 = t)).map Prod.snd

/-- `qihse_txn_is_committed`. -/
def isCommitted (m : Manager) (t : ℕ) : Bool := m.registryFind t = some .committed

/-- `qihse_txn_is_aborted`. -/
def isAborted (m : Manager) (t : ℕ) : Bool := m.registryFind t = some .aborted

/-- `registry_insert`, whose allocation may fail. -/
def registryInsert (m : Manager) (t : ℕ) (state : TxnState) (alloc : Bool) : Manager :=
  if alloc then { m with registry := (t, state) :: m.registry } else m

def setTxn (m : Manager) (txn : Handle) : Manager :=
  { m with txns := Function.update m.txns txn.id (some txn) }

/-- `active_remove`. -/
def activeRemove (m : Manager) (t : ℕ) : Manager := { m with active := m.active.erase t }

/-- The serialization snapshot of a live SERIALIZABLE transaction. -/
def serializableSnapshot (m : Manager) (t : ℕ) : Option ℕ :=
  (m.txns t).bind fun txn =>
    if txn.isolation = .serializable ∧ txn.live then some txn.serializationSnapshot else none

/-- `min_serializable_snapshot_locked`. -/
def minSerializableSnapshot (m : Manager) : Option ℕ :=
  (m.active.filterMap m.serializableSnapshot).min?

/-- `prune_committed_history_locked`. -/
def pruneCommittedHistory (m : Manager) : Manager :=
  { m with
    committed := m.committed.dropWhile fun s =>
      match m.minSerializableSnapshot with
      | some minimum => decide (s.commitSeq ≤ minimum)
      | none => true }

/-- `summary_needed_locked`. -/
def summaryNeeded (m : Manager) (txn : Handle) : Bool :=
  txn.writeCount != 0 &&
    m.active.any fun t => t != txn.id && (m.serializableSnapshot t).isSome

/-- `committed_summary_create`. -/
def summaryOf (txn : Handle) (commitSeq : ℕ) : Summary where
  commitSeq := commitSeq
  txnId := txn.id
  writes := txn.rwSet.filter RwEntry.isWrite

/-- The summary that a commit of `txn` retains. -/
def summary (m : Manager) (txn : Handle) : Option Summary :=
  if m.summaryNeeded txn then some (summaryOf txn (m.commitSeq + 1)) else none

/-- `validate_occ_locked`. -/
def validateOcc (m : Manager) (txn : Handle) : Bool :=
  txn.isolation != .serializable ||
    m.committed.all fun s =>
      decide (s.commitSeq ≤ txn.serializationSnapshot) ||
        s.writes.all fun w => txn.rwSet.all fun e => !w.keysEqual e

/-- The common end of every path that aborts: the handle is marked, the registry told if its
entry could be allocated, the transaction taken off the active list and its resource dropped. -/
def discard (m : Manager) (txn : Handle) (registryAlloc : Bool) : Manager :=
  ((m.setTxn { txn with state := .aborted, resource := false }).registryInsert txn.id .aborted
    registryAlloc).activeRemove txn.id

/-- The end of a commit that succeeds, with the summary it retains. -/
def settle (m : Manager) (txn : Handle) (summary : Option Summary) : Manager :=
  { ((m.setTxn { txn with state := .committed, resource := false }).registryInsert txn.id
      .committed true).activeRemove txn.id with
    commitSeq := m.commitSeq + 1
    committed := m.committed ++ summary.toList }

/-- One callback to each participant that provides it. -/
def callAll (m : Manager) (kind : CallKind) (provides : Participant → Bool) (t : ℕ) : Manager :=
  { m with
    calls := m.calls ++ (m.participants.zipIdx.filter fun p => provides p.1).map fun p =>
      ⟨p.2, kind, t⟩ }

/-! ### Calls -/

/-- `qihse_txn_begin`; the two flags say whether the handle and the list node can be allocated. -/
def begin (m : Manager) (isolation : Isolation) (handle node : Bool) : Option ℕ × Manager :=
  if !handle then (none, m)
  else
    let t := m.nextTxnId
    let txn : Handle :=
      { id := t, state := .active, isolation := isolation, snapshot := t - 1,
        serializationSnapshot := m.commitSeq, startLsn := 0, savepoints := [], rwSet := [],
        writeCount := 0, resource := false }
    -- the id is spent even where the node cannot be allocated
    let m := { m with nextTxnId := t + 1 }
    if !node then (none, m)
    else (some t, { m.setTxn txn with active := t :: m.active })

/-- `qihse_txn_commit`. -/
def commit (m : Manager) (t : ℕ) (env : Env) : Bool × Manager :=
  match m.txns t with
  | none => (false, m)
  | some txn =>
    if txn.state ≠ .active then (false, m)
    else if !m.validateOcc txn || decide (m.commitSeq = u64Max) then
      (false, (m.discard txn env.registryAlloc).pruneCommittedHistory)
    else if m.summaryNeeded txn && !env.summaryAlloc then
      (false, (m.discard txn env.registryAlloc).pruneCommittedHistory)
    else if !env.registryAlloc then (false, (m.discard txn false).pruneCommittedHistory)
    else if txn.resource && !env.resourceCommit then
      (false, (m.discard txn true).pruneCommittedHistory)
    else
      (true, (m.settle txn (m.summary txn)).pruneCommittedHistory)

/-- `qihse_txn_rollback`. -/
def rollback (m : Manager) (t : ℕ) (registryAlloc : Bool) : Bool × Manager :=
  match m.txns t with
  | none => (false, m)
  | some txn =>
    if txn.state ≠ .active then (false, m)
    else (true, (m.discard txn registryAlloc).pruneCommittedHistory)

/-- `qihse_txn_savepoint`. -/
def savepoint (m : Manager) (t : ℕ) (name : List UInt8) : Bool × Manager :=
  match m.txns t with
  | none => (false, m)
  | some txn =>
    if txn.state ≠ .active ∨ txn.resource ∨ maxSavepoints ≤ txn.savepoints.length then (false, m)
    else
      (true, m.setTxn { txn with
        savepoints := txn.savepoints ++
          [⟨name.take maxSavepointName, txn.startLsn, txn.writeCount⟩] })

/-- Drop the writes of a read and write set after the first `n`, and keep its reads. -/
def keepWrites : ℕ → List RwEntry → List RwEntry
  | _, [] => []
  | n, e :: rest =>
    if e.isWrite then
      match n with
      | 0 => keepWrites 0 rest
      | n + 1 => e :: keepWrites n rest
    else e :: keepWrites n rest

/-- The stack up to and with the last savepoint of a name. -/
def savepointsTo (name : List UInt8) (stack : List Savepoint) : List Savepoint :=
  (stack.reverse.dropWhile fun sp => sp.name != name).reverse

/-- `qihse_txn_rollback_to_savepoint`. -/
def rollbackToSavepoint (m : Manager) (t : ℕ) (name : List UInt8) : Bool × Manager :=
  match m.txns t with
  | none => (false, m)
  | some txn =>
    if txn.state ≠ .active ∨ txn.resource then (false, m)
    else
      match (savepointsTo name txn.savepoints).getLast? with
      | none => (false, m)
      | some sp =>
        (true, m.setTxn { txn with
          writeCount := sp.writeCount
          savepoints := savepointsTo name txn.savepoints
          rwSet := if txn.rwSet.length > sp.writeCount then keepWrites sp.writeCount txn.rwSet
            else txn.rwSet })

/-- `qihse_txn_record_read` and `qihse_txn_record_write`, which look at no state. -/
def record (m : Manager) (t : ℕ) (isWrite : Bool) (e : UInt8) (key : List UInt8) (alloc : Bool) :
    Bool × Manager :=
  match m.txns t with
  | none => (false, m)
  | some txn =>
    if !alloc then (false, m)
    else
      (true, m.setTxn { txn with
        rwSet := txn.rwSet ++ [⟨e, key.take maxRwKey, isWrite⟩]
        writeCount := if isWrite then txn.writeCount + 1 else txn.writeCount })

def recordRead (m : Manager) (t : ℕ) (e : UInt8) (key : List UInt8) (alloc : Bool) :
    Bool × Manager :=
  m.record t false e key alloc

def recordWrite (m : Manager) (t : ℕ) (e : UInt8) (key : List UInt8) (alloc : Bool) :
    Bool × Manager :=
  m.record t true e key alloc

/-- `qihse_txn_attach_resource`. -/
def attachResource (m : Manager) (t : ℕ) : Bool × Manager :=
  match m.txns t with
  | none => (false, m)
  | some txn =>
    if txn.state ≠ .active ∨ txn.resource then (false, m)
    else (true, m.setTxn { txn with resource := true })

/-- `qihse_txn_register_participant`. -/
def registerParticipant (m : Manager) (p : Participant) : Bool × Manager :=
  if maxParticipants ≤ m.participants.length then (false, m)
  else (true, { m with participants := m.participants ++ [p] })

/-- The voting loop of `qihse_txn_prepare`: the calls made, and whether every vote was yes. -/
def prepareVotes (t : ℕ) : List (Participant × ℕ) → List Bool → List Call × Bool
  | [], _ => ([], true)
  | (p, i) :: ps, votes =>
    if !p.prepare then prepareVotes t ps votes.tail
    else if votes.headD true then
      let (calls, ok) := prepareVotes t ps votes.tail
      (⟨i, .prepare, t⟩ :: calls, ok)
    else ([⟨i, .prepare, t⟩], false)

/-- `qihse_txn_prepare`; `votes` are the participants' answers in order. -/
def prepare (m : Manager) (t : ℕ) (votes : List Bool) (registryAlloc : Bool) : Bool × Manager :=
  match m.txns t with
  | none => (false, m)
  | some txn =>
    if txn.state ≠ .active ∨ txn.resource then (false, m)
    else
      let (calls, ok) := prepareVotes t m.participants.zipIdx votes
      let m := { m with calls := m.calls ++ calls }
      if ok then (true, m.setTxn { txn with state := .prepared })
      else (false, (m.discard txn registryAlloc).pruneCommittedHistory)

/-- `qihse_txn_commit_prepared`. -/
def commitPrepared (m : Manager) (t : ℕ) (env : Env) : Bool × Manager :=
  match m.txns t with
  | none => (false, m)
  | some txn =>
    if txn.state ≠ .prepared then (false, m)
    else if !m.validateOcc txn || decide (m.commitSeq = u64Max) then
      (false, ((m.callAll .abort Participant.abort t).discard txn
        env.registryAlloc).pruneCommittedHistory)
    else if m.summaryNeeded txn && !env.summaryAlloc then
      (false, ((m.callAll .abort Participant.abort t).discard txn
        env.registryAlloc).pruneCommittedHistory)
    else if !env.registryAlloc then
      (false, ((m.callAll .abort Participant.abort t).discard txn false).pruneCommittedHistory)
    else
      (true, ((m.callAll .commit Participant.commit t).settle txn
        (m.summary txn)).pruneCommittedHistory)

/-- `qihse_txn_abort_prepared`, the one abort that does not prune. -/
def abortPrepared (m : Manager) (t : ℕ) (registryAlloc : Bool) : Bool × Manager :=
  match m.txns t with
  | none => (false, m)
  | some txn =>
    if txn.state ≠ .prepared then (false, m)
    else (true, (m.callAll .abort Participant.abort t).discard txn registryAlloc)

/-- The id counter after a transaction met during recovery. -/
def passId (m : Manager) (t : ℕ) : Manager :=
  if m.nextTxnId ≤ t then { m with nextTxnId := t + 1 } else m

/-- `qihse_txn_register_committed`. -/
def registerCommitted (m : Manager) (t : ℕ) : Manager :=
  (m.registryInsert t .committed true).passId t

/-- `qihse_txn_register_aborted`. -/
def registerAborted (m : Manager) (t : ℕ) : Manager :=
  (m.registryInsert t .aborted true).passId t

end Manager

/-! ### Runs -/

/-- A call on the manager, with the outcomes of what it asks for. -/
inductive Op
  | begin (isolation : Isolation) (handle node : Bool)
  | recordRead (t : ℕ) (e : UInt8) (key : List UInt8) (alloc : Bool)
  | recordWrite (t : ℕ) (e : UInt8) (key : List UInt8) (alloc : Bool)
  | savepoint (t : ℕ) (name : List UInt8)
  | rollbackToSavepoint (t : ℕ) (name : List UInt8)
  | attachResource (t : ℕ)
  | registerParticipant (p : Participant)
  | commit (t : ℕ) (env : Env)
  | rollback (t : ℕ) (registryAlloc : Bool)
  | prepare (t : ℕ) (votes : List Bool) (registryAlloc : Bool)
  | commitPrepared (t : ℕ) (env : Env)
  | abortPrepared (t : ℕ) (registryAlloc : Bool)

/-- Run a call; the flag is its result 0, or a handle for `qihse_txn_begin`. -/
def Manager.exec (m : Manager) : Op → Bool × Manager
  | .begin isolation handle node =>
    ((m.begin isolation handle node).1.isSome, (m.begin isolation handle node).2)
  | .recordRead t e key alloc => m.recordRead t e key alloc
  | .recordWrite t e key alloc => m.recordWrite t e key alloc
  | .savepoint t name => m.savepoint t name
  | .rollbackToSavepoint t name => m.rollbackToSavepoint t name
  | .attachResource t => m.attachResource t
  | .registerParticipant p => m.registerParticipant p
  | .commit t env => m.commit t env
  | .rollback t registryAlloc => m.rollback t registryAlloc
  | .prepare t votes registryAlloc => m.prepare t votes registryAlloc
  | .commitPrepared t env => m.commitPrepared t env
  | .abortPrepared t registryAlloc => m.abortPrepared t registryAlloc

end Qihse.Txn
