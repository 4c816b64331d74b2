import Qihse.Kv.Delta
import Qihse.Kv.Refine

/-!
# Replication by deltas

A replica pulls the changes of a primary from its resume point, applies them one by one, and the
primary keeps a cursor of what the replica has acknowledged. `Replication.meets` is the condition on
a step under which no change is lost: a record whose time has come is neither exported nor kept by a
compaction, so it must not be the only sign of a change that the replica still has to learn of.
-/

namespace Qihse.Kv

def replicaCursorMaxItems : ℕ := 4096

/-- The record that a delta stands for. -/
def DeltaRecord.entry (r : DeltaRecord) : Entry :=
  ⟨r.key, ⟨r.value.getD [], r.expireTimeMs, r.changeSeq, r.classification, r.sciCompartment,
    r.tombstone⟩⟩

namespace Store

/-! ### The primary -/

/-- `qihse_kv_export_incremental_user`; the readings are of the export and of its walk over the
files. -/
def exportIncrementalUser (s : Store) (user : Access) (since now now' : ℕ) : Option Page :=
  exportIncremental ⟨0, 0⟩ user (fun _ => true) since now (s.memtable ++ s.foreachNewest true now')

/-- Give the first cursor of a peer and a namespace another sequence. -/
def setCursor (peerId namespaceId : List UInt8) (seq : ℕ) : List Cursor → List Cursor
  | [] => []
  | c :: cs =>
    if c.peerId = peerId ∧ c.namespaceId = namespaceId then { c with seq := seq } :: cs
    else c :: setCursor peerId namespaceId seq cs

/-- `cursor_find`. -/
def findCursor (s : Store) (peerId namespaceId : List UInt8) : Option Cursor :=
  s.disk.cursors.find? fun c => decide (c.peerId = peerId ∧ c.namespaceId = namespaceId)

/-- `replica_cursor_advance_locked`, for an operator that may use it. The store is synced before the
cursor moves. -/
def replicaCursorAdvance (s : Store) (peerId namespaceId : List UInt8) (covers : Key → Bool)
    (seq now : ℕ) : Option Store :=
  match s.findCursor peerId namespaceId with
  | some c =>
    if seq < c.seq then none
    else if seq = c.seq then some (s.syncStore now)
    else
      let s' := s.syncStore now
      some { s' with
        disk := { s'.disk with cursors := setCursor peerId namespaceId seq s'.disk.cursors } }
  | none =>
    if replicaCursorMaxItems ≤ s.disk.cursors.length then none
    else
      let s' := s.syncStore now
      some { s' with
        disk := { s'.disk with cursors := ⟨peerId, namespaceId, covers, seq⟩ :: s'.disk.cursors } }

/-! ### The replica -/

/-- `wal_append_replica`, `insert_internal` and the floor of the sequence. -/
def putReplica (s : Store) (e : Entry) : Store :=
  let s' := (s.issue (.append (e.frame .replica))).insertInternal e
  { s' with changeSeq := max s'.changeSeq e.payload.changeSeq }

/-- `replica_record_matches_stored`: the record in the memtable, or the first one of the newest
file that has the key. -/
def replicaRecordMatchesStored (s : Store) (r : DeltaRecord) : Bool :=
  match s.trie.find r.key with
  | some p => decide (p = r.entry.payload)
  | none =>
    ((List.range s.sstableCounter).reverse.findSome? fun sid =>
      ((s.disk.files.lookup sid).getD []).find? fun e => decide (e.key = r.key)).any
        fun e => decide (e.payload = r.entry.payload)

/-- The part of `qihse_kv_apply_replica_record` where the key has a record already. -/
def applyOver (s : Store) (p : Payload) (r : DeltaRecord) (principal : Access) (now : ℕ) :
    Option Store :=
  if !principal p.classification p.sciCompartment then none
  else if r.changeSeq < p.changeSeq then none
  else if p.changeSeq = r.changeSeq then
    if (p.tombstone = r.tombstone ∧ p.classification = r.classification ∧
        p.sciCompartment = r.sciCompartment ∧ p.expireTimeMs = r.expireTimeMs) ∧
        (r.tombstone ∨ s.replicaRecordMatchesStored r) then some s
    else none
  else some ((s.putReplica r.entry).flushIfFull now)

/-- `qihse_kv_apply_replica_record`; the readings are of the lookup and of the compaction. -/
def applyReplicaRecord (s : Store) (r : DeltaRecord) (principal : Access) (now now' : ℕ) :
    Option Store :=
  if r.key = [] ∨ r.changeSeq = 0 ∨ maxKeyLen < r.key.length ∨
      (r.tombstone = true ∧ r.expireTimeMs ≠ 0) ∨ maxValueLen < (r.value.getD []).length ∨
      principal r.classification r.sciCompartment = false then none
  else
    match s.logicalLookup r.key now with
    | .miss => some ((s.putReplica r.entry).flushIfFull now')
    | .dead p => s.applyOver p r principal now'
    | .live p => s.applyOver p r principal now'

/-- The records of a page, one after the other, until one is refused. -/
def applyEach (clock : ℕ → ℕ) (n : ℕ) (s : Store) : List DeltaRecord → Store × Bool
  | [] => (s, true)
  | r :: rs =>
    match s.applyReplicaRecord r cleared (clock n) (clock (n + 1)) with
    | none => (s, false)
    | some s' => applyEach clock (n + 2) s' rs

/-! ### Mutation and maintenance -/

/-- The store of a call when its record is written and the maintenance begins. -/
def mutation (s : Store) (c : Call) : Option Store :=
  match c.op with
  | .set key value classification sci =>
    s.setRecord key.bytes value.bytes 0 classification sci cleared
  | .del key => s.delRecord key.bytes cleared (c.clock.read 0)
  | .expire key ttlMs =>
    s.expireRecord key.bytes ttlMs cleared (c.clock.read 0) (c.clock.read 1)
  | .sweep => some (s.sweepMemtable (c.clock.read 0))
  | .clear => none
  | .sync => some s

/-- The store that a flush compacts, if it does. -/
def flushCompaction (s : Store) (now : ℕ) : Option (Store × ℕ) :=
  if sstableHardCeiling ≤ s.flushMemtable.sstableLiveCount then some (s.flushMemtable, now)
  else none

/-- The store that the maintenance of a call compacts, if it does, with the time. -/
def compaction (s : Store) (c : Call) : Option (Store × ℕ) :=
  match c.op with
  | .set _ _ _ _ => if memtableMax < s.memUsage then s.flushCompaction (c.clock.read 0) else none
  | .del _ => if memtableMax < s.memUsage then s.flushCompaction (c.clock.read 1) else none
  | .expire _ _ => if memtableMax < s.memUsage then s.flushCompaction (c.clock.read 2) else none
  | .sweep => if s.sweepCompacts (c.clock.read 0) then some (s, c.clock.read 1) else none
  | .clear => none
  | .sync => if 0 < s.memUsage then s.flushCompaction (c.clock.read 0) else none

/-! ### Records that are passed over -/

/-- A change after a resume point whose time to live is over. -/
def lapsed (since now : ℕ) (p : Payload) : Bool :=
  decide (since < p.changeSeq) && !p.tombstone && p.expired now

/-- An export passes over the newest record of the key. -/
def overlooks (s : Store) (since now now' : ℕ) (k : Key) : Bool :=
  match s.trie.find k with
  | some p => lapsed since now p
  | none => (s.pinned k).any (lapsed since now')

/-- A compaction drops the newest record of the key before it was exported. -/
def forgets (s : Store) (since now : ℕ) (k : Key) : Bool :=
  (s.trie.find k).isNone && (s.pinned k).any (lapsed since now)

def keys (s : Store) : List Key := s.memtable.map Entry.key ++ s.sstMeta.keys

end Store

/-! ### The system -/

/-- A primary, a replica, and the point up to which the replica has pulled. -/
structure Replication where
  primary : Store
  replica : Store
  resume : ℕ

namespace Replication

inductive Act
  | call (c : Call)
  | pull (clock : Clock)
  | ack (clock : Clock)
  | tidy (clock : Clock)

def Act.clock : Act → Clock
  | .call c => c.clock
  | .pull clock => clock
  | .ack clock => clock
  | .tidy clock => clock

/-- What a pull gets. -/
def page (r : Replication) (clock : Clock) : Option Page :=
  r.primary.exportIncrementalUser cleared r.resume (clock.read 0) (clock.read 1)

section Run

variable (peerId namespaceId : List UInt8)

/-- A step: a call on the primary, a pull of the replica, an acknowledgement of what it has, or a
sweep of the replica. Both stores read one clock. -/
def step (r : Replication) : Act → Replication
  | .call c => { r with primary := (r.primary.exec c).1 }
  | .pull clock =>
    match r.page clock with
    | none => r
    | some page =>
      let applied := r.replica.applyEach clock.read 2 page.records
      { r with
        replica := applied.1
        resume := if applied.2 then page.resume else r.resume }
  | .ack clock =>
    match r.primary.replicaCursorAdvance peerId namespaceId (fun _ => true) r.resume
        (clock.read 0) with
    | none => r
    | some s => { r with primary := s }
  | .tidy clock => { r with replica := r.replica.sweepExpired (clock.read 0) (clock.read 1) }

/-- A replica that is registered for every key. -/
def start (others : List Cursor) : Replication where
  primary := .fresh (⟨peerId, namespaceId, fun _ => true, 0⟩ :: others)
  replica := { Store.fresh [] with replicaReadOnly := true }
  resume := 0

def run (others : List Cursor) (acts : List Act) : Replication :=
  acts.foldl (step peerId namespaceId) (start peerId namespaceId others)

/-- No key that the replica still has loses its newest record to a compaction. -/
def keepsChanges (r : Replication) : Option (Store × ℕ) → Bool
  | none => true
  | some (s, now) => s.keys.all fun k =>
    !s.forgets r.resume now k || (r.replica.getUser k cleared now).isNone

/-- The condition on a step: whatever an export or a compaction passes over because its time to live
is over, and the replica was not told of, the replica does not have. -/
def meets (r : Replication) : Act → Bool
  | .call c => r.keepsChanges ((r.primary.mutation c).bind fun s => s.compaction c)
  | .pull clock => r.primary.keys.all fun k =>
    !r.primary.overlooks r.resume (clock.read 0) (clock.read 1) k ||
      (r.replica.getUser k cleared (clock.read 1)).isNone
  | .ack clock => r.keepsChanges
    (if 0 < r.primary.memUsage then r.primary.flushCompaction (clock.read 0) else none)
  | .tidy _ => true

/-- Every step of a run meets the condition. -/
def meetsAll (r : Replication) : List Act → Bool
  | [] => true
  | a :: as => r.meets a && meetsAll (r.step peerId namespaceId a) as

end Run

end Replication

end Qihse.Kv
