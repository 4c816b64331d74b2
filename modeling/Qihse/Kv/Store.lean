import Qihse.Bytes.Order
import Qihse.Kv.Frame
import Qihse.Tst.Tree

/-!
# The key-value store

The log-structured store of `qihse_kv_store.c`: a memtable, sorted files on disk, an index that pins
the newest record of every key in the files, and a log of the mutations in the memtable. The file
operations go through `Store.issue`, which also keeps them in order; a crash leaves the files as
some of these operations made them.

A call reads the clock several times, so every function takes the readings it uses.
-/

namespace Qihse.Kv

def memtableMax : ℕ := 512 * 1024

def sstableHardCeiling : ℕ := 64

def sstableCompactThreshold : ℕ := 16

/-! ### Files -/

/-- `kv_replica_cursor_t`; `covers` is what `fnmatch` says of a key and the namespace. -/
structure Cursor where
  peerId : List UInt8
  namespaceId : List UInt8
  covers : Key → Bool
  seq : ℕ

/-- The files `sstable_<id>.db` of the data directory. -/
abbrev Files : Type := AList fun _ : ℕ => List Entry

/-- The data directory: the sorted files, `wal.log` and `replica-cursors.bin`. -/
structure Disk where
  files : Files
  wal : List UInt8
  cursors : List Cursor

inductive FileOp
  | append (bytes : List UInt8)
  | rename (id : ℕ) (records : List Entry)
  | emptyWal
  | unlink (id : ℕ)

def Disk.apply (d : Disk) : FileOp → Disk
  | .append bytes => { d with wal := d.wal ++ bytes }
  | .rename id records => { d with files := d.files.insert id records }
  | .emptyWal => { d with wal := [] }
  | .unlink id => { d with files := d.files.erase id }

/-! ### The store in memory -/

/-- `sst_meta_entry_t`. The offset is the number of the record in its file. -/
structure Meta where
  classification : UInt16
  sciCompartment : UInt16
  expireTimeMs : ℕ
  tombstone : Bool
  sstableId : ℕ
  offset : ℕ

/-- `sst_meta_index_t`. -/
abbrev Index : Type := AList fun _ : Key => Meta

/-- The index entry for a record of a file. -/
def Entry.pin (e : Entry) (sstableId offset : ℕ) : Meta where
  classification := e.payload.classification
  sciCompartment := e.payload.sciCompartment
  expireTimeMs := e.payload.expireTimeMs
  tombstone := e.payload.tombstone
  sstableId := sstableId
  offset := offset

/-- The condition under which `qihse_kv_count_user` and `qihse_kv_clear_user` pass over an index
entry. -/
def Meta.isDead (m : Meta) (now : ℕ) : Bool :=
  m.tombstone || decide (m.expireTimeMs ≠ 0 ∧ m.expireTimeMs ≤ now)

/-- The index after the records of a file, from one record number on, went through
`sst_meta_index_insert`. -/
def Index.addFile (idx : Index) (sstableId : ℕ) : List Entry → ℕ → Index
  | [], _ => idx
  | e :: es, offset =>
    Index.addFile (AList.insert e.key (e.pin sstableId offset) idx) sstableId es (offset + 1)

/-- `qihse_kv_store`. The cursors in memory are those of the file. -/
structure Store where
  trie : Tst.Trie UInt8 Payload
  memUsage : ℕ
  sstableCounter : ℕ
  sstableLiveCount : ℕ
  sstMeta : Index
  changeSeq : ℕ
  replicaReadOnly : Bool
  disk : Disk
  /-- The file operations so far. -/
  issued : List FileOp

/-- `kv_lookup_result_t`. -/
inductive Lookup
  | miss
  | dead (p : Payload)
  | live (p : Payload)

namespace Store

def issue (s : Store) (op : FileOp) : Store :=
  { s with disk := s.disk.apply op, issued := s.issued ++ [op] }

def issueAll (s : Store) (ops : List FileOp) : Store := ops.foldl issue s

/-- `kv_change_seq_next`; the last number is never passed. -/
def changeSeqNext (s : Store) : Option ℕ :=
  if s.changeSeq + 1 < 2 ^ 64 then some (s.changeSeq + 1) else none

/-- `insert_internal`. A payload has a header of 24 bytes, and the value has a terminator. -/
def insertInternal (s : Store) (e : Entry) : Store :=
  { s with
    trie := s.trie.insert e.key e.payload
    memUsage := s.memUsage + (e.key.length + (24 + e.payload.value.length + 1)) }

/-- `wal_append`, with the sequence the record was given. -/
def walAppend (s : Store) (e : Entry) : Store :=
  { s with changeSeq := e.payload.changeSeq }.issue (.append (e.frame .localSeq))

/-! ### Lookup -/

/-- `lookup_one_sstable`. -/
def lookupOneSstable (s : Store) (key : Key) (sstableId offset now : ℕ) : Lookup :=
  match s.disk.files.lookup sstableId with
  | none => .miss
  | some records =>
    match records[offset]? with
    | none => .miss
    | some e =>
      if e.key ≠ key then .miss
      else if e.payload.isDead now then .dead e.payload else .live e.payload

/-- `logical_lookup` with a healthy index. -/
def logicalLookup (s : Store) (key : Key) (now : ℕ) : Lookup :=
  match s.trie.find key with
  | some p => if p.isDead now then .dead p else .live p
  | none =>
    match s.sstMeta.lookup key with
    | some m => s.lookupOneSstable key m.sstableId m.offset now
    | none => .miss

/-- `qihse_kv_get_user`. -/
def getUser (s : Store) (key : Key) (user : Access) (now : ℕ) : Option Value :=
  match s.logicalLookup key now with
  | .live p => if user p.classification p.sciCompartment then some p.value else none
  | _ => none

/-- The records of the memtable, as `qihse_trinary_trie_foreach` gives them to its callback. Its
buffer of 512 bytes, which a longer key overruns, and the sign of its `char`s are left out. -/
def memtable (s : Store) : List Entry := s.trie.entries.map fun kp => ⟨kp.1, kp.2⟩

/-- The index entries that no record of the memtable shadows. -/
def unshadowed (s : Store) : List (Key × Meta) :=
  (s.sstMeta.entries.map fun km => (km.1, km.2)).filter fun km => (s.trie.find km.1).isNone

/-- The keys that `qihse_kv_clear_user` collects; `qihse_kv_count_user` counts the same ones. -/
def liveKeys (s : Store) (user : Access) (now : ℕ) : List Key :=
  (s.memtable.filter fun e => !e.payload.isDead now &&
      user e.payload.classification e.payload.sciCompartment).map Entry.key ++
    (s.unshadowed.filter fun km => !km.2.isDead now &&
      user km.2.classification km.2.sciCompartment).map Prod.fst

/-- `qihse_kv_count_user`. -/
def countUser (s : Store) (user : Access) (now : ℕ) : ℕ := (s.liveKeys user now).length

/-! ### Compaction -/

/-- The test of `sst_foreach_newest` on a record. -/
def emits (s : Store) (includeTombstones : Bool) (now sstableId offset : ℕ) (e : Entry) : Bool :=
  (match s.sstMeta.lookup e.key with
    | some m => decide (m.sstableId = sstableId ∧ m.offset = offset)
    | none => false) &&
  (s.trie.find e.key).isNone && !(!e.payload.tombstone && e.payload.expired now) &&
  (includeTombstones || !e.payload.tombstone)

/-- The records of a file, from one record number on, that `sst_foreach_newest` passes on. -/
def emitted (s : Store) (includeTombstones : Bool) (now sstableId : ℕ) :
    List Entry → ℕ → List Entry
  | [], _ => []
  | e :: es, offset =>
    if s.emits includeTombstones now sstableId offset e then
      e :: s.emitted includeTombstones now sstableId es (offset + 1)
    else s.emitted includeTombstones now sstableId es (offset + 1)

/-- `sst_foreach_newest` with a healthy index, newest file first. -/
def foreachNewest (s : Store) (includeTombstones : Bool) (now : ℕ) : List Entry :=
  (List.range s.sstableCounter).reverse.flatMap fun sid =>
    s.emitted includeTombstones now sid ((s.disk.files.lookup sid).getD []) 0

/-- `tombstone_has_unacked_replica`. -/
def tombstoneHasUnackedReplica (s : Store) (key : Key) (changeSeq : ℕ) : Bool :=
  s.disk.cursors.any fun c => decide (c.seq < changeSeq) && c.covers key

/-- The records that `compact_emit_cb` writes to the merged file. -/
def compacted (s : Store) (now : ℕ) : List Entry :=
  (s.foreachNewest true now).filter fun e =>
    !(e.payload.tombstone && !s.tombstoneHasUnackedReplica e.key e.payload.changeSeq)

/-- The file operations of `compact_sstables_stream`. -/
def compactOps (s : Store) (now : ℕ) : List FileOp :=
  (if s.compacted now = [] then [] else [.rename s.sstableCounter (s.compacted now)]) ++
    (List.range s.sstableCounter).map .unlink

/-- `sst_index_load_file`, which also raises the sequence to those of the records. -/
def sstIndexLoadFile (s : Store) (sstableId : ℕ) : Store :=
  match s.disk.files.lookup sstableId with
  | none => s
  | some records =>
    { s with
      sstMeta := s.sstMeta.addFile sstableId records 0
      changeSeq := records.foldl (fun n e => max n e.payload.changeSeq) s.changeSeq }

/-- `compact_sstables_stream`. -/
def compactSstablesStream (s : Store) (now : ℕ) : Store :=
  if s.sstableCounter = 0 then s
  else if s.compacted now = [] then
    { s.issueAll (s.compactOps now) with
      sstableCounter := 0
      sstableLiveCount := 0
      sstMeta := ∅ }
  else
    { s.issueAll (s.compactOps now) with
      sstableCounter := s.sstableCounter + 1
      sstableLiveCount := 1
      sstMeta := ∅ }.sstIndexLoadFile s.sstableCounter

/-- The part of `flush_memtable_to_sstable` up to the swap of the log. -/
def flushMemtable (s : Store) : Store :=
  { s.issueAll [.rename s.sstableCounter s.memtable, .emptyWal] with
    trie := Tst.Trie.empty
    memUsage := 0
    sstableCounter := s.sstableCounter + 1
    sstableLiveCount := s.sstableLiveCount + 1
    sstMeta := s.sstMeta.addFile s.sstableCounter s.memtable 0 }

/-- `flush_memtable_to_sstable`. -/
def flushMemtableToSstable (s : Store) (now : ℕ) : Store :=
  if sstableHardCeiling ≤ s.flushMemtable.sstableLiveCount then
    s.flushMemtable.compactSstablesStream now
  else s.flushMemtable

/-- The flush that ends a mutation when the memtable is full. -/
def flushIfFull (s : Store) (now : ℕ) : Store :=
  if memtableMax < s.memUsage then s.flushMemtableToSstable now else s

/-! ### Mutations

A refused call gives `none` and leaves the store as it was. -/

/-- The class and compartment of an existing key, for the check on an overwrite. -/
def existing (s : Store) (key : Key) : Option (UInt16 × UInt16) :=
  match s.trie.find key with
  | some p => some (p.classification, p.sciCompartment)
  | none => (s.sstMeta.lookup key).map fun m => (m.classification, m.sciCompartment)

/-- `set_user_with_expiry` up to its flush. -/
def setRecord (s : Store) (key : Key) (value : Value) (expireTimeMs : ℕ)
    (classification sciCompartment : UInt16) (user : Access) : Option Store :=
  if s.replicaReadOnly ∨ key = [] then none
  else if maxKeyLen < key.length ∨ maxValueLen < value.length then none
  else if !user classification sciCompartment then none
  else if (s.existing key).any fun label => !user label.1 label.2 then none
  else s.changeSeqNext.map fun seq =>
    let e : Entry := ⟨key, ⟨value, expireTimeMs, seq, classification, sciCompartment, false⟩⟩
    (s.walAppend e).insertInternal e

/-- `set_user_with_expiry`. -/
def setUserWithExpiry (s : Store) (key : Key) (value : Value) (expireTimeMs : ℕ)
    (classification sciCompartment : UInt16) (user : Access) (now : ℕ) : Option Store :=
  (s.setRecord key value expireTimeMs classification sciCompartment user).map
    fun s' => s'.flushIfFull now

/-- `qihse_kv_set_user`. -/
def setUser (s : Store) (key : Key) (value : Value) (classification sciCompartment : UInt16)
    (user : Access) (now : ℕ) : Option Store :=
  s.setUserWithExpiry key value 0 classification sciCompartment user now

/-- The record that a deletion leaves. -/
def tombstone (key : Key) (seq : ℕ) (classification sciCompartment : UInt16) : Entry :=
  ⟨key, ⟨[], 0, seq, classification, sciCompartment, true⟩⟩

/-- `kv_del_user_impl` up to its flush. -/
def delRecord (s : Store) (key : Key) (user : Access) (now : ℕ) : Option Store :=
  match s.logicalLookup key now with
  | .live p =>
    if user p.classification p.sciCompartment then
      s.changeSeqNext.map fun seq =>
        let e := tombstone key seq p.classification p.sciCompartment
        (s.walAppend e).insertInternal e
    else none
  | _ => none

/-- `kv_del_user_impl`; the two readings are of the lookup and of the compaction. -/
def delUserImpl (s : Store) (key : Key) (user : Access) (now now' : ℕ) : Option Store :=
  (s.delRecord key user now).map fun s' => s'.flushIfFull now'

/-- `qihse_kv_del_user`. -/
def delUser (s : Store) (key : Key) (user : Access) (now now' : ℕ) : Option Store :=
  if s.replicaReadOnly then none else s.delUserImpl key user now now'

/-- `qihse_kv_expire` up to its flush; the readings are of the lookup and of the new expiry. -/
def expireRecord (s : Store) (key : Key) (ttlMs : ℕ) (user : Access) (now now' : ℕ) :
    Option Store :=
  if s.replicaReadOnly then none
  else
    match s.logicalLookup key now with
    | .live p =>
      if user p.classification p.sciCompartment then
        if 2 ^ 64 - 1 - now' < ttlMs then none
        else s.setRecord key p.value (now' + ttlMs) p.classification p.sciCompartment user
      else none
    | _ => none

/-- `qihse_kv_expire`; the last reading is of the compaction. -/
def expire (s : Store) (key : Key) (ttlMs : ℕ) (user : Access) (now now' now'' : ℕ) :
    Option Store :=
  (s.expireRecord key ttlMs user now now').map fun s' => s'.flushIfFull now''

/-- One round of `tombstone_expired_keys`; without a sequence the key is passed over. -/
def tombstoneExpiredKey (s : Store) (key : Key) : Store :=
  match s.trie.find key with
  | none => s
  | some p =>
    match s.changeSeqNext with
    | none => s
    | some seq =>
      let e := tombstone key seq p.classification p.sciCompartment
      (s.walAppend e).insertInternal e

/-- The keys of `collect_expired_cb`. -/
def expiredKeys (s : Store) (now : ℕ) : List Key :=
  (s.memtable.filter fun e => !e.payload.tombstone && e.payload.expired now).map Entry.key

/-- The tombstones of `qihse_kv_sweep_expired`. -/
def sweepMemtable (s : Store) (now : ℕ) : Store := (s.expiredKeys now).foldl tombstoneExpiredKey s

/-- `sst_meta_index_has_expired`. -/
def sstMetaIndexHasExpired (s : Store) (now : ℕ) : Bool :=
  s.sstMeta.entries.any fun km =>
    !km.2.tombstone && decide (km.2.expireTimeMs ≠ 0 ∧ km.2.expireTimeMs ≤ now)

/-- Whether a sweep compacts the files. -/
def sweepCompacts (s : Store) (now : ℕ) : Bool :=
  s.sstMetaIndexHasExpired now || decide (sstableCompactThreshold ≤ s.sstableLiveCount)

/-- `qihse_kv_sweep_expired`. -/
def sweepExpired (s : Store) (now now' : ℕ) : Store :=
  if s.replicaReadOnly then
    if sstableCompactThreshold ≤ s.sstableLiveCount then s.compactSstablesStream now else s
  else if (s.sweepMemtable now).sweepCompacts now then
    (s.sweepMemtable now).compactSstablesStream now'
  else s.sweepMemtable now

/-- The deletions of `qihse_kv_clear_user`, with the keys that went; the readings of each deletion
follow those of the one before. -/
def delEach (user : Access) (clock : ℕ → ℕ) (n : ℕ) (s : Store) : List Key → Store × List Key
  | [] => (s, [])
  | k :: ks =>
    match s.delUserImpl k user (clock n) (clock (n + 1)) with
    | none => delEach user clock (n + 2) s ks
    | some s' =>
      let r := delEach user clock (n + 2) s' ks
      (r.1, k :: r.2)

/-- `qihse_kv_clear_user`, with the keys that it removed; the code returns their number. -/
def clearUser (s : Store) (user : Access) (clock : ℕ → ℕ) : Store × List Key :=
  if s.replicaReadOnly then (s, [])
  else
    let keys := s.liveKeys user (clock 0)
    let r := delEach user clock 1 s keys
    if r.2 ≠ [] ∧ 0 < r.1.sstableCounter then
      (r.1.compactSstablesStream (clock (2 * keys.length + 1)), r.2)
    else r

/-- `qihse_kv_sync_store`, which flushes a memtable that holds anything. -/
def syncStore (s : Store) (now : ℕ) : Store :=
  if 0 < s.memUsage then s.flushMemtableToSstable now else s

/-! ### Opening -/

/-- `wal_replay_new_record` on a frame that was read. A record that is older than the one in the
memtable is refused unless it is the same record. -/
def walReplayRecord (s : Store) (e : Entry) : Option Store :=
  match s.trie.find e.key with
  | some prior =>
    if e.payload.changeSeq ≤ prior.changeSeq then
      if prior = e.payload then some s else none
    else some { s.insertInternal e with changeSeq := max s.changeSeq e.payload.changeSeq }
  | none => some { s.insertInternal e with changeSeq := max s.changeSeq e.payload.changeSeq }

/-- The loop of `recover_from_wal` over the bytes of the log, with the length of the part that was
good; the number of bytes bounds the rounds. -/
def walReplay : ℕ → Store → List UInt8 → ℕ → Store × ℕ
  | 0, s, _, good => (s, good)
  | n + 1, s, bytes, good =>
    match readFrame.run bytes with
    | none => (s, good)
    | some (e, rest) =>
      match s.walReplayRecord e with
      | none => (s, good)
      | some s' => walReplay n s' rest (good + (bytes.length - rest.length))

/-- The next file number and the number of files, from the directory. -/
def scanned (d : Disk) : Store where
  trie := Tst.Trie.empty
  memUsage := 0
  sstableCounter := d.files.keys.foldl (fun n id => max n (id + 1)) 0
  sstableLiveCount := d.files.keys.length
  sstMeta := ∅
  changeSeq := 0
  replicaReadOnly := false
  disk := d
  issued := []

/-- The loop of `kv_store_create_internal` over the files, oldest first. -/
def loadIndex (s : Store) : Store :=
  (List.range s.sstableCounter).foldl sstIndexLoadFile s

/-- `recover_from_wal`: what comes after the good part of the log is cut off. -/
def recoverFromWal (s : Store) : Store :=
  let r := walReplay s.disk.wal.length s s.disk.wal 0
  { r.1 with disk := { r.1.disk with wal := s.disk.wal.take r.2 } }

/-- `qihse_kv_store_create` on the files of a data directory. -/
def create (d : Disk) : Store := (scanned d).loadIndex.recoverFromWal

end Store

end Qihse.Kv
