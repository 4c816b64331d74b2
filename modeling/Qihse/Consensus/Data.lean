import Mathlib

/-!
# Data of the scoped consensus

The records of `qihse_consensus.h` and the instance record of `qihse_consensus.c`. A fixed-width
unsigned field is a natural number, and every sum or difference that the source computes in 64
bits goes through `u64` or `sub64`. Log positions and array lengths are plain natural numbers: they
count entries held in memory.

The observability counters and the acknowledgement clock behind `group_available` are written but
never read by the state machine, and are left out.
-/

namespace Qihse.Consensus

/-! ### Machine words and digests -/

/-- Reduction of a 64-bit unsigned result. -/
def u64 (n : ℕ) : ℕ := n % 2 ^ 64

/-- 64-bit unsigned subtraction of two 64-bit values. -/
def sub64 (a b : ℕ) : ℕ := (a + 2 ^ 64 - b) % 2 ^ 64

def u64Max : ℕ := 2 ^ 64 - 1

def fnvOffset : ℕ := 0xCBF2CE48D222D25B

def fnvPrime : ℕ := 0x100000001B3

/-- One FNV-1a round. -/
def fnvByte (h b : ℕ) : ℕ := u64 ((h ^^^ b) * fnvPrime)

/-- `qcs_fnv1a`. -/
def fnv1a (bytes : List ℕ) : ℕ := bytes.foldl fnvByte fnvOffset

/-- `qcs_splitmix64`. -/
def splitmix64 (z : ℕ) : ℕ :=
  let z := u64 ((z ^^^ (z >>> 30)) * 0xBF58476D1CE4E5B9)
  let z := u64 ((z ^^^ (z >>> 27)) * 0x94D049BB133111EB)
  z ^^^ (z >>> 31)

/-! ### Identifiers, members and entries -/

/-- `qihse_uuid_t`: sixteen bytes. -/
structure Uuid where
  bytes : List UInt8
  size : bytes.length = 16
deriving DecidableEq

/-- The sixteen leading bytes of a zero-filled buffer that starts with `bs`. -/
def Uuid.ofBytes (bs : List UInt8) : Uuid where
  bytes := (bs ++ List.replicate 16 0).take 16
  size := by simp

lemma Uuid.ofBytes_append (u : Uuid) (rest : List UInt8) : Uuid.ofBytes (u.bytes ++ rest) = u := by
  have hbytes : (u.bytes ++ rest ++ List.replicate 16 0).take 16 = u.bytes := by
    rw [List.append_assoc, List.take_left' u.size]
  cases u
  simpa only [ofBytes, mk.injEq] using hbytes

lemma Uuid.ofBytes_bytes (u : Uuid) : Uuid.ofBytes u.bytes = u := by
  simpa using u.ofBytes_append []

def Uuid.isNil (u : Uuid) : Bool := u.bytes.all (· == 0)

inductive MemberRole
  | voter
  | witness
  | learner
deriving DecidableEq

structure Member where
  id : Uuid
  role : MemberRole
  weight : ℕ
deriving DecidableEq

/-- `qcs_member_weight_at`: a learner counts nothing, an unset weight counts one. -/
def Member.voteWeight (m : Member) : ℕ :=
  if m.role = .learner then 0 else if m.weight = 0 then 1 else m.weight

structure Hlc where
  physicalMs : ℕ
  logical : ℕ
deriving DecidableEq

inductive EntryType
  | data
  | configAdd
  | configRemove
  | jointBegin
  | jointEnd
deriving DecidableEq

def EntryType.toNat : EntryType → ℕ
  | .data => 0
  | .configAdd => 1
  | .configRemove => 2
  | .jointBegin => 3
  | .jointEnd => 4

/-- `qihse_consensus_entry_t`; the payload list holds the first `payload_len` bytes. -/
structure Entry where
  index : ℕ
  term : ℕ
  journalGeneration : ℕ
  hlc : Hlc
  classif : ℕ
  sci : ℕ
  type : EntryType
  payload : List UInt8
deriving DecidableEq

def payloadMax : ℕ := 128
def maxMembers : ℕ := 32
def maxWeight : ℕ := 1000
def maxEntriesPerMsg : ℕ := 8
def snapshotMaxEntries : ℕ := 24
def snapshotStreamMaxEntries : ℕ := 65536
def snapshotChunkMaxEntries : ℕ := 8
def recordLineCap : ℕ := 640
def groupIdMax : ℕ := 63
def maxElectionPriorityDelayMs : ℕ := 60000

/-- `qcs_entry_identical`: every field but the index. -/
def Entry.identical (a b : Entry) : Bool :=
  a.type == b.type && a.term == b.term && a.journalGeneration == b.journalGeneration &&
    a.hlc == b.hlc && a.classif == b.classif && a.sci == b.sci && a.payload == b.payload

/-- `qcs_digest_fold_u64`: eight little-endian bytes. -/
def digestFoldU64 (h v : ℕ) : ℕ :=
  (List.range 8).foldl (fun h i => fnvByte h ((v >>> (8 * i)) % 256)) h

/-- `qcs_digest_entry`. -/
def Entry.digest (h : ℕ) (e : Entry) : ℕ :=
  let h := [e.index, e.term, e.journalGeneration, e.hlc.physicalMs, e.hlc.logical, e.classif,
    e.sci, e.type.toNat, e.payload.length].foldl digestFoldU64 h
  e.payload.foldl (fun h b => fnvByte h b.toNat) h

/-- `qihse_consensus_snapshot_entries_digest`. -/
def snapshotEntriesDigest (es : List Entry) : ℕ :=
  if es.any (fun e => payloadMax < e.payload.length) then 0
  else es.foldl Entry.digest fnvOffset

/-! ### Messages -/

/-- The `snapshot` variant of a message. -/
structure SnapshotBody where
  lastIncludedIndex : ℕ
  lastIncludedTerm : ℕ
  fencingEpoch : ℕ
  journalGeneration : ℕ
  digest : ℕ
  entries : List Entry
deriving DecidableEq

/-- `qihse_consensus_snapshot_chunk_t`. -/
structure SnapshotChunk where
  transferId : ℕ
  totalEntries : ℕ
  firstEntryIndex : ℕ
  lastIncludedTerm : ℕ
  snapshotFencingEpoch : ℕ
  journalGeneration : ℕ
  digest : ℕ
  chunkDigest : ℕ
  finalChunk : Bool
  entries : List Entry
deriving DecidableEq

/-- `qihse_consensus_snapshot_chunk_digest`. -/
def SnapshotChunk.computeDigest (c : SnapshotChunk) : ℕ :=
  if c.entries.length = 0 ∨ snapshotChunkMaxEntries < c.entries.length then 0
  else [c.transferId, c.totalEntries, c.firstEntryIndex, c.lastIncludedTerm,
    c.snapshotFencingEpoch, c.journalGeneration, c.digest, c.entries.length,
    if c.finalChunk then 1 else 0, snapshotEntriesDigest c.entries].foldl digestFoldU64 fnvOffset

inductive MsgBody
  | requestVote (lastLogIndex lastLogTerm : ℕ)
  | voteReply (granted : Bool)
  | append (prevLogIndex prevLogTerm leaderCommit : ℕ) (entries : List Entry)
  | appendReply (success : Bool) (matchIndex : ℕ)
  | snapshot (s : SnapshotBody)
  | snapshotReply (success : Bool) (matchIndex : ℕ)
  | snapshotChunk (c : SnapshotChunk)
  | preVote (lastLogIndex lastLogTerm : ℕ)
  | preVoteReply (granted : Bool)
deriving DecidableEq

/-- `qihse_consensus_msg_t`. -/
structure Msg where
  groupId : List Char
  sender : Uuid
  dest : Uuid
  term : ℕ
  fencingEpoch : ℕ
  body : MsgBody
deriving DecidableEq

/-! ### Configuration and instance -/

/-- `qihse_consensus_config_t`. The record path is the file of the node, see `Cluster`. -/
structure Config where
  groupId : List Char
  self : Uuid
  members : List Member
  allowUnadmittedSelf : Bool
  electionTimeoutBaseMs : ℕ
  electionTimeoutSpreadMs : ℕ
  heartbeatIntervalMs : ℕ
  electionPriorityDelayMs : ℕ
  priorityTier : ℕ
  wanRttMs : ℕ
  enablePrevote : Bool
  snapshotThreshold : ℕ
  historyId : List UInt8
  writerEpochFloor : ℕ
  requireDataValidator : Bool
  validateData : Option (Entry → Bool)
  snapshotChunksSupported : Option (Uuid → Bool)

inductive Role
  | follower
  | candidate
  | leader
  | preCandidate
deriving DecidableEq

/-- `qcs_snapshot_t`; `count` is the length of `entries`. -/
structure Snapshot where
  entries : List Entry
  lastIncludedIndex : ℕ
  lastIncludedTerm : ℕ
  epoch : ℕ
  journalGeneration : ℕ
  digest : ℕ

def Snapshot.empty : Snapshot := ⟨[], 0, 0, 0, 0, 0⟩

/-- A member dropped by a configuration change that is still offered the log. -/
structure LameDuck where
  id : Uuid
  next : ℕ
  committed : Bool
deriving DecidableEq

/-- `struct qihse_consensus`. `cfg.members` is the static baseline and `members` the effective
configuration; the arrays indexed by member are lists in the order of `members`. -/
structure Node where
  cfg : Config
  recQuarantined : Bool
  role : Role
  term : ℕ
  epoch : ℕ
  votedFor : Option Uuid
  leader : Option Uuid
  log : List Entry
  snap : Snapshot
  members : List Member
  ducks : List LameDuck
  commit : ℕ
  nowMs : ℕ
  lastLeaderContactMs : ℕ
  lastHeartbeatMs : ℕ
  votesGrantedMask : ℕ
  nextIndex : List ℕ
  matchIndex : List ℕ
  selfIndex : Option ℕ
  snapshotPeerReady : List Bool
  selfHash : ℕ

/-- `qcs_entry_at` on a compacted prefix and an active log. -/
def logEntryAt (snap log : List Entry) (index : ℕ) : Option Entry :=
  if index = 0 ∨ snap.length + log.length < index then none
  else if index ≤ snap.length then snap[index - 1]?
  else log[index - snap.length - 1]?

namespace Node

variable (cs : Node)

/-- All entries of the node in index order, the compacted prefix included. -/
def entries : List Entry := cs.snap.entries ++ cs.log

/-- `qcs_abs_last_index`. -/
def absLastIndex : ℕ := cs.snap.entries.length + cs.log.length

/-- `qcs_entry_at`. -/
def entryAt (index : ℕ) : Option Entry := logEntryAt cs.snap.entries cs.log index

/-- `qcs_term_at`. -/
def termAt (index : ℕ) : ℕ := (cs.entryAt index).elim 0 (·.term)

/-- `qcs_last_gen`. -/
def lastGen : ℕ :=
  match cs.log.getLast? with
  | some e => e.journalGeneration
  | none => cs.snap.entries.getLast?.elim 0 (·.journalGeneration)

/-- `qcs_last_log_term`. -/
def lastLogTerm : ℕ :=
  match cs.log.getLast? with
  | some e => e.term
  | none => if cs.snap.entries = [] then 0 else cs.snap.lastIncludedTerm

/-- `qcs_validate_data`. -/
def validateData (e : Entry) : Bool :=
  e.type != .data || cs.cfg.validateData.elim true (· e)

/-- `qcs_validate_data_range`. -/
def validateDataRange (first last : ℕ) : Bool :=
  if last < first then true
  else if cs.absLastIndex < last then false
  else if cs.cfg.validateData.isNone then true
  else (List.range' first (last + 1 - first)).all fun i => (cs.entryAt i).elim false cs.validateData

/-- `qcs_member_index`. -/
def memberIndex (id : Uuid) : Option ℕ := cs.members.findIdx? (·.id = id)

/-- `qcs_voting_weight`. -/
def votingWeight : ℕ := (cs.members.map Member.voteWeight).sum

/-- `qcs_majority_weight`. -/
def majorityWeight : ℕ := cs.votingWeight / 2 + 1

/-- `qcs_last_config_index`. -/
def lastConfigIndex : ℕ :=
  cs.absLastIndex - cs.entries.reverse.findIdx (fun e => e.type ≠ .data)

/-- `qcs_election_timeout_ms`. -/
def electionTimeoutMs (term : ℕ) : ℕ :=
  let spread := cs.cfg.electionTimeoutSpreadMs
  let n := if cs.members.length = 0 then 1 else cs.members.length
  let bucket := u64 (cs.selfIndex.getD 0 * spread) / n
  let jitterRange := if spread / n = 0 then 1 else spread / n
  let jitter := splitmix64 (cs.selfHash ^^^ u64 (term * 0x9E3779B97F4A7C15)) % jitterRange
  u64 (cs.cfg.electionTimeoutBaseMs + bucket + jitter + cs.cfg.electionPriorityDelayMs)

/-- Whether the node's own slot in the effective configuration is a learner's. -/
def selfIsLearner : Bool :=
  cs.selfIndex.elim false fun i => cs.members[i]?.elim false fun m => m.role = .learner

end Node

end Qihse.Consensus
