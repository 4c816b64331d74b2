import Qihse.Consensus.Records
import Qihse.Crash.Program

/-!
# Running a node

An operation of the source runs in `M`: it reads and writes the instance, appends lines to the
record file, and hands messages to the transport. Each append consumes one outcome of the
environment. A failed append may have left nothing, a cut line or the whole line behind, and a crash
ends the operation (`none`) with any of the three on disk. Memory exhaustion is not modelled.
-/

namespace Qihse.Consensus

open Crash Crash.Prog

/-- What an append that did not report success left in the file. -/
inductive Landing
  | nothing
  | torn
  | whole
deriving DecidableEq

/-- The outcome of one append to the record file. -/
inductive Io
  | ok
  | fail (l : Landing)
  | crash (l : Landing)
deriving DecidableEq

/-- A node with its file while an operation runs; `out` collects the messages it sends and `failed`
records that some append reported an error. -/
structure Proc where
  node : Node
  disk : List Line
  out : List Msg
  io : List Io
  failed : Bool

/-- The operations of a node. -/
abbrev M := Prog Proc

def getNode : M Node := fun p => (some p.node, p)

def modifyNode (f : Node → Node) : M Unit := fun p => (some (), { p with node := f p.node })

/-- Hand a message to the transport. -/
def emit (m : Msg) : M Unit := fun p => (some (), { p with out := p.out ++ [m] })

/-- The file after an append that left `l` behind. -/
def landed (disk : List Line) (r : Record) : Landing → List Line
  | .nothing => disk
  | .torn => disk ++ [Line.torn]
  | .whole =>
    if fileSize disk + r.lineLength ≤ fileSizeMax then disk ++ [Line.record r] else disk

lemma landed_cases (d : List Line) (r : Record) (l : Landing) :
    landed d r l = d ∨ l ≠ .nothing ∧ (landed d r l = d ++ [Line.torn] ∨
      landed d r l = d ++ [Line.record r]) := by
  cases l with
  | nothing => exact .inl rfl
  | torn => exact .inr ⟨nofun, .inl rfl⟩
  | whole =>
    rw [landed]
    split_ifs
    · exact .inr ⟨nofun, .inr rfl⟩
    · exact .inl rfl

/-- `qcs_record_append`, with the line-length check its callers make. -/
def recordAppend (r : Record) : M Bool := fun p =>
  if recordLineCap ≤ r.body.length ∨ p.node.recQuarantined then (some false, p)
  else
    match p.io.headD .ok with
    | .ok =>
      if fileSize p.disk + r.lineLength ≤ fileSizeMax then
        (some true, { p with disk := p.disk ++ [Line.record r], io := p.io.tail })
      else (some false, { p with io := p.io.tail, failed := true })
    | .fail l => (some false, { p with disk := landed p.disk r l, io := p.io.tail, failed := true })
    | .crash l => (none, { p with disk := landed p.disk r l, io := p.io.tail })

lemma fail_mem_io {io : List Io} {l : Landing} (h : io.headD .ok = .fail l) : Io.fail l ∈ io := by
  cases io with
  | nil => simp at h
  | cons =>
    rw [List.headD_cons] at h
    simp [h]

/-- What an append can do: refuse, write the line, find the file full, fail or crash. -/
lemma sat_recordAppend_cases {p : Proc} {r : Record} {Q : Bool → Proc → Prop} {C : Proc → Prop}
    (hrefuse : recordLineCap ≤ r.body.length ∨ p.node.recQuarantined → Q false p)
    (hok : r.body.length < recordLineCap → p.node.recQuarantined = false → p.io.headD .ok = .ok →
      fileSize p.disk + r.lineLength ≤ fileSizeMax →
      Q true { p with disk := p.disk ++ [Line.record r], io := p.io.tail })
    (hfull : p.io.headD .ok = .ok → fileSizeMax < fileSize p.disk + r.lineLength →
      Q false { p with io := p.io.tail, failed := true })
    (hfail : ∀ l, p.io.headD .ok = .fail l → r.body.length < recordLineCap →
      p.node.recQuarantined = false →
      Q false { p with disk := landed p.disk r l, io := p.io.tail, failed := true })
    (hcrash : ∀ l, p.node.recQuarantined = false →
      C { p with disk := landed p.disk r l, io := p.io.tail }) : Sat (recordAppend r) p Q C := by
  unfold Sat recordAppend
  by_cases hcap : recordLineCap ≤ r.body.length ∨ p.node.recQuarantined
  · rw [if_pos hcap]
    exact hrefuse hcap
  · rw [if_neg hcap]
    simp only [not_or, not_le, Bool.not_eq_true] at hcap
    cases hio : p.io.headD .ok with
    | ok =>
      by_cases hfit : fileSize p.disk + r.lineLength ≤ fileSizeMax
      · simp only [if_pos hfit]
        exact hok hcap.1 hcap.2 hio hfit
      · simp only [if_neg hfit]
        exact hfull hio (not_le.mp hfit)
    | fail l => exact hfail l hio hcap.1 hcap.2
    | crash l => exact hcrash l hcap.2

/-- Append a record that some writers refuse to print. -/
def recordAppend? : Option Record → M Bool
  | none => pure false
  | some r => recordAppend r

/-! ### Sending -/

/-- `qcs_send` for every message but a pre-vote, which keeps the prospective term it was built
with. -/
def send (dest : Uuid) (body : MsgBody) : M Unit := do
  let cs ← getNode
  emit ⟨cs.cfg.groupId, cs.cfg.self, dest, cs.term, cs.epoch, body⟩

def sendPreVote (dest : Uuid) (term : ℕ) (body : MsgBody) : M Unit := do
  let cs ← getNode
  emit ⟨cs.cfg.groupId, cs.cfg.self, dest, term, cs.epoch, body⟩

/-- The other members, with their slots. -/
def Node.peers (cs : Node) : List (Member × ℕ) :=
  cs.members.zipIdx.filter fun p => some p.2 ≠ cs.selfIndex

def Node.snapshotTransferId (cs : Node) : ℕ :=
  let id := cs.snap.digest ^^^ u64 (cs.snap.lastIncludedIndex * 0x9E3779B97F4A7C15) ^^^
    cs.snap.epoch
  if id = 0 then 1 else id

/-- The chunk of the compacted prefix that starts at `firstIndex`. -/
def Node.snapshotChunk (cs : Node) (firstIndex : ℕ) : SnapshotChunk :=
  let entries := (cs.snap.entries.drop (firstIndex - 1)).take snapshotChunkMaxEntries
  let c : SnapshotChunk := {
    transferId := cs.snapshotTransferId
    totalEntries := cs.snap.entries.length
    firstEntryIndex := firstIndex
    lastIncludedTerm := cs.snap.lastIncludedTerm
    snapshotFencingEpoch := cs.snap.epoch
    journalGeneration := cs.snap.journalGeneration
    digest := cs.snap.digest
    chunkDigest := 0
    finalChunk := firstIndex + entries.length - 1 = cs.snap.entries.length
    entries := entries }
  { c with chunkDigest := c.computeDigest }

/-- `qcs_send_snapshot_to`. -/
def sendSnapshotTo (dest : Uuid) (firstIndex : ℕ) : M Unit := do
  let cs ← getNode
  if snapshotMaxEntries < cs.snap.entries.length then
    if !cs.cfg.snapshotChunksSupported.elim false (· dest) then
      send dest (.append 0 0 0 [])
    else if firstIndex = 0 ∨ cs.snap.entries.length < firstIndex then pure ()
    else if (cs.memberIndex dest).elim false fun i => !cs.snapshotPeerReady.getD i false then
      send dest (.append 0 0 cs.commit [])
    else send dest (.snapshotChunk (cs.snapshotChunk firstIndex))
  else
    send dest (.snapshot ⟨cs.snap.lastIncludedIndex, cs.snap.lastIncludedTerm, cs.snap.epoch,
      cs.snap.journalGeneration, cs.snap.digest, cs.snap.entries⟩)

/-- `qcs_send_append_from`. -/
def sendAppendFrom (dest : Uuid) (next : ℕ) : M Unit := do
  let cs ← getNode
  let next := max next 1
  if 0 < cs.snap.entries.length ∧ next - 1 < cs.snap.entries.length then sendSnapshotTo dest next
  else
    send dest (.append (next - 1) (cs.termAt (next - 1)) cs.commit
      ((cs.entries.drop (next - 1)).take maxEntriesPerMsg))

/-- `qcs_send_append_to`. -/
def sendAppendTo (peer : Member × ℕ) : M Unit := do
  let cs ← getNode
  sendAppendFrom peer.1.id (cs.nextIndex.getD peer.2 0)

/-! ### Terms and elections -/

namespace Node

variable (cs : Node)

def setTermEpoch (term epoch : ℕ) (votedFor : Option Uuid) : Node :=
  { cs with term := term, epoch := epoch, votedFor := votedFor }

def setVote (votedFor : Option Uuid) : Node := { cs with votedFor := votedFor }

def stepDown : Node := { cs with role := .follower, leader := none, votesGrantedMask := 0 }

/-- Restart the election timer. -/
def resetTimer : Node := { cs with lastLeaderContactMs := cs.nowMs }

/-- Enter a candidacy, real or tentative, with the node's own vote at slot `self`. -/
def runFor (role : Role) (self : ℕ) : Node :=
  { cs with
    role := role
    leader := none
    votesGrantedMask := 1 <<< self
    lastLeaderContactMs := cs.nowMs }

end Node

/-- `qcs_sync_term_epoch`: adopt a newer term or a higher epoch, durably. -/
def syncTermEpoch (term epoch : ℕ) (resetVote : Bool) : M Bool := do
  let old ← getNode
  if term < old.term then return true
  let newTerm := max term old.term
  let newEpoch := max (max old.epoch epoch) newTerm
  if newTerm = old.term ∧ newEpoch = old.epoch then return true
  let votedFor := if resetVote ∨ old.term < newTerm then none else old.votedFor
  modifyNode fun cs => cs.setTermEpoch newTerm newEpoch votedFor
  if ← recordAppend (.vote newTerm votedFor newEpoch) then
    if old.term < newTerm then modifyNode Node.stepDown
    return true
  else
    modifyNode fun cs => cs.setTermEpoch old.term old.epoch old.votedFor
    return false

/-- Cast a vote and make it durable; the vote is withdrawn when the append fails. -/
def persistVoteFor (candidate : Uuid) : M Bool := do
  let old ← getNode
  modifyNode fun cs => cs.setVote (some candidate)
  if ← recordAppend (.vote old.term (some candidate) old.epoch) then return true
  else
    modifyNode fun cs => cs.setVote old.votedFor
    return false

/-- Become a candidate and ask the other members for their votes. -/
def requestVotes (self : ℕ) : M Unit := do
  modifyNode fun cs => cs.runFor .candidate self
  let cs ← getNode
  forEach cs.peers fun p => send p.1.id (.requestVote cs.absLastIndex cs.lastLogTerm)

/-- `qcs_start_election`. -/
def startElection : M Unit := do
  let cs ← getNode
  match cs.selfIndex with
  | none => return ()
  | some self =>
    if cs.selfIsLearner then return ()
    let newTerm := u64 (cs.term + 1)
    let newEpoch := max (u64 (cs.epoch + 1)) newTerm
    if ← syncTermEpoch newTerm newEpoch true then
      let cs ← getNode
      if cs.votedFor = some cs.cfg.self then requestVotes self
      else if ← persistVoteFor cs.cfg.self then requestVotes self
      else modifyNode Node.resetTimer
    else modifyNode Node.resetTimer

/-- `qcs_start_prevote`. -/
def startPrevote : M Unit := do
  let cs ← getNode
  match cs.selfIndex with
  | none => return ()
  | some self =>
    if cs.selfIsLearner then return ()
    modifyNode fun cs => cs.runFor .preCandidate self
    if cs.members.length = 1 then startElection
    else forEach cs.peers fun p =>
      sendPreVote p.1.id (u64 (cs.term + 1)) (.preVote cs.absLastIndex cs.lastLogTerm)

/-- `qcs_has_vote_majority`. -/
def Node.hasVoteMajority (cs : Node) (mask : ℕ) : Bool :=
  cs.majorityWeight ≤ cs.markedWeight mask.testBit &&
    match cs.foldAtCommit with
    | some jf =>
      !jf.active ||
        0 < (jf.old.map Member.voteWeight).sum &&
          Node.oldMajority jf.old ≤ cs.markedOldWeight jf.old mask.testBit
    | none => true

/-! ### Commitment and compaction -/

/-- Which members vouch for index `n`: the leader itself always does. -/
def Node.acked (cs : Node) (n i : ℕ) : Bool :=
  some i = cs.selfIndex || n ≤ cs.matchIndex.getD i 0

/-- Whether the quorum basis of `qcs_advance_commit` vouches for index `n`. -/
def Node.ackQuorum (cs : Node) (n : ℕ) : Bool :=
  cs.majorityWeight ≤ cs.markedWeight (cs.acked n) &&
    match cs.foldAtCommit with
    | some jf =>
      !jf.active || Node.oldMajority jf.old ≤ cs.markedOldWeight jf.old (cs.acked n)
    | none => true

/-- The index that the loop of `qcs_advance_commit` stops at. -/
def Node.commitTarget (cs : Node) : Option ℕ :=
  (List.range' (cs.commit + 1) (cs.absLastIndex - cs.commit)).reverse.find? fun n =>
    cs.termAt n = cs.term && cs.ackQuorum n

def Node.setCommit (cs : Node) (commit : ℕ) : Node := { cs with commit := commit }

/-- Set the commit index, durably. -/
def persistCommit (commit : ℕ) : M Bool := do
  let old ← getNode
  modifyNode fun cs => cs.setCommit commit
  if ← recordAppend (.commit commit) then return true
  else
    modifyNode fun cs => cs.setCommit old.commit
    return false

/-- `qcs_advance_commit`. -/
def advanceCommit : M Unit := do
  let cs ← getNode
  if cs.role ≠ .leader then return ()
  match cs.commitTarget with
  | none => return ()
  | some n =>
    if cs.validateDataRange (cs.commit + 1) n then
      let _ ← persistCommit n
      return ()
    else return ()

/-- The entry lines of a snapshot transaction. -/
def persistSnapshotEntries : List Entry → M Bool
  | [] => pure true
  | e :: es => do
    if ← recordAppend? e.persistSnapshotEntry then persistSnapshotEntries es
    else return false

/-- The line that opens a snapshot transaction. -/
def Snapshot.beginRecord (version2 : Bool) (s : Snapshot) : Record :=
  .snapshot version2 s.lastIncludedIndex s.lastIncludedTerm s.epoch s.journalGeneration s.digest
    s.entries.length

/-- The lines of a snapshot transaction. -/
def persistSnapshotLines (version2 : Bool) (s : Snapshot) : M Bool := do
  if ← recordAppend (s.beginRecord version2) then
    if ← persistSnapshotEntries s.entries then
      recordAppend (.truncate (s.lastIncludedIndex + 1))
    else return false
  else return false

def Node.quarantine (cs : Node) : Node := { cs with recQuarantined := true }

/-- The whole snapshot transaction; the file is quarantined when it is cut short. -/
def persistSnapshot (version2 : Bool) (s : Snapshot) : M Bool := do
  if ← persistSnapshotLines version2 s then return true
  else
    modifyNode Node.quarantine
    return false

/-- The snapshot that `qcs_try_compact` builds, when it is due. -/
def Node.compaction (cs : Node) : Option Snapshot :=
  let base := cs.snap.entries.length
  if cs.cfg.snapshotThreshold = 0 then none
  else if cs.role ≠ .leader then none
  else if cs.commit ≤ base then none
  else if cs.absLastIndex - base ≤ cs.cfg.snapshotThreshold then none
  else if snapshotStreamMaxEntries < cs.commit ∧ snapshotStreamMaxEntries ≤ base then none
  else
    let target := min cs.commit snapshotStreamMaxEntries
    let entries := cs.entries.take target
    some ⟨entries, target, entries.getLast?.elim 0 (·.term), cs.epoch,
      entries.getLast?.elim 0 (·.journalGeneration), snapshotEntriesDigest entries⟩

/-- The node with its committed prefix moved into the snapshot. -/
def Node.compacted (cs : Node) (s : Snapshot) : Node :=
  { cs with
    snap := s
    log := cs.log.drop (s.entries.length - cs.snap.entries.length) }

/-- `qcs_try_compact`. -/
def tryCompact : M Unit := do
  let cs ← getNode
  match cs.compaction with
  | none => return ()
  | some s =>
    if ← persistSnapshot (snapshotMaxEntries < s.entries.length) s then
      modifyNode fun cs => cs.compacted s
    else return ()

end Qihse.Consensus
