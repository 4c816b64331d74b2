import Qihse.Consensus.Machine

/-!
# Operations of a node

The message handlers, the clock tick, the client and membership calls, and opening a node from its
record file.
-/

namespace Qihse.Consensus

open Crash Crash.Prog

/-! ### Votes -/

/-- The up-to-dateness comparison of a candidate's last entry with the local log. -/
def Node.upToDate (cs : Node) (lastLogIndex lastLogTerm : ℕ) : Bool :=
  cs.lastLogTerm < lastLogTerm || lastLogTerm = cs.lastLogTerm && cs.absLastIndex ≤ lastLogIndex

/-- Answer a request with a vote that is already durable. -/
def confirmVote (sender : Uuid) : M Unit := do
  modifyNode fun cs => { cs.resetTimer with role := .follower }
  send sender (.voteReply true)

/-- `qcs_handle_request_vote`. -/
def handleRequestVote (sender : Uuid) (lastLogIndex lastLogTerm : ℕ) : M Unit := do
  let cs ← getNode
  if cs.memberIndex sender = none ∨ cs.selfIndex = none then return ()
  else if cs.selfIsLearner then send sender (.voteReply false)
  else if cs.upToDate lastLogIndex lastLogTerm ∧ cs.votedFor = some sender then confirmVote sender
  else if cs.upToDate lastLogIndex lastLogTerm ∧ cs.votedFor = none then
    if ← persistVoteFor sender then confirmVote sender
    else send sender (.voteReply false)
  else send sender (.voteReply false)

/-- `qcs_handle_pre_vote`. -/
def handlePreVote (sender : Uuid) (term lastLogIndex lastLogTerm : ℕ) : M Unit := do
  let cs ← getNode
  if cs.memberIndex sender = none ∨ cs.selfIndex = none then return ()
  if cs.selfIsLearner then
    send sender (.preVoteReply false)
  else if cs.role = .leader ∨ (cs.leader.isSome ∧ cs.role = .follower ∧
      sub64 cs.nowMs cs.lastLeaderContactMs < cs.cfg.electionTimeoutBaseMs) then
    send sender (.preVoteReply false)
  else
    send sender (.preVoteReply (cs.upToDate lastLogIndex lastLogTerm && cs.term < term))

/-- Count the vote of the member at slot `i`. -/
def Node.countVote (cs : Node) (i : ℕ) : Node :=
  { cs with votesGrantedMask := cs.votesGrantedMask ||| 1 <<< i }

/-- `qcs_handle_pre_vote_reply`. -/
def handlePreVoteReply (sender : Uuid) (term : ℕ) (granted : Bool) : M Unit := do
  let cs ← getNode
  if cs.role ≠ .preCandidate ∨ term < cs.term ∨ !granted then return ()
  match cs.memberIndex sender with
  | none => return ()
  | some i =>
    modifyNode fun cs => cs.countVote i
    let cs ← getNode
    if cs.hasVoteMajority cs.votesGrantedMask then startElection

/-! ### Joint transitions -/

/-- `qcs_recompute_membership` where the caller ignores a refusal. -/
def recompute : M Unit :=
  modifyNode fun cs => cs.recomputeMembership.getD cs

/-- Set the leader's own match cursor to its last index. -/
def Node.matchSelf (cs : Node) : Node :=
  match cs.selfIndex with
  | some i => { cs with matchIndex := cs.matchIndex.set i cs.absLastIndex }
  | none => cs

def Node.push (cs : Node) (e : Entry) : Node := { cs with log := cs.log ++ [e] }

/-- `qcs_log_push`. -/
def logPush (e : Entry) : M Unit := modifyNode fun cs => cs.push e

/-- A configuration entry with everything but its position filled in. -/
def Entry.ofConfig (type : EntryType) (payload : List UInt8) : Entry :=
  ⟨0, 0, 0, ⟨0, 0⟩, 0, 0, type, payload⟩

/-- `qcs_joint_append_one`. -/
def jointAppendOne (e : Entry) (index : ℕ) : M Bool := do
  let cs ← getNode
  let e := { e with
    index := index
    term := cs.term
    journalGeneration := u64 (cs.lastGen + 1) }
  if cs.foldMembership (some e) = none then return false
  if ← recordAppend? e.persistAny then
    logPush e
    recompute
    return true
  else return false

/-- `qcs_joint_ensure_closed`. -/
def jointEnsureClosed : M Unit := do
  let cs ← getNode
  if cs.role ≠ .leader then return ()
  match cs.foldAtCommit with
  | none => return ()
  | some f =>
    if !f.active ∨ f.endIndex ≠ 0 then return ()
    if ← jointAppendOne (.ofConfig .jointEnd []) (cs.absLastIndex + 1) then
      modifyNode Node.matchSelf
      advanceCommit
    else return ()

/-- A candidate takes the lead: it trusts no cursor but its own. -/
def Node.lead (cs : Node) : Node :=
  { cs with
    role := .leader
    leader := some cs.cfg.self
    snapshotPeerReady := List.replicate maxMembers false
    nextIndex := List.replicate cs.members.length (cs.absLastIndex + 1)
    matchIndex := List.replicate cs.members.length 0
    lastHeartbeatMs := sub64 cs.nowMs cs.cfg.heartbeatIntervalMs }

/-- `qcs_handle_vote_reply`. -/
def handleVoteReply (sender : Uuid) (granted : Bool) : M Unit := do
  let cs ← getNode
  if cs.role ≠ .candidate ∨ !granted then return ()
  match cs.memberIndex sender with
  | none => return ()
  | some i =>
    modifyNode fun cs => cs.countVote i
    let cs ← getNode
    if cs.hasVoteMajority cs.votesGrantedMask then
      modifyNode fun cs => cs.lead.matchSelf
      jointEnsureClosed
      let cs ← getNode
      forEach cs.peers sendAppendTo
    else return ()

/-! ### Replication -/

/-- A follower hears from the leader of its term. -/
def Node.followLeader (cs : Node) (sender : Uuid) : Node :=
  { cs.resetTimer with role := .follower, leader := some sender }

/-- The preflight of `qcs_handle_append` over the batch, first entry after `prev`. -/
def Node.preflight (cs : Node) (prev : ℕ) (entries : List Entry) : Bool :=
  entries.zipIdx.all fun p =>
    prev + p.2 + 1 ≤ u64Max && p.1.index = prev + p.2 + 1 &&
      p.1.payload.length ≤ payloadMax && cs.validateData p.1

/-- How the loop of `qcs_handle_append` ended: all entries stored, with the `config_touched` flag,
or refused with a match hint. -/
inductive Stored
  | all (configTouched : Bool)
  | refused (hint : ℕ)

/-- The append half of one round of the loop of `qcs_handle_append`. -/
def storeNew (e : Entry) (idx : ℕ) (touched : Bool) : M Stored := do
  let cs ← getNode
  if e.index ≠ idx then return .refused (idx - 1)
  else if e.type ≠ .data ∧ cs.foldMembership (some e) = none then return .refused (idx - 1)
  else if ← recordAppend? e.persistAny then
    logPush e
    return .all (touched || e.type ≠ .data)
  else return .refused (idx - 1)

/-- `qcs_log_truncate`, for the suffix that starts at index `idx`. -/
def Node.truncateFrom (cs : Node) (idx : ℕ) : Node :=
  { cs with log := cs.log.take (idx - 1 - cs.snap.entries.length) }

/-- One round of the loop of `qcs_handle_append`, for the entry offered at index `idx`. -/
def storeOne (e : Entry) (idx : ℕ) (touched : Bool) : M Stored := do
  let cs ← getNode
  match cs.entryAt idx with
  | none => storeNew e idx touched
  | some l =>
    if l.term = e.term then
      if l.identical e then return .all touched else return .refused (idx - 1)
    else if idx ≤ cs.snap.entries.length then return .refused (idx - 1)
    else if ← recordAppend (.truncate idx) then
      modifyNode fun cs => cs.truncateFrom idx
      storeNew e idx true
    else return .refused (idx - 1)

/-- The loop of `qcs_handle_append` over the entries offered after index `prev`. -/
def storeAll : List Entry → ℕ → Bool → M Stored
  | [], _, touched => pure (.all touched)
  | e :: es, prev, touched => do
    match ← storeOne e (prev + 1) touched with
    | .refused hint => return .refused hint
    | .all touched => storeAll es (prev + 1) touched

def replyAppend (dest : Uuid) (success : Bool) (matchIndex : ℕ) : M Unit :=
  send dest (.appendReply success matchIndex)

/-- The commit step of `qcs_handle_append` and its acknowledgement. -/
def settleAppend (sender : Uuid) (leaderCommit verified : ℕ) : M Unit := do
  let cs ← getNode
  let newCommit := min leaderCommit cs.absLastIndex
  if newCommit ≤ cs.commit then replyAppend sender true verified
  else if cs.validateDataRange (cs.commit + 1) newCommit then
    if ← persistCommit newCommit then replyAppend sender true verified
    else replyAppend sender false cs.absLastIndex
  else replyAppend sender false cs.commit

/-- The part of `qcs_handle_append` after its checks. -/
def acceptAppend (sender : Uuid) (prev leaderCommit : ℕ) (entries : List Entry) : M Unit := do
  modifyNode fun cs => cs.followLeader sender
  match ← storeAll entries prev false with
  | .refused hint => replyAppend sender false hint
  | .all false => settleAppend sender leaderCommit (prev + entries.length)
  | .all true =>
    recompute
    settleAppend sender leaderCommit (prev + entries.length)

/-- `qcs_handle_append`. -/
def handleAppend (sender : Uuid) (prev prevTerm leaderCommit : ℕ) (entries : List Entry) :
    M Unit := do
  let cs ← getNode
  if cs.memberIndex sender = none then return ()
  else if maxEntriesPerMsg < entries.length then return ()
  else if prev = 0 ∧ prevTerm ≠ 0 then return ()
  else if cs.absLastIndex < prev then replyAppend sender false cs.absLastIndex
  else if 1 ≤ prev ∧ cs.termAt prev ≠ prevTerm then replyAppend sender false (prev - 1)
  else if !cs.preflight prev entries then replyAppend sender false cs.absLastIndex
  else if cs.commit < prev ∧ !cs.validateDataRange (cs.commit + 1) prev then
    replyAppend sender false cs.commit
  else acceptAppend sender prev leaderCommit entries

/-- The lame-duck half of `qcs_handle_append_reply`. -/
def duckReply (sender : Uuid) (success : Bool) (matchIndex : ℕ) (d : LameDuck) : LameDuck :=
  if d.id ≠ sender then d
  else
    let hinted := u64 (matchIndex + 1)
    if success then { d with next := max d.next hinted } else { d with next := min d.next hinted }

/-- The cursors of the member at slot `i` after it acknowledged `matchIndex`. -/
def Node.noteAck (cs : Node) (i matchIndex : ℕ) : Node :=
  let next := cs.nextIndex.getD i 0
  let matched := max (cs.matchIndex.getD i 0) matchIndex
  { cs with
    snapshotPeerReady :=
      if matchIndex = 0 ∧ snapshotMaxEntries < cs.snap.entries.length then
        cs.snapshotPeerReady.set i true
      else cs.snapshotPeerReady
    matchIndex := cs.matchIndex.set i matched
    nextIndex := cs.nextIndex.set i (if next ≤ matched then u64 (matched + 1) else next) }

/-- The send cursor of the member at slot `i` after it refused with a hint. -/
def Node.noteRefusal (cs : Node) (i matchIndex : ℕ) : Node :=
  let next := cs.nextIndex.getD i 0
  let hinted := u64 (matchIndex + 1)
  let next' := if hinted < next then hinted else if 1 < next then next - 1 else next
  { cs with nextIndex := cs.nextIndex.set i next' }

/-- `qcs_handle_append_reply`. -/
def handleAppendReply (sender : Uuid) (success : Bool) (matchIndex : ℕ) : M Unit := do
  let cs ← getNode
  if cs.role ≠ .leader then return ()
  match cs.memberIndex sender with
  | none =>
    modifyNode fun cs => { cs with ducks := cs.ducks.map (duckReply sender success matchIndex) }
  | some i =>
    if success then
      modifyNode fun cs => cs.noteAck i matchIndex
      advanceCommit
    else modifyNode fun cs => cs.noteRefusal i matchIndex

/-! ### Snapshots -/

/-- The scan of `qcs_handle_snapshot` over the entries: index, term and generation order. It returns
the last term and generation. -/
def scanSnapshot (term : ℕ) : List Entry → ℕ → ℕ → ℕ → Option (ℕ × ℕ)
  | [], _, prevTerm, prevGen => some (prevTerm, prevGen)
  | e :: es, i, prevTerm, prevGen =>
    if e.index ≠ i + 1 then none
    else if term < e.term ∨ e.term < prevTerm ∨ payloadMax < e.payload.length ∨
        !e.configEntryValid ∨ (0 < i ∧ e.journalGeneration ≤ prevGen) then none
    else scanSnapshot term es (i + 1) e.term e.journalGeneration

/-- Everything `qcs_handle_snapshot` checks about the message before it looks at its own log. -/
def Node.snapshotAcceptable (cs : Node) (term fencingEpoch : ℕ) (s : SnapshotBody) : Bool :=
  s.entries.length = s.lastIncludedIndex && s.lastIncludedIndex ≠ 0 &&
    s.entries.length ≤ snapshotMaxEntries &&
    scanSnapshot term s.entries 0 0 0 = some (s.lastIncludedTerm, s.journalGeneration) &&
    s.lastIncludedTerm ≤ s.fencingEpoch && s.fencingEpoch ≤ fencingEpoch &&
    snapshotEntriesDigest s.entries = s.digest &&
    s.entries.all cs.validateData &&
    ((s.entries.filter (·.type ≠ .data)).foldlM foldApply cs.cfg.members).elim false (1 ≤ ·.length)

def replySnapshot (dest : Uuid) (success : Bool) (matchIndex : ℕ) : M Unit :=
  send dest (.snapshotReply success matchIndex)

/-- The snapshot that a message carries. -/
def SnapshotBody.toSnapshot (s : SnapshotBody) : Snapshot :=
  ⟨s.entries, s.lastIncludedIndex, s.lastIncludedTerm, s.fencingEpoch, s.journalGeneration,
    s.digest⟩

/-- The node with an installed snapshot in the place of its whole log. -/
def Node.installed (cs : Node) (s : Snapshot) : Node :=
  { cs with snap := s, log := [], commit := max cs.commit s.lastIncludedIndex }

/-- Whether the local log starts with the entries of a snapshot. -/
def Node.hasPrefix (cs : Node) (entries : List Entry) : Bool :=
  entries.zipIdx.all fun p =>
    (cs.entryAt (p.2 + 1)).elim false fun l => l.index = p.1.index && l.identical p.1

/-- `qcs_handle_snapshot`. -/
def handleSnapshot (sender : Uuid) (term fencingEpoch : ℕ) (s : SnapshotBody) : M Unit := do
  let cs ← getNode
  if cs.memberIndex sender = none then return ()
  else if !cs.snapshotAcceptable term fencingEpoch s then replySnapshot sender false cs.absLastIndex
  else if s.lastIncludedIndex ≤ cs.commit ∨ s.lastIncludedIndex ≤ cs.snap.entries.length then
    if cs.hasPrefix s.entries then
      modifyNode fun cs => cs.followLeader sender
      replySnapshot sender true s.lastIncludedIndex
    else replySnapshot sender false cs.absLastIndex
  else
    modifyNode fun cs => cs.followLeader sender
    if ← persistSnapshot false s.toSnapshot then
      modifyNode fun cs => cs.installed s.toSnapshot
      recompute
      replySnapshot sender true s.lastIncludedIndex
    else replySnapshot sender false cs.absLastIndex

/-! ### Message dispatch -/

/-- What `qihse_consensus_receive` answers to traffic of an older term. -/
def rejectStale (m : Msg) : M Unit :=
  match m.body with
  | .requestVote _ _ => send m.sender (.voteReply false)
  | .append _ _ _ _ => replyAppend m.sender false 0
  | .preVote _ _ => send m.sender (.preVoteReply false)
  | _ => pure ()

def dispatch (m : Msg) : M Unit :=
  match m.body with
  | .requestVote lastLogIndex lastLogTerm => handleRequestVote m.sender lastLogIndex lastLogTerm
  | .voteReply granted => handleVoteReply m.sender granted
  | .preVote lastLogIndex lastLogTerm => handlePreVote m.sender m.term lastLogIndex lastLogTerm
  | .preVoteReply granted => handlePreVoteReply m.sender m.term granted
  | .append prev prevTerm leaderCommit entries =>
    handleAppend m.sender prev prevTerm leaderCommit entries
  | .appendReply success matchIndex => handleAppendReply m.sender success matchIndex
  | .snapshot s => handleSnapshot m.sender m.term m.fencingEpoch s
  | .snapshotReply success matchIndex => handleAppendReply m.sender success matchIndex
  | .snapshotChunk _ => pure ()

def MsgBody.isPreVote : MsgBody → Bool
  | .preVote _ _ => true
  | _ => false

/-- `qihse_consensus_receive`. -/
def receive (m : Msg) : M Unit := do
  let cs ← getNode
  if m.groupId ≠ cs.cfg.groupId then return ()
  else if cs.memberIndex m.sender = cs.selfIndex then return ()
  else if cs.memberIndex m.sender = none ∧ !cs.ducks.any (·.id = m.sender) then return ()
  else if m.dest ≠ cs.cfg.self then return ()
  else if m.fencingEpoch < cs.epoch then return ()
  else if m.term < cs.term then rejectStale m
  else if !m.body.isPreVote ∧ (cs.term < m.term ∨ cs.epoch < m.fencingEpoch) then
    if ← syncTermEpoch m.term m.fencingEpoch false then dispatch m else return ()
  else dispatch m

/-! ### Tick -/

/-- Note that a duck was offered a committed transition. -/
def Node.settleDuck (cs : Node) (d : LameDuck) : Node :=
  { cs with ducks := cs.ducks.map fun d' => if d' = d then { d' with committed := true } else d' }

/-- One round of the grace catch-up loop of `qihse_consensus_tick`. -/
def offerDuck (d : LameDuck) : M Unit := do
  let cs ← getNode
  let lci := cs.lastConfigIndex
  if lci ≠ 0 ∧ (sub64 d.next 1 < lci ∨ !d.committed) then
    sendAppendFrom d.id d.next
    if lci ≤ cs.commit then modifyNode fun cs => cs.settleDuck d else return ()
  else return ()

/-- The heartbeat of a leader, when it is due. -/
def heartbeat : M Unit := do
  let cs ← getNode
  if cs.cfg.heartbeatIntervalMs ≤ sub64 cs.nowMs cs.lastHeartbeatMs then
    modifyNode fun cs => { cs with lastHeartbeatMs := cs.nowMs }
    forEach cs.peers sendAppendTo
    forEach cs.ducks offerDuck
  else return ()

/-- `qihse_consensus_tick`. -/
def tick (now : ℕ) : M Unit := do
  modifyNode fun cs => { cs with nowMs := now }
  let cs ← getNode
  if cs.role = .leader then
    tryCompact
    heartbeat
  else if cs.selfIndex ≠ none ∧
      cs.electionTimeoutMs cs.term ≤ sub64 cs.nowMs cs.lastLeaderContactMs then
    if cs.cfg.enablePrevote then startPrevote else startElection
  else return ()

/-! ### Client paths -/

/-- The decisions of the authorization module about a principal. -/
structure User where
  isOperator : Bool
  canAccess : ℕ → ℕ → Bool

/-- `qihse_consensus_propose`. -/
def propose (user : User) (gen : ℕ) (hlc : Hlc) (classif sci : ℕ) (payload : List UInt8) :
    M Bool := do
  let cs ← getNode
  let e : Entry := ⟨cs.absLastIndex + 1, cs.term, gen, hlc, classif, sci, .data, payload⟩
  if cs.role ≠ .leader then return false
  else if payload.length = 0 ∨ payloadMax < payload.length then return false
  else if 0 < cs.absLastIndex ∧ gen ≤ cs.lastGen then return false
  else if !user.canAccess classif sci then return false
  else if !cs.validateData e then return false
  else if ← recordAppend? e.persistEntry then
    logPush e
    modifyNode Node.matchSelf
    advanceCommit
    return true
  else return false

inductive MembershipOp
  | add
  | remove
deriving DecidableEq

/-- The payload of a single-server configuration entry. -/
def membershipPayload (op : MembershipOp) (member : Uuid) (role : MemberRole) (weight : ℕ) :
    List UInt8 :=
  if op = .add ∧ (role ≠ .voter ∨ weight ≠ 1) then
    member.bytes ++ [UInt8.ofNat role.toByte, UInt8.ofNat (weight % 256),
      UInt8.ofNat (weight / 256), 0]
  else member.bytes

def MembershipOp.entryType : MembershipOp → EntryType
  | .add => .configAdd
  | .remove => .configRemove

/-- The checks of `qihse_consensus_propose_membership_role` before it looks at the fold. -/
def Node.membershipAcceptable (cs : Node) (user : User) (op : MembershipOp) (member : Uuid)
    (weight : ℕ) : Bool :=
  cs.role = .leader && user.isOperator && user.canAccess 0 0 && !member.isNil &&
    (op ≠ .add || weight ≠ 0 && weight ≤ maxWeight) &&
    cs.lastConfigIndex ≤ cs.commit && !cs.foldAtCommit.elim false (·.active) &&
    match op with
    | .add => (cs.memberIndex member).isNone && cs.members.length < maxMembers &&
        cs.members.length + 1 ≤ cs.cfg.electionTimeoutSpreadMs
    | .remove => (cs.memberIndex member).isSome && 1 < cs.members.length

/-- `qihse_consensus_propose_membership_role`. -/
def proposeMembershipRole (user : User) (op : MembershipOp) (member : Uuid) (role : MemberRole)
    (weight : ℕ) : M Bool := do
  let cs ← getNode
  let e : Entry := { Entry.ofConfig op.entryType (membershipPayload op member role weight) with
    index := cs.absLastIndex + 1
    term := cs.term
    journalGeneration := u64 (cs.lastGen + 1) }
  if !cs.membershipAcceptable user op member weight then return false
  else if cs.foldMembership (some e) = none then return false
  else if ← recordAppend? e.persistConfigEntry then
    logPush e
    recompute
    let cs ← getNode
    if cs.selfIndex ≠ none ∧ cs.role = .leader then
      modifyNode Node.matchSelf
      advanceCommit
      return true
    else return true
  else return false

/-- `qihse_consensus_propose_membership`. -/
def proposeMembership (user : User) (op : MembershipOp) (member : Uuid) : M Bool :=
  proposeMembershipRole user op member .voter 1

/-- The entries of a joint transition, in order. -/
def jointSequence (add remove : List Uuid) : List Entry :=
  Entry.ofConfig .jointBegin [] ::
    (add.map fun u => Entry.ofConfig .configAdd u.bytes) ++
    (remove.map fun u => Entry.ofConfig .configRemove u.bytes) ++
    [Entry.ofConfig .jointEnd []]

/-- The dry run of a joint sequence through the fold, from the entry at `index` on. -/
def simulateJoint (spread : ℕ) : List Entry → ℕ → Fold → Bool
  | [], _, _ => true
  | e :: es, index, f =>
    match f.step e index with
    | none => false
    | some f' =>
      (e.type ≠ .configAdd || f'.members.length ≤ maxMembers && f'.members.length ≤ spread) &&
        (e.type ≠ .configRemove || 1 ≤ f'.members.length) &&
        simulateJoint spread es (index + 1) f'

/-- The checks of `qihse_consensus_propose_joint` before anything is written. -/
def Node.jointAcceptable (cs : Node) (user : User) (add remove : List Uuid) : Bool :=
  cs.role = .leader && cs.lastConfigIndex ≤ cs.commit && user.isOperator && user.canAccess 0 0 &&
    add.length + remove.length ≠ 0 &&
    add.all (!·.isNil) && remove.all (fun u => !u.isNil && (cs.memberIndex u).isSome) &&
    (add ++ remove).Nodup && add.length ≤ maxMembers && remove.length ≤ maxMembers &&
    cs.members.length / 2 + 1 ≤ (cs.members.filter fun m => m.id ∉ remove).length &&
    match cs.foldAtCommit with
    | none => false
    | some f =>
      !f.active && simulateJoint cs.cfg.electionTimeoutSpreadMs (jointSequence add remove)
        (cs.absLastIndex + 1) f

/-- Append a planned joint sequence, the first entry at `index`. -/
def jointAppendAll : List Entry → ℕ → M Bool
  | [], _ => pure true
  | e :: es, index => do
    if ← jointAppendOne e index then jointAppendAll es (index + 1) else return false

/-- `qihse_consensus_propose_joint`. -/
def proposeJoint (user : User) (add remove : List Uuid) : M Bool := do
  let cs ← getNode
  if !cs.jointAcceptable user add remove then return false
  else if ← jointAppendAll (jointSequence add remove) (cs.absLastIndex + 1) then
    modifyNode Node.matchSelf
    advanceCommit
    return true
  else return false

end Qihse.Consensus
