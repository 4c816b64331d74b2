import Qihse.Consensus.Handlers

/-!
# Groups of nodes

Opening a node from its record file, and the runs of a group: any interleaving of opens, crashes,
ticks, proposals and deliveries of messages that were really sent. A message stays available for
ever once it was sent, so that it may be delivered late, out of order, several times or never.
-/

namespace Qihse.Consensus

open Crash Crash.Prog

/-! ### Open -/

/-- `qcs_group_id_valid`. -/
def groupIdValid (id : List Char) : Bool :=
  id ≠ [] && id.length ≤ groupIdMax &&
    id.all fun c => 'a' ≤ c && c ≤ 'z' || 'A' ≤ c && c ≤ 'Z' || '0' ≤ c && c ≤ '9' ||
      c = '.' || c = '_' || c = '-' || c = '/' || c = ':' || c = '+'

/-- `qihse_consensus_calculate_priority_delay`. -/
def calculatePriorityDelay (priorityTier baseMs spreadMs wanRttMs : ℕ) : ℕ :=
  min (u64 (priorityTier * (baseMs + spreadMs) + 2 * wanRttMs)) maxElectionPriorityDelayMs

namespace Config

variable (cfg : Config)

/-- The timing fields with the defaults of `qihse_consensus_open` filled in. -/
def withDefaults : Config :=
  let base := if cfg.electionTimeoutBaseMs = 0 then 150 else cfg.electionTimeoutBaseMs
  let spread := if cfg.electionTimeoutSpreadMs = 0 then 300 else cfg.electionTimeoutSpreadMs
  let heartbeat := if cfg.heartbeatIntervalMs = 0 then 50 else cfg.heartbeatIntervalMs
  { cfg with
    electionTimeoutBaseMs := base
    electionTimeoutSpreadMs := spread
    heartbeatIntervalMs := heartbeat
    electionPriorityDelayMs :=
      if (0 < cfg.priorityTier ∨ 0 < cfg.wanRttMs) ∧ cfg.electionPriorityDelayMs = 0 then
        calculatePriorityDelay cfg.priorityTier base spread cfg.wanRttMs
      else cfg.electionPriorityDelayMs }

/-- The slower heartbeat that `qihse_consensus_open` substitutes. -/
def clampHeartbeat : Config :=
  if cfg.electionTimeoutBaseMs / 2 < cfg.heartbeatIntervalMs then
    { cfg with heartbeatIntervalMs := max (cfg.electionTimeoutBaseMs / 3) 1 }
  else cfg

/-- The checks of `qihse_consensus_open` on the configuration it was given. -/
def identityValid : Bool :=
  (!cfg.requireDataValidator || cfg.validateData.isSome) &&
    groupIdValid cfg.groupId &&
    historyIdentityValid cfg.groupId cfg.historyId cfg.writerEpochFloor =
      decide (cfg.writerEpochFloor ≠ 0) &&
    (cfg.writerEpochFloor ≠ 0 || cfg.historyId.all (· == 0)) &&
    cfg.members ≠ [] && cfg.members.length ≤ maxMembers && !cfg.self.isNil

/-- The checks of `qihse_consensus_open` on the timing fields and the member list. -/
def timingValid : Bool :=
  cfg.members.length ≤ cfg.electionTimeoutSpreadMs &&
    cfg.heartbeatIntervalMs < cfg.electionTimeoutBaseMs &&
    cfg.electionPriorityDelayMs ≤ maxElectionPriorityDelayMs &&
    (cfg.members.map (·.id)).Nodup

/-- The configuration an opened node runs with, when the open is not refused outright. -/
def prepare (hasFile : Bool) : Option Config :=
  let c := cfg.withDefaults
  if cfg.identityValid && c.timingValid &&
      (c.members.any (·.id = c.self) || cfg.allowUnadmittedSelf && hasFile) then
    some c.clampHeartbeat
  else none

end Config

/-- The instance before its record file is read. -/
def Node.blank (cfg : Config) : Node where
  cfg := cfg
  recQuarantined := false
  role := .follower
  term := 0
  epoch := 0
  votedFor := none
  leader := none
  log := []
  snap := .empty
  members := cfg.members
  ducks := []
  commit := 0
  nowMs := 0
  lastLeaderContactMs := 0
  lastHeartbeatMs := 0
  votesGrantedMask := 0
  nextIndex := List.replicate cfg.members.length 0
  matchIndex := List.replicate cfg.members.length 0
  selfIndex := cfg.members.findIdx? (·.id = cfg.self)
  snapshotPeerReady := List.replicate maxMembers false
  selfHash := fnv1a (cfg.self.bytes.map UInt8.toNat)

/-- The instance with the replayed state in it. -/
def Node.loaded (cfg : Config) (st : Replay) : Node :=
  { Node.blank cfg with
    term := st.term
    epoch := st.epoch
    votedFor := st.votedFor
    commit := st.commit
    log := st.log
    snap := st.snap }

/-- The checks at the end of `qcs_load_records`. -/
def finishLoad (cs : Node) : Option Node :=
  match cs.recomputeMembership with
  | none => none
  | some cs => if cs.validateDataRange 1 cs.commit then some cs else none

/-- `qcs_discard_pending_snapshot_tail`. -/
def discardTail (keep : ℕ) : M Bool := fun p =>
  let cut := p.disk.take keep
  match p.io.headD .ok with
  | .ok => (some true, { p with disk := cut, io := p.io.tail })
  | .fail .whole => (some false, { p with disk := cut, io := p.io.tail, failed := true })
  | .fail _ => (some false, { p with io := p.io.tail, failed := true })
  | .crash .whole => (none, { p with disk := cut, io := p.io.tail })
  | .crash _ => (none, { p with io := p.io.tail })

/-- The replication cursors of a freshly opened node. -/
def resetCursors : M Unit := modifyNode fun cs => { cs with
  nextIndex := List.replicate cs.members.length (cs.absLastIndex + 1)
  matchIndex := List.replicate cs.members.length 0 }

/-- The checks that follow the replay, and the instance they let through. -/
def finishOpen (cfg : Config) (st : Replay) : M Bool :=
  if cfg.writerEpochFloor ≠ 0 ∧ !st.historyHave then pure false
  else
    match finishLoad (.loaded cfg st) with
    | none => pure false
    | some cs => do
      modifyNode fun _ => cs
      resetCursors
      return true

/-- Open from a file that was replayed: an open snapshot transaction is cut off first. -/
def openLoaded (cfg : Config) (st : Replay) : M Bool :=
  match st.pend with
  | none => finishOpen cfg st
  | some pend => do
    if ← discardTail pend.start then finishOpen cfg st else return false

/-- Open from a file that exists. -/
def openExisting (cfg : Config) : M Bool := fun p =>
  match Replay.start.steps cfg 0 p.disk with
  | none => (some false, p)
  | some st => openLoaded cfg st p

/-- The first lines of a new file. -/
def writeIdentity (cfg : Config) : M Bool := do
  if ← recordAppend (.header 1 cfg.groupId) then
    if ← recordAppend (.baseline (baselineDigest cfg.members)) then
      if cfg.writerEpochFloor ≠ 0 then
        if ← recordAppend (.history cfg.historyId cfg.writerEpochFloor) then
          modifyNode fun cs => { cs with epoch := cfg.writerEpochFloor }
          return true
        else return false
      else return true
    else return false
  else return false

/-- Open where no file exists: create it and write its first lines. -/
def openFresh (cfg : Config) : M Bool :=
  match finishLoad (Node.blank cfg) with
  | none => pure false
  | some cs => do
    modifyNode fun _ => cs
    if ← writeIdentity cfg then
      resetCursors
      return true
    else return false

/-! ### Runs -/

/-- A node of the group: its instance while it runs, and its record file once it exists. -/
structure Slot where
  node : Option Node
  disk : Option (List Line)

def Slot.empty : Slot := ⟨none, none⟩

/-- `qihse_consensus_open` on the record file of a node. -/
def openSlot (cfg : Config) (disk : Option (List Line)) (io : List Io) : Slot × Bool :=
  match cfg.prepare disk.isSome with
  | none => (⟨none, disk⟩, false)
  | some c =>
    let p : Proc := ⟨Node.blank c, disk.getD [], [], io, false⟩
    let (r, p') := if disk.isSome then openExisting c p else openFresh c p
    (⟨if r = some true then some p'.node else none, some p'.disk⟩, p'.failed)

/-- The state of a group. `sent` holds every message that was ever handed to the transport, and
`failed` whether some append to a record file reported an error. -/
structure Cluster where
  slots : Uuid → Slot
  sent : List Msg
  failed : Bool

/-- One event of a run. The mesh, which collects the chunks of a snapshot and installs them by
`qihse_consensus_install_snapshot_prefix`, is left out. -/
inductive Op
  | openNode (u : Uuid) (io : List Io)
  | crash (u : Uuid)
  | copyRecord (source u : Uuid)
  | tick (u : Uuid) (now : UInt64) (io : List Io)
  | deliver (u : Uuid) (k : ℕ) (io : List Io)
  | propose (u : Uuid) (user : User) (gen phys : UInt64) (logical : UInt32) (classif sci : UInt16)
      (payload : List UInt8) (io : List Io)
  | proposeMembership (u : Uuid) (user : User) (op : MembershipOp) (member : Uuid) (io : List Io)
  | proposeMembershipRole (u : Uuid) (user : User) (op : MembershipOp) (member : Uuid)
      (role : MemberRole) (weight : UInt16) (io : List Io)
  | proposeJoint (u : Uuid) (user : User) (add remove : List Uuid) (io : List Io)

namespace Cluster

def init : Cluster := ⟨fun _ => .empty, [], false⟩

variable (w : Cluster)

def node (u : Uuid) : Option Node := (w.slots u).node

def setSlot (u : Uuid) (s : Slot) : Cluster :=
  { w with slots := fun v => if v = u then s else w.slots v }

/-- Run an operation of node `u`, if it is up. A crash leaves only the file. -/
def runAt {α : Type} (u : Uuid) (io : List Io) (m : M α) : Cluster :=
  match (w.slots u).node with
  | none => w
  | some cs =>
    let (r, p) := m ⟨cs, (w.slots u).disk.getD [], [], io, false⟩
    { w.setSlot u ⟨if r.isSome then some p.node else none, some p.disk⟩ with
      sent := w.sent ++ p.out
      failed := w.failed || p.failed }

/-- One event, when node `u` is configured by `cfg u`. -/
def step (cfg : Uuid → Config) : Op → Cluster
  | .openNode u io =>
    match (w.slots u).node with
    | some _ => w
    | none =>
      let (s, failed) := openSlot (cfg u) (w.slots u).disk io
      { w.setSlot u s with failed := w.failed || failed }
  | .crash u => w.setSlot u ⟨none, (w.slots u).disk⟩
  | .copyRecord source u =>
    match (w.slots u).disk with
    | some _ => w
    | none => w.setSlot u ⟨none, (w.slots source).disk⟩
  | .tick u now io => w.runAt u io (Consensus.tick now.toNat)
  | .deliver u k io =>
    match w.sent[k]? with
    | none => w
    | some m => w.runAt u io (receive m)
  | .propose u user gen phys logical classif sci payload io =>
    w.runAt u io (Consensus.propose user gen.toNat ⟨phys.toNat, logical.toNat⟩ classif.toNat
      sci.toNat payload)
  | .proposeMembership u user op member io =>
    w.runAt u io (Consensus.proposeMembership user op member)
  | .proposeMembershipRole u user op member role weight io =>
    w.runAt u io (Consensus.proposeMembershipRole user op member role weight.toNat)
  | .proposeJoint u user add remove io =>
    w.runAt u io (Consensus.proposeJoint user add remove)

/-- The group after a sequence of events. -/
def run (cfg : Uuid → Config) (ops : List Op) : Cluster := ops.foldl (fun w op => w.step cfg op) w

end Cluster

end Qihse.Consensus
