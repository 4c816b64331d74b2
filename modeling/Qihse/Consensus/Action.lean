import Qihse.Consensus.Cluster
import Qihse.Consensus.Log

/-!
# What an operation of a node can do

Every operation of a node is a sequence of actions: a durable change together with the record lines
that announce it, a message handed to the transport, or a change of volatile state only. `Act` lists
them with everything the code has checked when it takes them, so that a property of runs needs one
argument for each action and none for each code path.
-/

namespace Qihse.Consensus

open Line

/-- The part of a running node that actions are about. -/
structure Conf where
  node : Node
  disk : List Line
  out : List Msg

def Proc.conf (p : Proc) : Conf := ⟨p.node, p.disk, p.out⟩

@[simp]
lemma Proc.conf_node (p : Proc) : p.conf.node = p.node := rfl

/-- What an operation was called with, as far as its actions depend on it. -/
inductive Input
  | idle
  | msg (m : Msg)
  | entry (gen : ℕ) (hlc : Hlc) (classif sci : ℕ) (payload : List UInt8)
  | single (op : MembershipOp) (member : Uuid) (role : MemberRole) (weight : ℕ)
  | joint (add remove : List Uuid)

/-! ### Volatile changes -/

/-- The durable and configuration part of the node is unchanged; it may lose a role, and gains no
vote and no acknowledgement. -/
structure Quiet (n n' : Node) : Prop where
  cfg : n'.cfg = n.cfg
  recQuarantined : n'.recQuarantined = n.recQuarantined
  term : n'.term = n.term
  epoch : n'.epoch = n.epoch
  votedFor : n'.votedFor = n.votedFor
  log : n'.log = n.log
  snap : n'.snap = n.snap
  members : n'.members = n.members
  commit : n'.commit = n.commit
  selfIndex : n'.selfIndex = n.selfIndex
  role : n'.role = n.role ∨ n'.role = .follower ∨ n'.role = .preCandidate
  mask : n'.role = .candidate → n'.votesGrantedMask = n.votesGrantedMask
  matched : n'.role = .leader → ∀ i, n'.matchIndex.getD i 0 = n.matchIndex.getD i 0 ∨
    some i = n.selfIndex ∧ n'.matchIndex.getD i 0 ≤ n.absLastIndex

/-! ### Agreement with an offered batch -/

/-- The log holds the entries `es` after index `prev`, whose own entry has term `prevTerm`. -/
structure Node.Holds (n : Node) (prev prevTerm : ℕ) (es : List Entry) : Prop where
  le : prev ≤ n.absLastIndex
  zero : prev = 0 → prevTerm = 0
  term : 1 ≤ prev → n.termAt prev = prevTerm
  stored : ∀ j e, es[j]? = some e → e.index = prev + j + 1 ∧
    ∃ l, n.entryAt (prev + j + 1) = some l ∧ l.identical e

/-- The checks of `qihse_consensus_receive` after which a message is not handled. -/
def Node.Drops (n : Node) (m : Msg) : Prop :=
  m.groupId ≠ n.cfg.groupId ∨ n.memberIndex m.sender = n.selfIndex ∨
    (n.memberIndex m.sender = none ∧ !n.ducks.any (·.id = m.sender)) ∨ m.dest ≠ n.cfg.self ∨
    m.fencingEpoch < n.epoch ∨ m.term < n.term

instance (n : Node) (m : Msg) : Decidable (n.Drops m) := inferInstanceAs (Decidable (_ ∨ _))

/-- An append whose commit index covers nothing beyond what the append itself lets the receiver
verify: it is dropped, or the receiver has committed what is past the batch or holds nothing there,
or the batch contradicts the receiver's log. -/
def Node.CommitVerified (n : Node) (m : Msg) : Prop :=
  match m.body with
  | .append prev _ leaderCommit entries =>
    n.Drops m ∨ min leaderCommit n.absLastIndex ≤ max n.commit (prev + entries.length) ∨
      ∃ j e l, entries[j]? = some e ∧ n.entryAt (prev + j + 1) = some l ∧ l.term ≠ e.term
  | _ => True

/-- A snapshot that costs the node nothing: it has committed as much already, or it holds nothing
past the boundary, or it disagrees with the snapshot there. -/
def Node.TailFree (n : Node) (m : Msg) : Prop :=
  match m.body with
  | .snapshot s => s.lastIncludedIndex ≤ n.commit ∨ n.absLastIndex ≤ s.lastIncludedIndex ∨
      n.termAt s.lastIncludedIndex ≠ s.lastIncludedTerm
  | _ => True

/-! ### Messages -/

/-- The messages a node may send in state `n` while it handles the message `inp`. -/
def MaySend (inp : Input) (n : Node) (m : Msg) : Prop :=
  m.groupId = n.cfg.groupId ∧ m.sender = n.cfg.self ∧ m.fencingEpoch = n.epoch ∧
    match m.body with
    | .preVote _ _ => True
    | .preVoteReply _ => m.term = n.term
    | .requestVote lastIndex lastTerm => m.term = n.term ∧
        n.role = .candidate ∧ lastIndex = n.absLastIndex ∧ lastTerm = n.lastLogTerm
    | .voteReply granted => m.term = n.term ∧ (granted → n.votedFor = some m.dest)
    | .append prev prevTerm leaderCommit entries => m.term = n.term ∧ n.role = .leader ∧
        (prev = 0 ∧ prevTerm = 0 ∧ entries = [] ∧ (leaderCommit = 0 ∨ leaderCommit = n.commit) ∨
          prevTerm = n.termAt prev ∧ leaderCommit = n.commit ∧
            entries = (n.entries.drop prev).take maxEntriesPerMsg)
    | .appendReply success k => m.term = n.term ∧ (success → ∃ a prev prevTerm leaderCommit es,
        inp = .msg a ∧ a.body = .append prev prevTerm leaderCommit es ∧ a.sender = m.dest ∧
          a.dest = n.cfg.self ∧ a.term = n.term ∧ k = prev + es.length ∧ n.Holds prev prevTerm es)
    | .snapshot s => m.term = n.term ∧ n.role = .leader ∧
        s = ⟨n.snap.lastIncludedIndex, n.snap.lastIncludedTerm, n.snap.epoch,
          n.snap.journalGeneration, n.snap.digest, n.snap.entries⟩
    | .snapshotReply success k => m.term = n.term ∧ (success → ∃ a s,
        inp = .msg a ∧ a.body = .snapshot s ∧ a.sender = m.dest ∧ a.dest = n.cfg.self ∧
          a.term = n.term ∧ k = s.lastIncludedIndex ∧ s.entries.length = s.lastIncludedIndex ∧
          ∀ j e, s.entries[j]? = some e →
            e.index = j + 1 ∧ ∃ l, n.entryAt (j + 1) = some l ∧ l.identical e)
    | .snapshotChunk _ => m.term = n.term

/-! ### Appends of a leader -/

/-- While a joint phase is open, the effective members are the folded ones. -/
def Node.JointFolded (n : Node) : Prop :=
  ∀ f, n.foldAtCommit = some f → f.active → n.foldMembership none = some n.members

/-- The entry of a joint sequence stamped for its position. -/
def Node.stamp (n : Node) (e : Entry) : Entry :=
  { e with
    index := n.absLastIndex + 1
    term := n.term
    journalGeneration := u64 (n.lastGen + 1) }

/-- The log of a leader takes in a new entry, with the members it implies. -/
def Node.pushed (n : Node) (e : Entry) : Node :=
  if e.type = .data then n.push e else (n.push e).recomputed

/-- What a leader checks before it appends `e`; `n0` is the node at the start of the operation. -/
inductive AppendOk (n0 : Node) (inp : Input) (n : Node) (e : Entry) : Prop
  | data (hrole : n.role = .leader) (htype : e.type = .data)
      (hinp : inp = .entry e.journalGeneration e.hlc e.classif e.sci e.payload)
      (hindex : e.index = n.absLastIndex + 1) (hterm : e.term = n.term)
      (hlen : 0 < e.payload.length ∧ e.payload.length ≤ payloadMax)
      (hgen : 0 < n.absLastIndex → n.lastGen < e.journalGeneration)
  | single (op : MembershipOp) (member : Uuid) (role : MemberRole) (weight : ℕ)
      (hinp : inp = .single op member role weight) (hrole : n.role = .leader)
      (hnil : !member.isNil)
      (hweight : op = .add → 0 < weight ∧ weight ≤ maxWeight)
      (hcommit : n.lastConfigIndex ≤ n.commit)
      (hactive : n.foldAtCommit.elim false (·.active) = false)
      (hpresent : op = .remove ↔ (n.memberIndex member).isSome)
      (he : e = n.stamp (.ofConfig op.entryType (membershipPayload op member role weight)))
      (hfold : n.foldMembership (some e) ≠ none)
  | joint (user : User) (add remove : List Uuid) (j : ℕ) (d : Entry)
      (hinp : inp = .joint add remove) (hacc : n0.jointAcceptable user add remove)
      (hterm : n.term = n0.term)
      (hlast : n.absLastIndex = n0.absLastIndex + j)
      (hcommit : n.commit = n0.commit)
      (hd : (jointSequence add remove)[j]? = some d) (he : e = n.stamp d)
      (hpre : n.entries.take n0.absLastIndex = n0.entries)
      (hdone : ∀ i x, i < j → n.entries[n0.absLastIndex + i]? = some x →
        ∃ d', (jointSequence add remove)[i]? = some d' ∧ x.type = d'.type ∧ x.payload = d'.payload)
      (hfold : n.foldMembership (some e) ≠ none)
  | close (f : Fold) (hrole : n.role = .leader) (hf : n.foldAtCommit = some f) (hactive : f.active)
      (hend : f.endIndex = 0) (he : e = n.stamp (.ofConfig .jointEnd []))
      (hfold : n.foldMembership (some e) ≠ none)

/-! ### Snapshot transactions -/

/-- The lines of a complete snapshot transaction, when every entry has a form the writer prints. -/
def snapshotRecords (version2 : Bool) (s : Snapshot) : Option (List Record) :=
  (s.entries.mapM Entry.persistSnapshotEntry).map fun es =>
    s.beginRecord version2 :: es ++ [Record.truncate (s.lastIncludedIndex + 1)]

/-- The lines that a snapshot transaction which was cut short left behind. -/
def PartialSnapshot (version2 : Bool) (s : Snapshot) (rs : List Record) : Prop :=
  rs = [] ∨ ∃ k es, (s.entries.take k).mapM Entry.persistSnapshotEntry = some es ∧
    rs = s.beginRecord version2 :: es

/-- The snapshot that a node may install from the message `m`. -/
structure InstallOk (n : Node) (m : Msg) (s : SnapshotBody) : Prop where
  body : m.body = .snapshot s
  dest : m.dest = n.cfg.self
  sender : m.sender ≠ n.cfg.self
  term : m.term = n.term
  acceptable : n.snapshotAcceptable m.term m.fencingEpoch s
  epoch : m.fencingEpoch ≤ n.epoch
  commit : n.commit < s.lastIncludedIndex
  boundary : n.snap.entries.length < s.lastIncludedIndex

/-! ### Actions -/

/-- A message that a node of term `n.term` accepts as addressed to it in this term. -/
structure Addressed (inp : Input) (n : Node) (m : Msg) : Prop where
  input : inp = .msg m
  dest : m.dest = n.cfg.self
  term : m.term = n.term
  epoch : m.fencingEpoch ≤ n.epoch
  sender : m.sender ≠ n.cfg.self

/-- The operation handles a message of term `t`, and not a tentative one. -/
def Heard (inp : Input) (t : ℕ) : Prop :=
  ∃ m, inp = .msg m ∧ m.body.isPreVote = false ∧ m.term = t

/-- An entry that the operation is about to store. -/
def Offered (n0 : Node) (inp : Input) (n : Node) (e : Entry) : Prop :=
  AppendOk n0 inp n e ∨ ∃ m prev prevTerm leaderCommit es, Addressed inp n m ∧
    m.body = .append prev prevTerm leaderCommit es ∧ e ∈ es

/-- The records that a failed append may have left behind. -/
inductive Attempt (n0 : Node) (inp : Input) (n : Node) : Record → Prop
  | adopt (t e : ℕ) (ht : n.term < t) (he : max n.epoch t ≤ e)
      (hsrc : Heard inp t ∨ t = n.term + 1) :
      Attempt n0 inp n (.vote t none e)
  | floor (e : ℕ) (he : n.epoch < e) : Attempt n0 inp n (.vote n.term n.votedFor e)
  | ballot (c : Uuid) (hv : n.votedFor = none ∨ 2 ^ 64 ≤ n.term + 1) :
      Attempt n0 inp n (.vote n.term (some c) n.epoch)
  | stored (e : Entry) (r : Record) (he : Offered n0 inp n e) (hr : e.persistAny = some r) :
      Attempt n0 inp n r
  | truncate (k : ℕ) : Attempt n0 inp n (.truncate k)
  | commit (k : ℕ) : Attempt n0 inp n (.commit k)

/-- A vote for the sender of a request, granted by a follower. -/
def Node.granted (n : Node) (candidate : Uuid) : Node :=
  { (n.setVote (some candidate)).resetTimer with role := .follower }

/-- One action of a node. `n0` is the node at the start of the operation, `inp` what the operation
was called with, and `F` tells whether appends to the record file may fail. -/
inductive Act (F : Prop) (n0 : Node) (inp : Input) : Conf → Conf → Prop
  | quiet (c : Conf) (n' : Node) (h : Quiet c.node n') : Act F n0 inp c ⟨n', c.disk, c.out⟩
  | send (c : Conf) (m : Msg) (h : MaySend inp c.node m) :
      Act F n0 inp c ⟨c.node, c.disk, c.out ++ [m]⟩
  | adopt (c : Conf) (t e : ℕ) (ht : c.node.term < t) (he : max c.node.epoch t ≤ e)
      (hsrc : Heard inp t ∨ t = c.node.term + 1) :
      Act F n0 inp c ⟨(c.node.setTermEpoch t e none).stepDown,
        c.disk ++ [record (.vote t none e)], c.out⟩
  | floor (c : Conf) (e : ℕ) (he : c.node.epoch < e) (ht : c.node.term ≤ e) :
      Act F n0 inp c ⟨c.node.setTermEpoch c.node.term e c.node.votedFor,
        c.disk ++ [record (.vote c.node.term c.node.votedFor e)], c.out⟩
  | campaign (c : Conf) (i e : ℕ) (hsame : n0.Intact c.node) (hself : c.node.selfIndex = some i)
      (hlearn : c.node.selfIsLearner = false) (ht : c.node.term + 1 < 2 ^ 64)
      (he : max c.node.epoch (c.node.term + 1) ≤ e) :
      Act F n0 inp c ⟨(c.node.setTermEpoch (c.node.term + 1) e (some c.node.cfg.self)).runFor
          .candidate i,
        c.disk ++ [record (.vote (c.node.term + 1) none e),
          .record (.vote (c.node.term + 1) (some c.node.cfg.self) e)], c.out⟩
  /-- The term counter is exhausted: nothing is said about what follows. -/
  | wrap (c c' : Conf) (ht : 2 ^ 64 ≤ c.node.term + 1) : Act F n0 inp c c'
  | grant (c : Conf) (m : Msg) (lastIndex lastTerm : ℕ) (hm : Addressed inp c.node m)
      (hbody : m.body = .requestVote lastIndex lastTerm) (hvote : c.node.votedFor = none)
      (hup : c.node.upToDate lastIndex lastTerm) (hself : c.node.selfIndex ≠ none)
      (hlearn : c.node.selfIsLearner = false) (hmem : c.node.memberIndex m.sender ≠ none) :
      Act F n0 inp c ⟨c.node.granted m.sender,
        c.disk ++ [record (.vote c.node.term (some m.sender) c.node.epoch)], c.out⟩
  | tally (c : Conf) (m : Msg) (i : ℕ) (hm : Addressed inp c.node m)
      (hbody : m.body = .voteReply true) (hrole : c.node.role = .candidate)
      (hi : c.node.memberIndex m.sender = some i) :
      Act F n0 inp c ⟨c.node.countVote i, c.disk, c.out⟩
  | win (c : Conf) (hrole : c.node.role = .candidate)
      (hwin : c.node.hasVoteMajority c.node.votesGrantedMask) :
      Act F n0 inp c ⟨c.node.lead.matchSelf, c.disk, c.out⟩
  | matched (c : Conf) (m : Msg) (i k : ℕ) (hm : Addressed inp c.node m)
      (hbody : m.body = .appendReply true k ∨ m.body = .snapshotReply true k)
      (hrole : c.node.role = .leader) (hi : c.node.memberIndex m.sender = some i) :
      Act F n0 inp c ⟨c.node.noteAck i k, c.disk, c.out⟩
  | commit (c : Conf) (k : ℕ) (hrole : c.node.role = .leader) (hlt : c.node.commit < k)
      (hle : k ≤ c.node.absLastIndex) (hterm : c.node.termAt k = c.node.term)
      (hq : c.node.ackQuorum k) :
      Act F n0 inp c ⟨c.node.setCommit k, c.disk ++ [record (.commit k)], c.out⟩
  | append (c : Conf) (e : Entry) (r : Record) (hok : AppendOk n0 inp c.node e)
      (hr : e.persistAny = some r) :
      Act F n0 inp c ⟨c.node.pushed e, c.disk ++ [record r], c.out⟩
  | refold (c : Conf) (ms : List Member) (hrole : c.node.role ≠ .candidate)
      (hms : c.node.foldMembership none = some ms) (hne : ms ≠ c.node.members) :
      Act F n0 inp c ⟨c.node.setMembership ms, c.disk, c.out⟩
  | truncate (c : Conf) (m : Msg) (prev prevTerm leaderCommit : ℕ) (es : List Entry) (j : ℕ)
      (e l : Entry) (hm : Addressed inp c.node m)
      (hbody : m.body = .append prev prevTerm leaderCommit es) (hrole : c.node.role = .follower)
      (hj : es[j]? = some e) (hholds : c.node.Holds prev prevTerm (es.take j))
      (hl : c.node.entryAt (prev + j + 1) = some l) (hne : l.term ≠ e.term)
      (hsnap : c.node.snap.entries.length < prev + j + 1) :
      Act F n0 inp c ⟨c.node.truncateFrom (prev + j + 1),
        c.disk ++ [record (.truncate (prev + j + 1))], c.out⟩
  | push (c : Conf) (m : Msg) (prev prevTerm leaderCommit : ℕ) (es : List Entry) (j : ℕ)
      (e : Entry) (r : Record) (hm : Addressed inp c.node m)
      (hbody : m.body = .append prev prevTerm leaderCommit es) (hrole : c.node.role = .follower)
      (hj : es[j]? = some e) (hholds : c.node.Holds prev prevTerm (es.take j))
      (hlast : c.node.absLastIndex = prev + j) (hindex : e.index = prev + j + 1)
      (hlen : e.payload.length ≤ payloadMax)
      (hfold : e.type ≠ .data → c.node.foldMembership (some e) ≠ none)
      (hr : e.persistAny = some r) :
      Act F n0 inp c ⟨c.node.push e, c.disk ++ [record r], c.out⟩
  | follow (c : Conf) (m : Msg) (prev prevTerm leaderCommit : ℕ) (es : List Entry)
      (hm : Addressed inp c.node m) (hbody : m.body = .append prev prevTerm leaderCommit es)
      (hrole : c.node.role = .follower) (hholds : c.node.Holds prev prevTerm es)
      (hlt : c.node.commit < min leaderCommit c.node.absLastIndex)
      (hver : n0.CommitVerified m → min leaderCommit c.node.absLastIndex ≤ prev + es.length) :
      Act F n0 inp c ⟨c.node.setCommit (min leaderCommit c.node.absLastIndex),
        c.disk ++ [record (.commit (min leaderCommit c.node.absLastIndex))], c.out⟩
  | compact (c : Conf) (s : Snapshot) (rs : List Record) (hs : c.node.compaction = some s)
      (hrs : snapshotRecords (snapshotMaxEntries < s.entries.length) s = some rs) :
      Act F n0 inp c ⟨c.node.compacted s, c.disk ++ rs.map .record, c.out⟩
  | install (c : Conf) (m : Msg) (s : SnapshotBody) (rs : List Record) (hinp : inp = .msg m)
      (hok : InstallOk c.node m s) (hrole : c.node.role = .follower)
      (hsame : c.node.entries = n0.entries) (hcommit : c.node.commit = n0.commit)
      (hrs : snapshotRecords false s.toSnapshot = some rs) :
      Act F n0 inp c ⟨c.node.installed s.toSnapshot, c.disk ++ rs.map .record, c.out⟩
  /-- A snapshot transaction was cut short; nothing is written to the file after it. -/
  | quarantine (c : Conf) (version2 : Bool) (s : Snapshot) (rs : List Record) (torn : List Line)
      (hs : c.node.compaction = some s ∧ version2 = decide (snapshotMaxEntries < s.entries.length) ∨
        version2 = false ∧ ∃ m b, inp = .msg m ∧ InstallOk c.node m b ∧ s = b.toSnapshot)
      (hrs : PartialSnapshot version2 s rs ∨ F ∧ snapshotRecords version2 s = some rs)
      (htorn : torn = [] ∨ F ∧ torn = [.torn]) :
      Act F n0 inp c ⟨c.node.quarantine, c.disk ++ rs.map .record ++ torn, c.out⟩
  /-- An append failed; its line, or a part of it, may be in the file all the same. -/
  | lost (c : Conf) (d : Line) (hF : F)
      (hd : d = .torn ∨ ∃ r, d = .record r ∧ Attempt n0 inp c.node r) :
      Act F n0 inp c ⟨c.node, c.disk ++ [d], c.out⟩

/-- An action that keeps the file within the largest offset and leaves a quarantined file alone. -/
structure Move (F : Prop) (n0 : Node) (inp : Input) (c c' : Conf) : Prop where
  act : Act F n0 inp c c'
  fits : fileSize c.disk ≤ fileSizeMax → fileSize c'.disk ≤ fileSizeMax
  writable : c'.disk = c.disk ∨ c.node.recQuarantined = false ∨ 2 ^ 64 ≤ c.node.term + 1

def Acts (F : Prop) (n0 : Node) (inp : Input) : Conf → Conf → Prop :=
  Relation.ReflTransGen (Move F n0 inp)

/-- A crash in the middle of an operation: the file may end in a cut line. -/
def Crashed (F : Prop) (n0 : Node) (inp : Input) (c : Conf) (disk : List Line)
    (out : List Msg) : Prop :=
  ∃ c', Acts F n0 inp c c' ∧ c'.out = out ∧ (disk = c'.disk ∨ disk = c'.disk ++ [torn])

end Qihse.Consensus
