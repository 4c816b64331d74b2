import Qihse.Bytes.Codec
import Qihse.Consensus.Cluster

/-!
# The wire format of the consensus messages

The codec of `qihse_consensus_wire.c`: a fixed header, the history binding of the bound format, the
group name and the body of the message, all words big-endian. `prevalidate` is run on both ends.

The writer of the source stops at the first field that exceeds the buffer. Here the encoding is
built first and then compared with the capacity, which refuses the same messages. The principal is
the record of the two decisions that the authorization module makes about it.
-/

namespace Qihse.Consensus

open Bytes List Bool MsgBody SnapshotChunk

/-- The decisions of the authorization module about a transport principal. -/
structure Principal where
  isActive : Bool
  canAccess : ℕ → ℕ → Bool

/-- A history identity and its writer epoch, as a QCS2 frame carries them. -/
structure Binding where
  historyId : List UInt8
  size : historyId.length = 32
  writerEpoch : UInt64

/-- `history_valid`. -/
def Binding.valid (b : Binding) : Bool := b.writerEpoch ≠ 0 && b.historyId.any (· ≠ 0)

def wireMax : ℕ := 8192

def wireHeaderSize : ℕ := 4 + 2 + 1 + 1 + 16 + 16 + 8 + 8

def wireBoundSize : ℕ := 32 + 8

/-! ### Validation -/

/-- `entry_valid`; the entry types are those of `EntryType`. -/
def Entry.wireValid (user : Principal) (e : Entry) : Bool :=
  e.payload.length ≤ payloadMax && user.canAccess e.classif e.sci

/-- The loop of `prevalidate` over the entries of a chunk, from the entry with number `i` on. -/
def SnapshotChunk.ordered (user : Principal) (c : SnapshotChunk) : List Entry → ℕ → ℕ → ℕ → Bool
  | [], _, _, _ => true
  | e :: es, i, previousTerm, previousGeneration =>
    e.wireValid user && e.index = c.firstEntryIndex + i && e.term ≤ c.lastIncludedTerm &&
      e.journalGeneration ≤ c.journalGeneration &&
      (i = 0 || previousTerm ≤ e.term && previousGeneration < e.journalGeneration) &&
      c.ordered user es (i + 1) e.term e.journalGeneration

/-- What `prevalidate` checks of a chunk in a message of the given term and epoch. -/
def SnapshotChunk.wireValid (user : Principal) (term fencingEpoch : ℕ) (c : SnapshotChunk) : Bool :=
  let last := c.firstEntryIndex + c.entries.length - 1
  c.transferId ≠ 0 && c.totalEntries ≠ 0 && c.firstEntryIndex ≠ 0 &&
    c.firstEntryIndex ≤ c.totalEntries && c.entries.length ≠ 0 &&
    c.entries.length ≤ snapshotChunkMaxEntries &&
    c.lastIncludedTerm ≤ c.snapshotFencingEpoch && c.snapshotFencingEpoch ≤ fencingEpoch &&
    c.lastIncludedTerm ≤ term && c.firstEntryIndex ≤ u64Max - c.entries.length + 1 &&
    last ≤ c.totalEntries && c.finalChunk = decide (last = c.totalEntries) &&
    c.ordered user c.entries 0 0 0 &&
    (!c.finalChunk || c.entries.getLast?.elim false fun e =>
      e.term = c.lastIncludedTerm && e.journalGeneration = c.journalGeneration) &&
    c.computeDigest = c.chunkDigest

/-- The part of `prevalidate` that depends on the type of the message. -/
def Msg.bodyValid (user : Principal) (m : Msg) : Bool :=
  match m.body with
  | .append _ _ _ entries =>
    entries.length ≤ maxEntriesPerMsg && entries.all (·.wireValid user)
  | .snapshot s =>
    s.entries.length ≤ snapshotMaxEntries && s.entries.all (·.wireValid user)
  | .snapshotChunk c => c.wireValid user m.term m.fencingEpoch
  | _ => true

/-- `prevalidate`. -/
def prevalidate (user : Principal) (m : Msg) : Bool :=
  user.isActive && groupIdValid m.groupId && !m.sender.isNil && !m.dest.isNil &&
    m.term ≤ m.fencingEpoch && m.bodyValid user

/-! ### Encoding -/

def EntryType.ofCode : ℕ → Option EntryType
  | 0 => some .data
  | 1 => some .configAdd
  | 2 => some .configRemove
  | 3 => some .jointBegin
  | 4 => some .jointEnd
  | _ => none

@[simp]
lemma EntryType.ofCode_toNat (t : EntryType) : EntryType.ofCode t.toNat = some t := by
  cases t <;> rfl

/-- `encode_entry`. -/
def Entry.encode (e : Entry) : List UInt8 :=
  be 8 e.index ++ be 8 e.term ++ be 8 e.journalGeneration ++ be 8 e.hlc.physicalMs ++
    be 4 e.hlc.logical ++ be 2 e.classif ++ be 2 e.sci ++ be 1 e.type.toNat ++
    be 2 e.payload.length ++ e.payload

def encodeFlag (b : Bool) : List UInt8 := [if b then 1 else 0]

/-- The value of `qihse_consensus_msg_type_t`. -/
def MsgBody.code : MsgBody → ℕ
  | .requestVote _ _ => 1
  | .voteReply _ => 2
  | .append _ _ _ _ => 3
  | .appendReply _ _ => 4
  | .snapshot _ => 5
  | .snapshotReply _ _ => 6
  | .snapshotChunk _ => 7
  | .preVote _ _ => 8
  | .preVoteReply _ => 9

/-- The switch of `wire_encode`. -/
def MsgBody.encode : MsgBody → List UInt8
  | .requestVote lastLogIndex lastLogTerm | .preVote lastLogIndex lastLogTerm =>
    be 8 lastLogIndex ++ be 8 lastLogTerm
  | .voteReply granted | .preVoteReply granted => encodeFlag granted
  | .append prevLogIndex prevLogTerm leaderCommit entries =>
    be 8 prevLogIndex ++ be 8 prevLogTerm ++ be 8 leaderCommit ++ be 1 entries.length ++
      entries.flatMap Entry.encode
  | .appendReply success matchIndex | .snapshotReply success matchIndex =>
    encodeFlag success ++ be 8 matchIndex
  | .snapshot s =>
    be 8 s.lastIncludedIndex ++ be 8 s.lastIncludedTerm ++ be 8 s.fencingEpoch ++
      be 8 s.journalGeneration ++ be 8 s.digest ++ be 1 s.entries.length ++
      s.entries.flatMap Entry.encode
  | .snapshotChunk c =>
    be 8 c.transferId ++ be 8 c.totalEntries ++ be 8 c.firstEntryIndex ++
      be 8 c.lastIncludedTerm ++ be 8 c.snapshotFencingEpoch ++ be 8 c.journalGeneration ++
      be 8 c.digest ++ be 8 c.chunkDigest ++ be 1 c.entries.length ++ encodeFlag c.finalChunk ++
      c.entries.flatMap Entry.encode

/-- The magic of a frame: `QCS1`, or `QCS2` where it is bound to a history. -/
def wireMagic (bound : Bool) : List UInt8 := [0x51, 0x43, 0x53, if bound then 0x32 else 0x31]

def wireVersion (bound : Bool) : ℕ := if bound then 2 else 1

def Binding.encode (b : Binding) : List UInt8 := b.historyId ++ be 8 b.writerEpoch.toNat

def groupBytes (group : List Char) : List UInt8 := group.map fun c => UInt8.ofNat c.toNat

/-- The bytes that `wire_encode` writes for a message that passed its checks. -/
def Msg.encode (binding : Option Binding) (m : Msg) : List UInt8 :=
  wireMagic binding.isSome ++ be 2 (wireVersion binding.isSome) ++ be 1 m.body.code ++
    be 1 m.groupId.length ++ m.sender.bytes ++ m.dest.bytes ++ be 8 m.term ++
    be 8 m.fencingEpoch ++ binding.elim [] Binding.encode ++ groupBytes m.groupId ++ m.body.encode

/-- `wire_encode` into a buffer of `cap` bytes. -/
def wireEncode (user : Principal) (binding : Option Binding) (cap : ℕ) (m : Msg) :
    Option (List UInt8) :=
  if prevalidate user m && binding.all Binding.valid && (m.encode binding).length ≤ cap then
    some (m.encode binding)
  else none

/-! ### Decoding -/

def decodeFlag : Reader Bool := do
  let v ← bigWord 1
  check (v ≤ 1)
  return v ≠ 0

/-- `decode_entry`. A type code that is none of the five is refused here instead of by the
validation that follows. -/
def Entry.decode : Reader Entry := do
  let index ← bigWord 8
  let term ← bigWord 8
  let journalGeneration ← bigWord 8
  let physicalMs ← bigWord 8
  let logical ← bigWord 4
  let classif ← bigWord 2
  let sci ← bigWord 2
  let code ← bigWord 1
  let length ← bigWord 2
  check (length ≤ payloadMax)
  let payload ← take length
  let type ← (EntryType.ofCode code : Option EntryType)
  return ⟨index, term, journalGeneration, ⟨physicalMs, logical⟩, classif, sci, type, payload⟩

/-- An entry count within its limit, and the entries. -/
def decodeEntries (limit : ℕ) : Reader (List Entry) := do
  let count ← bigWord 1
  check (count ≤ limit)
  many Entry.decode count

def SnapshotBody.decode : Reader SnapshotBody := do
  let lastIncludedIndex ← bigWord 8
  let lastIncludedTerm ← bigWord 8
  let fencingEpoch ← bigWord 8
  let journalGeneration ← bigWord 8
  let digest ← bigWord 8
  let entries ← decodeEntries snapshotMaxEntries
  return ⟨lastIncludedIndex, lastIncludedTerm, fencingEpoch, journalGeneration, digest, entries⟩

def SnapshotChunk.decode : Reader SnapshotChunk := do
  let transferId ← bigWord 8
  let totalEntries ← bigWord 8
  let firstEntryIndex ← bigWord 8
  let lastIncludedTerm ← bigWord 8
  let snapshotFencingEpoch ← bigWord 8
  let journalGeneration ← bigWord 8
  let digest ← bigWord 8
  let chunkDigest ← bigWord 8
  let count ← bigWord 1
  let finalChunk ← decodeFlag
  check (count ≤ snapshotChunkMaxEntries)
  let entries ← many Entry.decode count
  return ⟨transferId, totalEntries, firstEntryIndex, lastIncludedTerm, snapshotFencingEpoch,
    journalGeneration, digest, chunkDigest, finalChunk, entries⟩

/-- Two words, for the vote requests. -/
def decodeVote (body : ℕ → ℕ → MsgBody) : Reader MsgBody := do
  let lastLogIndex ← bigWord 8
  let lastLogTerm ← bigWord 8
  return body lastLogIndex lastLogTerm

/-- A flag and a word, for the replies to appends and snapshots. -/
def decodeReply (body : Bool → ℕ → MsgBody) : Reader MsgBody := do
  let success ← decodeFlag
  let matchIndex ← bigWord 8
  return body success matchIndex

def decodeAppend : Reader MsgBody := do
  let prevLogIndex ← bigWord 8
  let prevLogTerm ← bigWord 8
  let leaderCommit ← bigWord 8
  let entries ← decodeEntries maxEntriesPerMsg
  return .append prevLogIndex prevLogTerm leaderCommit entries

/-- The switch of `wire_decode`. -/
def MsgBody.decode : ℕ → Reader MsgBody
  | 1 => decodeVote .requestVote
  | 2 => .voteReply <$> decodeFlag
  | 3 => decodeAppend
  | 4 => decodeReply .appendReply
  | 5 => .snapshot <$> SnapshotBody.decode
  | 6 => decodeReply .snapshotReply
  | 7 => .snapshotChunk <$> SnapshotChunk.decode
  | 8 => decodeVote .preVote
  | 9 => .preVoteReply <$> decodeFlag
  | _ => failure

/-- The name that the bytes of the group field stand for: a string ends at its first NUL. -/
def groupOf (bs : List UInt8) : List Char := (bs.takeWhile (· ≠ 0)).map fun b => Char.ofNat b.toNat

/-- The history binding of a frame has to be the reader's own. -/
def Binding.expect (b : Binding) : Reader Unit := do
  let historyId ← take 32
  let writerEpoch ← bigWord 8
  check (historyId = b.historyId && writerEpoch = b.writerEpoch.toNat)

def expectBinding : Option Binding → Reader Unit
  | none => pure ()
  | some b => b.expect

/-- The reading half of `wire_decode`. -/
def Msg.decode (binding : Option Binding) : Reader Msg := do
  let magic ← take 4
  let version ← bigWord 2
  let code ← bigWord 1
  let groupLength ← bigWord 1
  let sender ← take 16
  let dest ← take 16
  let term ← bigWord 8
  let fencingEpoch ← bigWord 8
  check (magic = wireMagic binding.isSome && version = wireVersion binding.isSome &&
    groupLength ≠ 0 && groupLength ≤ groupIdMax)
  expectBinding binding
  let group ← take groupLength
  let body ← MsgBody.decode code
  return ⟨groupOf group, Uuid.ofBytes sender, Uuid.ofBytes dest, term, fencingEpoch, body⟩

/-- `wire_decode`. -/
def wireDecode (user : Principal) (binding : Option Binding) (wire : List UInt8) : Option Msg :=
  if wire.length < wireHeaderSize + (if binding.isSome then wireBoundSize else 0) ∨
      wireMax < wire.length ∨ !binding.all Binding.valid then none
  else
    match (Msg.decode binding).run wire with
    | some (m, []) => if prevalidate user m then some m else none
    | _ => none

/-! ### Round trip -/

/-- The fields of an entry fit the widths of their types. -/
structure Entry.Sized (e : Entry) : Prop where
  index : e.index < 2 ^ 64
  term : e.term < 2 ^ 64
  journalGeneration : e.journalGeneration < 2 ^ 64
  physicalMs : e.hlc.physicalMs < 2 ^ 64
  logical : e.hlc.logical < 2 ^ 32
  classif : e.classif < 2 ^ 16
  sci : e.sci < 2 ^ 16

/-- The fields of a chunk fit the widths of their types. -/
structure SnapshotChunk.Sized (c : SnapshotChunk) : Prop where
  transferId : c.transferId < 2 ^ 64
  totalEntries : c.totalEntries < 2 ^ 64
  firstEntryIndex : c.firstEntryIndex < 2 ^ 64
  lastIncludedTerm : c.lastIncludedTerm < 2 ^ 64
  snapshotFencingEpoch : c.snapshotFencingEpoch < 2 ^ 64
  journalGeneration : c.journalGeneration < 2 ^ 64
  digest : c.digest < 2 ^ 64
  chunkDigest : c.chunkDigest < 2 ^ 64
  entries : ∀ e ∈ c.entries, e.Sized

/-- The fields of a snapshot message fit the widths of their types. -/
structure SnapshotBody.Sized (s : SnapshotBody) : Prop where
  lastIncludedIndex : s.lastIncludedIndex < 2 ^ 64
  lastIncludedTerm : s.lastIncludedTerm < 2 ^ 64
  fencingEpoch : s.fencingEpoch < 2 ^ 64
  journalGeneration : s.journalGeneration < 2 ^ 64
  digest : s.digest < 2 ^ 64
  entries : ∀ e ∈ s.entries, e.Sized

def MsgBody.Sized : MsgBody → Prop
  | .requestVote lastLogIndex lastLogTerm | .preVote lastLogIndex lastLogTerm =>
    lastLogIndex < 2 ^ 64 ∧ lastLogTerm < 2 ^ 64
  | .voteReply _ | .preVoteReply _ => True
  | .append prevLogIndex prevLogTerm leaderCommit entries =>
    prevLogIndex < 2 ^ 64 ∧ prevLogTerm < 2 ^ 64 ∧ leaderCommit < 2 ^ 64 ∧ ∀ e ∈ entries, e.Sized
  | .appendReply _ matchIndex | .snapshotReply _ matchIndex => matchIndex < 2 ^ 64
  | .snapshot s => s.Sized
  | .snapshotChunk c => c.Sized

/-- The fields of a message fit the widths of their types. -/
structure Msg.Sized (m : Msg) : Prop where
  term : m.term < 2 ^ 64
  fencingEpoch : m.fencingEpoch < 2 ^ 64
  body : m.body.Sized

section Reads

variable {user : Principal}

lemma reads_u64 {n : ℕ} (h : n < 2 ^ 64) : Reads (bigWord 8) (be 8 n) n := reads_bigWord h

lemma reads_u16 {n : ℕ} (h : n < 2 ^ 16) : Reads (bigWord 2) (be 2 n) n := reads_bigWord h

lemma reads_decodeFlag (b : Bool) : Reads decodeFlag (encodeFlag b) b := by
  cases b <;> exact fun _ => rfl

lemma Entry.reads_decode {e : Entry} (hs : e.Sized) (hv : e.wireValid user) :
    Reads Entry.decode e.encode e := by
  simp only [wireValid, and_eq_true, decide_eq_true_eq] at hv
  have hlength : e.payload.length < 2 ^ 16 := by
    have hmax : payloadMax = 128 := rfl
    omega
  have hcode : e.type.toNat < 256 ^ 1 := by
    cases e.type <;> decide
  simp only [encode, append_assoc]
  refine (reads_u64 hs.index).bind ?_
  refine (reads_u64 hs.term).bind ?_
  refine (reads_u64 hs.journalGeneration).bind ?_
  refine (reads_u64 hs.physicalMs).bind ?_
  refine (reads_bigWord hs.logical).bind ?_
  refine (reads_u16 hs.classif).bind ?_
  refine (reads_u16 hs.sci).bind ?_
  refine (reads_bigWord hcode).bind ?_
  refine (reads_u16 hlength).bind ?_
  refine Reads.check (by simpa using hv.1) ?_
  refine (reads_take e.payload).map ?_
  intro rest
  simp only [EntryType.ofCode_toNat]
  rfl

variable {es : List Entry}

lemma reads_entries (hs : ∀ e ∈ es, e.Sized) (hv : es.all (·.wireValid user)) :
    Reads (many Entry.decode es.length) (es.flatMap Entry.encode) es :=
  reads_many fun e he => e.reads_decode (hs e he) (all_eq_true.mp hv e he)

lemma reads_decodeEntries {limit : ℕ} (hlimit : es.length ≤ limit) (hbyte : limit < 256)
    (hs : ∀ e ∈ es, e.Sized) (hv : es.all (·.wireValid user)) :
    Reads (decodeEntries limit) (be 1 es.length ++ es.flatMap Entry.encode) es := by
  have hcount : es.length < 256 ^ 1 := by omega
  refine (reads_bigWord hcount).bind ?_
  exact Reads.check (by simpa using hlimit) (reads_entries hs hv)

lemma SnapshotBody.reads_decode {s : SnapshotBody} (hs : s.Sized)
    (hlimit : s.entries.length ≤ snapshotMaxEntries) (hv : s.entries.all (·.wireValid user)) :
    Reads SnapshotBody.decode (snapshot s).encode s := by
  simp only [encode, append_assoc]
  refine (reads_u64 hs.lastIncludedIndex).bind ?_
  refine (reads_u64 hs.lastIncludedTerm).bind ?_
  refine (reads_u64 hs.fencingEpoch).bind ?_
  refine (reads_u64 hs.journalGeneration).bind ?_
  refine (reads_u64 hs.digest).bind ?_
  exact (reads_decodeEntries hlimit (by decide) hs.entries hv).map (reads_pure _)

variable {c : SnapshotChunk}

/-- The entries of a chunk in order are valid each. -/
lemma SnapshotChunk.all_of_ordered {i t g : ℕ} (h : c.ordered user es i t g) :
    es.all (·.wireValid user) := by
  induction es generalizing i t g with
  | nil => rfl
  | cons e es ih =>
    simp only [ordered, and_eq_true] at h
    rw [all_cons, h.1.1.1.1.1, ih h.2]
    rfl

lemma SnapshotChunk.wireValid_entries {term epoch : ℕ} (h : c.wireValid user term epoch) :
    c.entries.length ≤ snapshotChunkMaxEntries ∧ c.entries.all (·.wireValid user) := by
  simp only [wireValid, and_eq_true, decide_eq_true_eq] at h
  obtain ⟨⟨⟨⟨⟨⟨⟨⟨⟨⟨-, hlimit⟩, -⟩, -⟩, -⟩, -⟩, -⟩, -⟩, hordered⟩, -⟩, -⟩ := h
  exact ⟨hlimit, all_of_ordered hordered⟩

lemma SnapshotChunk.reads_decode {term epoch : ℕ} (hs : c.Sized)
    (hv : c.wireValid user term epoch) :
    Reads decode (MsgBody.snapshotChunk c).encode c := by
  obtain ⟨hlimit, hentries⟩ := wireValid_entries hv
  have hcount : c.entries.length < 256 ^ 1 := by
    have hmax : snapshotChunkMaxEntries = 8 := rfl
    omega
  simp only [MsgBody.encode, append_assoc]
  refine (reads_u64 hs.transferId).bind ?_
  refine (reads_u64 hs.totalEntries).bind ?_
  refine (reads_u64 hs.firstEntryIndex).bind ?_
  refine (reads_u64 hs.lastIncludedTerm).bind ?_
  refine (reads_u64 hs.snapshotFencingEpoch).bind ?_
  refine (reads_u64 hs.journalGeneration).bind ?_
  refine (reads_u64 hs.digest).bind ?_
  refine (reads_u64 hs.chunkDigest).bind ?_
  refine (reads_bigWord hcount).bind ?_
  refine (reads_decodeFlag c.finalChunk).bind ?_
  refine Reads.check (by simpa using hlimit) ?_
  exact (reads_entries hs.entries hentries).map (reads_pure _)

/-- One case for each type of message. -/
lemma Msg.reads_body {m : Msg} (hs : m.body.Sized) (hv : m.bodyValid user) :
    Reads (MsgBody.decode m.body.code) m.body.encode m.body := by
  unfold bodyValid at hv
  generalize m.body = body at hs hv ⊢
  cases body with
  | requestVote | preVote => exact (reads_u64 hs.1).bind ((reads_u64 hs.2).map (reads_pure _))
  | voteReply b | preVoteReply b => exact (reads_decodeFlag b).fmap _
  | append =>
    simp only [and_eq_true, decide_eq_true_eq] at hv
    simp only [MsgBody.encode, append_assoc]
    refine (reads_u64 hs.1).bind ?_
    refine (reads_u64 hs.2.1).bind ?_
    refine (reads_u64 hs.2.2.1).bind ?_
    exact (reads_decodeEntries hv.1 (by decide) hs.2.2.2 hv.2).map (reads_pure _)
  | appendReply b | snapshotReply b =>
    exact (reads_decodeFlag b).bind ((reads_u64 hs).map (reads_pure _))
  | snapshot =>
    simp only [and_eq_true, decide_eq_true_eq] at hv
    exact (SnapshotBody.reads_decode hs hv.1 hv.2).fmap _
  | snapshotChunk => exact (SnapshotChunk.reads_decode hs hv).fmap _

end Reads

/-! ### The frame -/

variable {g : List Char}

lemma groupIdValid_length (h : groupIdValid g) : g.length ≠ 0 ∧ g.length ≤ groupIdMax := by
  simp only [groupIdValid, and_eq_true, decide_eq_true_eq] at h
  exact ⟨by simpa using h.1.1, h.1.2⟩

/-- The characters of a group name are bytes other than NUL. -/
lemma groupIdValid_char (h : groupIdValid g) : ∀ c ∈ g, 0 < c.toNat ∧ c.toNat < 128 := by
  simp only [groupIdValid, and_eq_true, all_eq_true, or_eq_true,
    decide_eq_true_eq] at h
  intro c hc
  have hrange : ∀ lo hi : Char, 0 < lo.toNat → hi.toNat < 128 → lo ≤ c ∧ c ≤ hi →
      0 < c.toNat ∧ c.toNat < 128 := fun lo hi hlo hhi hmem =>
    ⟨lt_of_lt_of_le hlo hmem.1, lt_of_le_of_lt hmem.2 hhi⟩
  rcases h.2 c hc with ((((((((hr | hr) | hr) | hr) | hr) | hr) | hr) | hr) | hr)
  · exact hrange 'a' 'z' (by decide) (by decide) hr
  · exact hrange 'A' 'Z' (by decide) (by decide) hr
  · exact hrange '0' '9' (by decide) (by decide) hr
  all_goals
    subst hr
    decide

lemma groupOf_groupBytes (h : groupIdValid g) : groupOf (groupBytes g) = g := by
  have hchar := groupIdValid_char h
  have hbyte : ∀ c ∈ g, (UInt8.ofNat c.toNat).toNat = c.toNat := by
    intro c hc
    have hc := hchar c hc
    rw [UInt8.toNat_ofNat']
    omega
  have hkeep : (groupBytes g).takeWhile (· ≠ 0) = groupBytes g := by
    refine takeWhile_eq_self_iff.mpr fun b hb => ?_
    obtain ⟨c, hc, rfl⟩ := mem_map.mp hb
    have hne : (UInt8.ofNat c.toNat).toNat ≠ 0 := by
      rw [hbyte c hc]
      exact (hchar c hc).1.ne'
    simpa [← UInt8.toNat_inj] using hne
  rw [groupOf, hkeep, groupBytes, map_map]
  conv_rhs => rw [← map_id g]
  refine map_congr_left fun c hc => ?_
  simp only [Function.comp_apply, hbyte c hc, id_eq]
  exact Char.ofNat_toNat c

lemma reads_expectBinding (binding : Option Binding) :
    Reads (expectBinding binding) (binding.elim [] Binding.encode) () := by
  cases binding with
  | none => exact reads_pure ()
  | some b =>
    refine (reads_take_of_length b.size).bind ((reads_u64 b.writerEpoch.toNat_lt).map ?_)
    intro rest
    simp [check, StateT.run]

variable {user : Principal} {m : Msg}

/-- A message that passes validation is read back from its encoding. -/
lemma Msg.reads_decode (hs : m.Sized) (hv : prevalidate user m) (binding : Option Binding) :
    Reads (Msg.decode binding) (m.encode binding) m := by
  simp only [prevalidate, and_eq_true, decide_eq_true_eq] at hv
  obtain ⟨⟨⟨⟨⟨-, hgroup⟩, -⟩, -⟩, -⟩, hbody⟩ := hv
  obtain ⟨hne, hmax⟩ := groupIdValid_length hgroup
  have hversion : wireVersion binding.isSome < 2 ^ 16 := by
    unfold wireVersion
    split_ifs <;> decide
  have hcode : m.body.code < 256 ^ 1 := by
    unfold MsgBody.code
    split <;> decide
  have hlength : m.groupId.length < 256 ^ 1 := by
    have h63 : groupIdMax = 63 := rfl
    omega
  have hbytes : (groupBytes m.groupId).length = m.groupId.length := length_map _
  simp only [encode, append_assoc]
  have hmagic : (wireMagic binding.isSome).length = 4 := rfl
  refine (reads_take_of_length hmagic).bind ?_
  refine (reads_u16 hversion).bind ?_
  refine (reads_bigWord hcode).bind ?_
  refine (reads_bigWord hlength).bind ?_
  refine (reads_take_of_length m.sender.size).bind ?_
  refine (reads_take_of_length m.dest.size).bind ?_
  refine (reads_u64 hs.term).bind ?_
  refine (reads_u64 hs.fencingEpoch).bind ?_
  refine Reads.check (by simp [hne, hmax]) ?_
  refine (reads_expectBinding binding).bind ?_
  refine (reads_take_of_length hbytes).bind ?_
  refine (reads_body hs.body hbody).map ?_
  rw [groupOf_groupBytes hgroup, Uuid.ofBytes_bytes, Uuid.ofBytes_bytes]
  exact reads_pure m

/-! ### Sizes -/

lemma Entry.length_encode {e : Entry} (h : e.wireValid user) :
    e.encode.length ≤ 43 + payloadMax := by
  simp only [wireValid, and_eq_true, decide_eq_true_eq] at h
  simp only [encode, length_append, length_be]
  omega

lemma length_entries {es : List Entry} (h : es.all (·.wireValid user)) :
    (es.flatMap Entry.encode).length ≤ es.length * 171 := by
  induction es with
  | nil => exact le_rfl
  | cons e es ih =>
    rw [all_cons, and_eq_true] at h
    have hfirst : e.encode.length ≤ 171 := Entry.length_encode h.1
    have hrest := ih h.2
    rw [flatMap_cons, length_append, length_cons]
    omega

/-- The longest body is a snapshot of twenty-four entries with full payloads. -/
lemma Msg.length_body (h : m.bodyValid user) : m.body.encode.length ≤ 41 + 24 * 171 := by
  have h8 : maxEntriesPerMsg = 8 ∧ snapshotChunkMaxEntries = 8 ∧ snapshotMaxEntries = 24 :=
    ⟨rfl, rfl, rfl⟩
  unfold bodyValid at h
  generalize m.body = body at h ⊢
  cases body with
  | append | snapshot =>
    simp only [and_eq_true, decide_eq_true_eq] at h
    have hes := length_entries h.2
    simp only [MsgBody.encode, length_append, length_be]
    omega
  | snapshotChunk =>
    obtain ⟨hlimit, hordered⟩ := wireValid_entries h
    have hes := length_entries hordered
    simp only [MsgBody.encode, length_append, length_be, encodeFlag, length_singleton]
    omega
  | _ => simp [MsgBody.encode, encodeFlag]

/-- A valid message fits into `QIHSE_CONSENSUS_WIRE_MAX` bytes. -/
lemma Msg.length_encode (h : prevalidate user m) (binding : Option Binding) :
    wireHeaderSize + (if binding.isSome then wireBoundSize else 0) ≤ (m.encode binding).length ∧
      (m.encode binding).length ≤ wireMax := by
  simp only [prevalidate, and_eq_true, decide_eq_true_eq] at h
  obtain ⟨⟨⟨⟨⟨-, hgroup⟩, -⟩, -⟩, -⟩, hbody⟩ := h
  have hlength := (groupIdValid_length hgroup).2
  have hbytes : (groupBytes m.groupId).length = m.groupId.length := length_map _
  have hmagic : (wireMagic binding.isSome).length = 4 := rfl
  have hbound : (binding.elim [] Binding.encode).length =
      if binding.isSome then wireBoundSize else 0 := by
    cases binding with
    | none => rfl
    | some b => simp [Binding.encode, b.size, wireBoundSize]
  have hsize : (if binding.isSome then wireBoundSize else 0) ≤ 40 := by
    split_ifs <;> decide
  have h63 : groupIdMax = 63 ∧ wireMax = 8192 ∧ wireHeaderSize = 56 := ⟨rfl, rfl, rfl⟩
  have hlong := length_body hbody
  simp only [encode, length_append, length_be, hbytes, hmagic, hbound, m.sender.size,
    m.dest.size]
  omega

/-- Whatever the encoder accepts, in either format, the decoder with the same principal and the same
binding turns back into the message. -/
theorem wireDecode_wireEncode {user : Principal} {binding : Option Binding} {cap : ℕ} {m : Msg}
    {wire : List UInt8} (hs : m.Sized) (h : wireEncode user binding cap m = some wire) :
    wireDecode user binding wire = some m := by
  unfold wireEncode at h
  split_ifs at h with hok
  cases h
  simp only [and_eq_true] at hok
  obtain ⟨hmin, hmax⟩ := Msg.length_encode hok.1.1 binding
  have hread := Msg.reads_decode hs hok.1.1 binding []
  rw [append_nil] at hread
  have hbounds : ¬ ((m.encode binding).length < wireHeaderSize +
      (if binding.isSome then wireBoundSize else 0) ∨ wireMax < (m.encode binding).length ∨
      !binding.all Binding.valid) := by
    simp [hok.1.2, hmin, hmax]
  rw [wireDecode, if_neg hbounds, hread]
  exact if_pos hok.1.1

namespace Sample

/-- A principal that may see everything. -/
def cleared : Principal := ⟨true, fun _ _ => true⟩

def history : Binding := ⟨List.replicate 32 7, rfl, 3⟩

/-- An APPEND of one entry. -/
def oneEntry : Msg where
  groupId := ['g']
  sender := .ofBytes [1]
  dest := .ofBytes [2]
  term := 4
  fencingEpoch := 5
  body := .append 8 3 7 [⟨9, 4, 12, ⟨1700000000000, 2⟩, 1, 6, .data, [1, 2, 3]⟩]

theorem wireDecode_wireEncode_append : (wireEncode cleared (some history) wireMax oneEntry).isSome ∧
      wireDecode cleared (some history) (oneEntry.encode (some history)) = some oneEntry := by
  have hok : wireEncode cleared (some history) wireMax oneEntry =
      some (oneEntry.encode (some history)) := by decide +kernel
  have hs : oneEntry.Sized := by
    refine ⟨by decide, by decide, by decide, by decide, by decide, fun e he => ?_⟩
    cases mem_singleton.mp he
    exact ⟨by decide, by decide, by decide, by decide, by decide, by decide, by decide⟩
  exact ⟨by rw [hok]; rfl, wireDecode_wireEncode hs hok⟩

end Sample

end Qihse.Consensus
