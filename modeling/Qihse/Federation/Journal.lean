import Qihse.Cursor.Window
import Qihse.Event.Stream
import Qihse.Federation.Clock
import Qihse.Federation.Lease

/-!
# The federation journal

The events of `qihse_federation.c` as they come back from the event stream that holds them, and the
bounded replay that the consumers of the journal run on.
-/

open Bytes Qihse.Event

namespace Qihse.Federation

def journalTopic : Text := ascii "federation"

/-- `qihse_federation_mutation_t`. -/
structure Mutation where
  requestId : Uuid
  originNode : Uuid
  principalId : Uuid
  hlc : Hlc
  expectedGeneration : UInt64
  fencingEpoch : UInt64
  consistency : UInt32
  flags : UInt32
deriving DecidableEq

/-- `qihse_federation_event_t`. The two character arrays are given up to their terminator. -/
structure JournalEvent where
  eventId : Uuid
  mutation : Mutation
  eventType : Text
  resourceId : Text
  journalOffset : UInt64
  previousHash : List UInt8
  hash : EventId
deriving DecidableEq

def mutationTombstone : UInt32 := 1

/-- `qihse_federation_event_is_tombstone`. -/
def JournalEvent.isTombstone (ev : JournalEvent) : Bool :=
  ev.mutation.flags &&& mutationTombstone ≠ 0

/-! ### Reading events -/

/-- The bytes of a fixed-width field; what lies behind the end of the blob reads as zero. -/
def blobField (blob : List UInt8) (offset len : ℕ) : List UInt8 :=
  (blob.drop offset ++ List.replicate len 0).take len

@[simp]
lemma length_blobField (blob : List UInt8) (offset len : ℕ) :
    (blobField blob offset len).length = len := by
  simp [blobField]

def blobUuid (blob : List UInt8) (offset : ℕ) : Uuid :=
  ⟨blobField blob offset 16, length_blobField _ _ _⟩

def journalHeaderSize : ℕ := 64 + 64 + 16 + 16 + 16 + 16 + 8 + 8 + 4 + 4 + 48

lemma length_zeroUuid : (List.replicate 16 (0 : UInt8)).length = 16 := rfl

lemma length_zeroHash : (List.replicate 48 (0 : UInt8)).length = 48 := rfl

/-- `journal_deserialize`, with the two fields that its callers take from the record header. The
identifier of the event is not part of the blob and comes back as nil. -/
def journalDeserialize (hdr : Header) (blob : List UInt8) : JournalEvent × List UInt8 :=
  ({ eventId := ⟨List.replicate 16 0, length_zeroUuid⟩
     mutation := {
       requestId := blobUuid blob 128
       originNode := blobUuid blob 144
       principalId := blobUuid blob 160
       hlc := ⟨UInt64.ofNat (ofLe (blobField blob 176 8)),
         UInt32.ofNat (ofLe (blobField blob 184 4))⟩
       expectedGeneration := UInt64.ofNat (ofLe (blobField blob 192 8))
       fencingEpoch := UInt64.ofNat (ofLe (blobField blob 200 8))
       consistency := UInt32.ofNat (ofLe (blobField blob 208 4))
       flags := UInt32.ofNat (ofLe (blobField blob 212 4)) }
     eventType := cString (blobField blob 0 64)
     resourceId := cString (blobField blob 64 64)
     journalOffset := hdr.streamOffset
     previousHash := blobField blob 216 48
     hash := hdr.eventId },
   blob.drop journalHeaderSize)

/-! ### Replay -/

/-- A record of the journal, with its blob. -/
abbrev JournalRecord : Type := Header × List UInt8

/-- The journal as a sequence of records. -/
def journalNext (file : List UInt8) (cursor : ℕ) : Option (JournalRecord × ℕ) :=
  (iterate journalTopic file cursor).map fun x => ((x.1, x.2.1), x.2.2)

lemma advances_journalNext (file : List UInt8) :
    Cursor.Advances (journalNext file) file.length := by
  intro c a c' h
  obtain ⟨⟨hdr, blob, next⟩, hit, heq⟩ := Option.map_eq_some_iff.mp h
  cases heq
  unfold iterate at hit
  split_ifs at hit with hcond
  cases hat : committedAt file c with
  | none => simp [hat] at hit
  | some =>
    simp only [hat] at hit
    split_ifs at hit with hlen
    cases hit
    have hhead := add_headerSize_le_of_committedAt hat
    rw [List.length_take, List.length_drop] at hlen
    have hsize : headerSize = 88 := rfl
    dsimp only
    omega

/-- `qihse_federation_journal_replay_window`: the number of events handed to the callback, its
state, and the cursor that is reported to resume from. -/
def replayWindow {σ : Type} (file : List UInt8)
    (cb : JournalEvent → List UInt8 → σ → σ × Bool) (fromCursor maxEvents : ℕ) (s : σ) :
    ℕ × σ × ℕ :=
  Cursor.window (journalNext file)
    (fun r s => cb (journalDeserialize r.1 r.2).1 (journalDeserialize r.1 r.2).2 s)
    maxEvents fromCursor s

/-- The records that lie before a cursor, in journal order. -/
def recordsBefore (file : List UInt8) (cursor : ℕ) : List JournalRecord :=
  ((Cursor.items (journalNext file) file.length 0).filter (fun x => x.1 < cursor)).map Prod.snd

lemma recordsBefore_after (file : List UInt8) (n : ℕ) :
    recordsBefore file (Cursor.after (journalNext file) n 0) =
      (Cursor.items (journalNext file) n 0).map Prod.snd := by
  rw [recordsBefore, (advances_journalNext file).filter_items]

/-! ### Stamps -/

open List

/-- A journal with the events of its stream. The clock is in memory only. -/
structure Journal where
  events : List JournalEvent
  clock : Hlc
  previousHash : Option EventId

/-- A call of `qihse_federation_journal_append`: the wall clock and a new identifier that it reads,
and the offset that the stream gives the record, 0 where it does not take it. -/
structure Append where
  mutation : Mutation
  eventType : Text
  resourceId : Text
  payload : List UInt8
  now : UInt64
  generated : Uuid
  offset : UInt64

/-- An append, or closing the journal and opening it again. -/
inductive JournalOp
  | append (a : Append)
  | reopen

/-- An append comes without a stamp of its own. -/
def JournalOp.unstamped : JournalOp → Bool
  | append a => a.mutation.hlc = .init
  | reopen => true

namespace Journal

/-- The journal of an empty directory. -/
def new : Journal := ⟨[], .init, none⟩

-- `journal_hash`, of an event without its hash and the payload
variable (hashOf : (EventId → JournalEvent) → List UInt8 → EventId) (j : Journal)

/-- The event of an append with its stamp. -/
def event (a : Append) (stamp : Hlc) (hash : EventId) : JournalEvent :=
  let requestId := if a.mutation.requestId.val.all (· = 0) then a.generated
    else a.mutation.requestId
  { eventId := requestId
    mutation := { a.mutation with requestId := requestId, hlc := stamp }
    eventType := a.eventType.take 63
    resourceId := a.resourceId.take 63
    journalOffset := a.offset
    previousHash := j.previousHash.elim (List.replicate 48 0) Subtype.val
    hash := hash }

/-- `qihse_federation_journal_append`. -/
def append (a : Append) : Journal :=
  let supplied := a.mutation.hlc ≠ .init
  let clock := if supplied then j.clock.observe a.mutation.hlc a.now else j.clock.tick a.now
  let event := j.event a (if supplied then a.mutation.hlc else clock)
  let hash := hashOf event a.payload
  if a.offset = 0 then { j with clock := clock } else ⟨j.events ++ [event hash], clock, some hash⟩

/-- `qihse_federation_journal_open` of the same directory: the end of the hash chain is recovered
from the stream, the clock starts at zero. -/
def reopen : Journal := ⟨j.events, .init, j.events.getLast?.map JournalEvent.hash⟩

def step (j : Journal) : JournalOp → Journal
  | .append a => j.append hashOf a
  | .reopen => j.reopen

/-- The counter does not wrap, and the first append after opening finds a wall clock that is later
than all events. -/
def punctual (j : Journal) : JournalOp → Bool
  | .append a => (Event.tick () a.now).countable j.clock &&
      (j.clock ≠ .init || j.events.all (·.mutation.hlc.physicalMs < a.now))
  | .reopen => true

def run (ops : List JournalOp) : Journal := ops.foldl (step hashOf) new

/-- The stamps go up, and the clock is not behind them unless it was reset. -/
structure Stamped : Prop where
  ascending : (j.events.map (·.mutation.hlc)).Pairwise (·.rank < ·.rank)
  clock : j.clock = .init ∨ ∀ ev ∈ j.events, ev.mutation.hlc.rank ≤ j.clock.rank

variable {j}

lemma Stamped.step (h : j.Stamped) {op : JournalOp} (hun : op.unstamped) (hok : j.punctual op) :
    (j.step hashOf op).Stamped := by
  cases op with
  | reopen => exact ⟨h.ascending, .inl rfl⟩
  | append a =>
    have hstamp : a.mutation.hlc = .init := by simpa [JournalOp.unstamped] using hun
    simp only [punctual, Bool.and_eq_true, Bool.or_eq_true, decide_eq_true_eq,
      all_eq_true] at hok
    have htick := Event.rank_tick hok.1
    have hlt : ∀ ev ∈ j.events, ev.mutation.hlc.rank < (j.clock.tick a.now).rank := by
      intro ev hev
      obtain hinit | hle := h.clock
      · have hnow := hok.2.resolve_left (not_not_intro hinit) ev hev
        have hpos : Hlc.init.physicalMs < a.now := UInt64.lt_of_le_of_lt UInt64.zero_le hnow
        rw [hinit, Hlc.tick, if_pos hpos, Hlc.rank_lt_rank]
        exact .inl hnow
      · exact (hle ev hev).trans_lt htick
    simp only [Journal.step, append, if_neg (not_not_intro hstamp)]
    split_ifs
    · exact ⟨h.ascending, .inr fun ev hev => (hlt ev hev).le⟩
    · refine ⟨?_, .inr (forall_mem_append.mpr
        ⟨fun ev hev => (hlt ev hev).le, forall_mem_singleton.mpr le_rfl⟩)⟩
      rw [map_append, pairwise_append]
      refine ⟨h.ascending, pairwise_singleton _ _, fun s hs => ?_⟩
      obtain ⟨ev, hev, rfl⟩ := mem_map.mp hs
      exact forall_mem_singleton.mpr (hlt ev hev)

/-- While the counter does not wrap and the wall clock is later than all events whenever the journal
was opened, the stamps go up in journal order. -/
theorem stamps_ascend (ops : List JournalOp) (hun : ∀ op ∈ ops, op.unstamped)
    (hok : ∀ pre op post, ops = pre ++ op :: post → (run hashOf pre).punctual op) :
    ((run hashOf ops).events.map (·.mutation.hlc)).Pairwise fun a b => 0 < b.compare a := by
  simp only [Hlc.compare_pos]
  suffices h : (run hashOf ops).Stamped from h.ascending
  induction ops using reverseRecOn with
  | nil => exact ⟨.nil, .inl rfl⟩
  | append_singleton ops op ih =>
    rw [run, foldl_append]
    refine (ih (fun x hx => hun x (mem_append_left _ hx)) fun pre x post heq => ?_).step hashOf
      (hun op (by simp)) (hok ops op [] rfl)
    exact hok pre x (post ++ [op]) (by rw [heq, append_assoc, cons_append])

namespace Sample

def noId : Uuid := ⟨List.replicate 16 0, length_zeroUuid⟩

def zeroHash (_ : EventId → JournalEvent) (_ : List UInt8) : EventId := ⟨List.replicate 48 0, rfl⟩

/-- An event at a time of the wall clock. -/
def eventAt (now : UInt64) : JournalOp :=
  .append ⟨⟨noId, noId, noId, .init, 0, 0, 0, 0⟩, [], [], [], now, noId, 264⟩

/-- The journal is opened again, and the wall clock has gone on. -/
theorem stamps_ascend_reopened :
    ((run zeroHash [eventAt 10, .reopen, eventAt 11]).events.map (·.mutation.hlc)).Pairwise
      fun a b => 0 < b.compare a := by
  refine stamps_ascend zeroHash _ (by simp [eventAt, JournalOp.unstamped]) fun pre op post heq => ?_
  rcases pre with _ | ⟨x, _ | ⟨y, _ | ⟨z, pre⟩⟩⟩
  · cases heq
    decide
  · cases heq
    decide
  · cases heq
    decide
  · simp at heq

/-- The wall clock went back before the journal was opened again. -/
theorem stamps_fall :
    (run zeroHash [eventAt 10, .reopen, eventAt 5]).events.map (·.mutation.hlc) =
      [⟨10, 0⟩, ⟨5, 0⟩] ∧ Hlc.compare ⟨5, 0⟩ ⟨10, 0⟩ = -1 := by
  decide

end Sample

end Journal

end Qihse.Federation
