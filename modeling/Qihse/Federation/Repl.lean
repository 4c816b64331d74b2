import Qihse.Federation.Journal

/-!
# The sending side of journal replication

`qihse_federation_repl.c`: the record codec, the bounded sending round over the journal, and when a
transfer that is continued over failing transports has handed every record that its cursor passed.
-/

open Bytes Qihse.Event List Cursor

namespace Qihse.Federation

/-! ### Records -/

/-- `qihse_repl_record_t`. The character arrays are given up to their terminator. -/
structure ReplRecord where
  streamOffset : UInt64
  eventId : Uuid
  eventType : Text
  resourceId : Text
  payload : List UInt8
deriving DecidableEq

def replRecordHdr : ℕ := 32

def replFramePrefix : ℕ := 4

def replPayloadMax : ℕ := 512

def eventTypeMax : ℕ := 63

namespace ReplRecord

/-- `repl_record_body_size`. -/
def bodySize (r : ReplRecord) : ℕ :=
  replRecordHdr + r.eventType.length + r.resourceId.length + r.payload.length

/-- `qihse_repl_record_wire_size`. -/
def wireSize (r : ReplRecord) : ℕ :=
  replFramePrefix + replRecordHdr + r.eventType.length + r.resourceId.length + r.payload.length

/-- The frame that a record is written as. -/
def frame (r : ReplRecord) : List UInt8 :=
  le 4 r.bodySize ++ (le 8 r.streamOffset.toNat ++ (r.eventId.val ++
    (le 2 r.payload.length ++ (le 1 r.eventType.length ++ (le 1 r.resourceId.length ++
      (le 4 0 ++ (r.eventType ++ (r.resourceId ++ r.payload))))))))

@[simp]
lemma length_frame (r : ReplRecord) : r.frame.length = replFramePrefix + r.bodySize := by
  simp only [frame, length_append, length_le, r.eventId.property, bodySize, replFramePrefix,
    replRecordHdr]
  omega

/-- `qihse_repl_record_encode`. -/
def encode (r : ReplRecord) (outCap : ℕ) : Option (List UInt8) :=
  if r.eventType.length > 255 || r.resourceId.length > 255 then none
  else if r.payload.length > replPayloadMax then none
  else if r.wireSize > outCap then none
  else some r.frame

def read (inLen : ℕ) : Reader ReplRecord := do
  let bodyLen ← word 4
  check (inLen = replFramePrefix + bodyLen)
  let streamOffset ← word64
  let eventId ← block 16
  let payloadLen ← word 2
  let typeLen ← word 1
  let resLen ← word 1
  let _ ← take 4
  check (payloadLen ≤ replPayloadMax)
  check (typeLen ≤ eventTypeMax)
  check (resLen < 64)
  check (bodyLen = replRecordHdr + typeLen + resLen + payloadLen)
  let eventType ← take typeLen
  let resourceId ← take resLen
  let payload ← take payloadLen
  return ⟨streamOffset, eventId, cString eventType, cString resourceId, payload⟩

/-- `qihse_repl_record_decode`. -/
def decode (bs : List UInt8) : Option ReplRecord :=
  if bs.length < replFramePrefix + replRecordHdr then none
  else ((read bs.length).run bs).map Prod.fst

/-- What the arrays of a record can hold. -/
structure Bounded (r : ReplRecord) : Prop where
  eventType : r.eventType.length ≤ eventTypeMax
  resourceId : r.resourceId.length ≤ 63
  payload : r.payload.length ≤ replPayloadMax
  eventType_text : 0 ∉ r.eventType
  resourceId_text : 0 ∉ r.resourceId

section

variable {r : ReplRecord} (h : r.Bounded)
include h

/-- The buffer of the sending round holds every record. -/
lemma Bounded.encode_eq : r.encode 1024 = some r.frame := by
  have htype : r.eventType.length ≤ 63 := h.eventType
  have hres := h.resourceId
  have hpay : r.payload.length ≤ 512 := h.payload
  have hwire : r.wireSize ≤ 1024 := by
    simp only [wireSize, replFramePrefix, replRecordHdr]
    omega
  rw [encode, if_neg (by simp; omega), if_neg (not_lt.mpr h.payload), if_neg (by omega)]

lemma Bounded.reads_frame :
    Reads (read r.frame.length) r.frame r := by
  have htype : r.eventType.length ≤ 63 := h.eventType
  have hres := h.resourceId
  have hpay : r.payload.length ≤ 512 := h.payload
  have hbody : r.bodySize = 32 + r.eventType.length + r.resourceId.length + r.payload.length := rfl
  have hbodyWord : Reads (word 4) (le 4 r.bodySize) r.bodySize := reads_word (by omega)
  have hpayWord : Reads (word 2) (le 2 r.payload.length) r.payload.length := reads_word (by omega)
  have htypeWord : Reads (word 1) (le 1 r.eventType.length) r.eventType.length :=
    reads_word (by omega)
  have hresWord : Reads (word 1) (le 1 r.resourceId.length) r.resourceId.length :=
    reads_word (by omega)
  have hreserved : Reads (take 4) (le 4 0) (le 4 0) := reads_take_of_length (length_le 4 0)
  refine hbodyWord.bind (.check (by simp) ?_)
  refine (reads_word64 r.streamOffset).bind ((reads_block r.eventId).bind ?_)
  refine hpayWord.bind (htypeWord.bind (hresWord.bind (hreserved.bind ?_)))
  refine .check (by simpa using h.payload) (.check (by simpa using h.eventType) ?_)
  refine .check (by simpa using Nat.lt_succ_of_le hres) (.check (by simp [bodySize]) ?_)
  refine (reads_take r.eventType).bind ((reads_take r.resourceId).bind
    ((reads_take r.payload).map ?_))
  rw [cString_eq h.eventType_text, cString_eq h.resourceId_text]
  exact reads_pure r

lemma Bounded.decode_frame : decode r.frame = some r := by
  have hlong : ¬ r.frame.length < replFramePrefix + replRecordHdr := by
    rw [length_frame, bodySize]
    omega
  have hrun := h.reads_frame []
  rw [append_nil] at hrun
  rw [decode, if_neg hlong, hrun]
  rfl

end

end ReplRecord

/-- The record that `repl_send_round_cb` builds from what the journal hands it. -/
def wireRecord (ev : JournalEvent) (payload : List UInt8) : ReplRecord where
  streamOffset := ev.journalOffset
  eventId := ev.eventId
  eventType := fit 64 ev.eventType
  resourceId := fit 64 ev.resourceId
  payload := payload.take replPayloadMax

/-- The same record with nothing cut off. -/
def wholeRecord (ev : JournalEvent) (payload : List UInt8) : ReplRecord where
  streamOffset := ev.journalOffset
  eventId := ev.eventId
  eventType := ev.eventType
  resourceId := ev.resourceId
  payload := payload

def JournalRecord.wire (r : JournalRecord) : ReplRecord :=
  wireRecord (journalDeserialize r.1 r.2).1 (journalDeserialize r.1 r.2).2

def JournalRecord.whole (r : JournalRecord) : ReplRecord :=
  wholeRecord (journalDeserialize r.1 r.2).1 (journalDeserialize r.1 r.2).2

/-- The arrays of a wire record hold the whole journal record. -/
def JournalRecord.fits (r : JournalRecord) : Bool :=
  (journalDeserialize r.1 r.2).1.eventType.length < 64 &&
    (journalDeserialize r.1 r.2).1.resourceId.length < 64 &&
    (journalDeserialize r.1 r.2).2.length ≤ replPayloadMax

lemma JournalRecord.bounded_wire (r : JournalRecord) : r.wire.Bounded where
  eventType := length_take_le _ _
  resourceId := length_take_le _ _
  payload := length_take_le _ _
  eventType_text := fun h => zero_notMem_cString _ (mem_of_mem_take h)
  resourceId_text := fun h => zero_notMem_cString _ (mem_of_mem_take h)

lemma JournalRecord.wire_eq_whole_iff (r : JournalRecord) : r.wire = r.whole ↔ r.fits = true := by
  simp only [wire, whole, wireRecord, wholeRecord,
    fits, ReplRecord.mk.injEq, true_and, fit, take_eq_self_iff,
    Bool.and_eq_true, decide_eq_true_eq, and_assoc]
  omega

/-! ### Sending rounds -/

/-- `qihse_repl_phase_t`. -/
inductive ReplPhase
  | idle | sending | receiving | verifying | complete | failed | aborted
deriving DecidableEq

def maxRecordsPerRound : ℕ := 64

/-- `send_round_ctx_t`, with the frames that the transport has taken. -/
structure SendRound where
  moved : ℕ
  failed : Bool
  lastError : Text
  handed : List (List UInt8)

/-- `repl_send_round_cb`. Whether the transport takes the whole frame is given for each send of the
round. -/
def replSendRoundCb (send : ℕ → Bool) (ev : JournalEvent) (payload : List UInt8)
    (ctx : SendRound) : SendRound × Bool :=
  if ctx.moved ≥ maxRecordsPerRound then (ctx, false)
  else if ctx.failed then (ctx, false)
  else
    match (wireRecord ev payload).encode 1024 with
    | none => ({ ctx with moved := ctx.moved + 1 }, true)
    | some wire =>
      if send ctx.moved then
        ({ ctx with moved := ctx.moved + 1, handed := ctx.handed ++ [wire] }, true)
      else ({ ctx with failed := true, lastError := ascii "send failed" }, false)

/-- The fields of `qihse_repl_sync_t` that a sending side uses, and the frames that its transports
have taken. -/
structure Sender where
  phase : ReplPhase
  cursor : ℕ
  lastError : Text
  handed : List (List UInt8)

namespace Sender

/-- `qihse_repl_sync_begin` on the sending side. -/
def begin : Sender := ⟨.sending, 0, [], []⟩

/-- The sending side of `qihse_repl_sync_round`. -/
def round (file : List UInt8) (peerVerified : Bool) (send : ℕ → Bool) (s : Sender) : Sender :=
  if s.phase ≠ .sending then s
  else if !peerVerified then
    { s with phase := .failed, lastError := ascii "peer not verified" }
  else
    let (_, ctx, resume) :=
      replayWindow file (replSendRoundCb send) s.cursor maxRecordsPerRound
        ⟨0, false, s.lastError, s.handed⟩
    let s := { s with cursor := resume, lastError := ctx.lastError, handed := ctx.handed }
    if ctx.failed then { s with phase := .failed }
    else if s.cursor ≥ file.length then { s with phase := .verifying }
    else s

/-- What happens to a transfer. -/
inductive Act
  /-- A call of `qihse_repl_sync_round` over some transport. -/
  | round (peerVerified : Bool) (send : ℕ → Bool)
  /-- The transfer is taken up again from the cursor it left behind. -/
  | resume

def step (file : List UInt8) (s : Sender) : Act → Sender
  | .round peerVerified send => s.round file peerVerified send
  | .resume => { s with phase := .sending }

def run (file : List UInt8) (s : Sender) (acts : List Act) : Sender := acts.foldl (step file) s

/-- Every record before the cursor has been handed over whole, in journal order. -/
def Complete (file : List UInt8) (s : Sender) : Prop :=
  ((recordsBefore file s.cursor).map JournalRecord.whole).Sublist
    (s.handed.filterMap ReplRecord.decode)

/-- Every record of the window fits and its send succeeds; `i` sends came before. -/
def allShipped (send : ℕ → Bool) : ℕ → List JournalRecord → Bool
  | _, [] => true
  | i, r :: rs => send i && r.fits && allShipped send (i + 1) rs

/-- What a round needs: it moves nothing, or ships its whole window. -/
def roundOk (file : List UInt8) (s : Sender) : Act → Bool
  | .round peerVerified send =>
    s.phase ≠ .sending || !peerVerified ||
      allShipped send 0 ((items (journalNext file) maxRecordsPerRound s.cursor).map Prod.snd)
  | .resume => true

/-- Every round of the run meets its condition. -/
def meets (file : List UInt8) : Sender → List Act → Bool
  | _, [] => true
  | s, a :: acts => s.roundOk file a && meets file (s.step file a) acts

/-! ### The records that were passed -/

/-- The records that a round passes, with what the transport made of them. -/
def outcomes (send : ℕ → Bool) : ℕ → List JournalRecord → List (JournalRecord × Bool)
  | _, [] => []
  | i, r :: rs => if send i then (r, true) :: outcomes send (i + 1) rs else [(r, false)]

/-- The frame of a record that the transport took. -/
def taken (x : JournalRecord × Bool) : Option (List UInt8) :=
  if x.2 then some x.1.wire.frame else none

lemma map_outcomes (send : ℕ → Bool) (i : ℕ) (rs : List JournalRecord) :
    (outcomes send i rs).map Prod.fst = rs.take (outcomes send i rs).length := by
  induction rs generalizing i with
  | nil => rfl
  | cons r rs ih =>
    unfold outcomes
    split_ifs
    · simp [ih]
    · rfl

lemma forall_outcomes_iff (send : ℕ → Bool) (i : ℕ) (rs : List JournalRecord) :
    (∀ x ∈ outcomes send i rs, x.2 = true ∧ x.1.fits = true) ↔ allShipped send i rs = true := by
  induction rs generalizing i with
  | nil => simp [outcomes, allShipped]
  | cons r rs ih =>
    unfold outcomes
    split_ifs with hsend
    · rw [forall_mem_cons, ih, allShipped, hsend]
      simp
    · simp [allShipped, hsend]

/-- The callback of the round. -/
def cb (send : ℕ → Bool) (r : JournalRecord) (ctx : SendRound) : SendRound × Bool :=
  replSendRoundCb send (journalDeserialize r.1 r.2).1 (journalDeserialize r.1 r.2).2 ctx

lemma cb_eq (send : ℕ → Bool) (r : JournalRecord) {i : ℕ} (hi : i < maxRecordsPerRound) (e : Text)
    (hs : List (List UInt8)) : cb send r ⟨i, false, e, hs⟩ =
      if send i then (⟨i + 1, false, e, hs ++ [r.wire.frame]⟩, true)
      else (⟨i, true, ascii "send failed", hs⟩, false) := by
  have henc := r.bounded_wire.encode_eq
  unfold JournalRecord.wire at henc
  simp only [cb, replSendRoundCb, if_neg (not_le.mpr hi), henc]
  rfl

/-- The records of a window go over one by one until a send fails. -/
lemma deliver_cb (send : ℕ → Bool) (rs : List JournalRecord) {i : ℕ}
    (hi : i + rs.length ≤ maxRecordsPerRound) (e : Text) (hs : List (List UInt8)) :
    (deliver (cb send) rs ⟨i, false, e, hs⟩).1 = (outcomes send i rs).length ∧
      (deliver (cb send) rs ⟨i, false, e, hs⟩).2.handed =
        hs ++ (outcomes send i rs).filterMap taken := by
  induction rs generalizing i hs with
  | nil => simp [deliver, outcomes]
  | cons r rs ih =>
    rw [length_cons] at hi
    rw [deliver, cb_eq send r (by omega), outcomes]
    by_cases hsend : send i = true
    · obtain ⟨hn, hh⟩ := ih (i := i + 1) (by omega) (hs ++ [r.wire.frame])
      simp [hsend, hn, hh, taken]
    · simp [hsend, taken]

/-- What the transfer has done so far: the records before its cursor, each with whether its send
succeeded. -/
structure Logged (file : List UInt8) (s : Sender) (log : List (JournalRecord × Bool)) : Prop where
  cursor : s.cursor = after (journalNext file) log.length 0
  records : log.map Prod.fst =
    (items (journalNext file) log.length 0).map Prod.snd
  handed : s.handed = log.filterMap taken

variable {file : List UInt8} {s : Sender} {log : List (JournalRecord × Bool)}

lemma round_eq (file : List UInt8) (send : ℕ → Bool) (hphase : s.phase = .sending) :
    (s.round file true send).cursor =
        (window (journalNext file) (cb send) maxRecordsPerRound s.cursor
          ⟨0, false, s.lastError, s.handed⟩).2.2 ∧ (s.round file true send).handed =
        (window (journalNext file) (cb send) maxRecordsPerRound s.cursor
          ⟨0, false, s.lastError, s.handed⟩).2.1.handed := by
  have hwindow : replayWindow file (replSendRoundCb send) =
      fun c k => window (journalNext file) (cb send) k c := rfl
  rw [round, if_neg (not_not.mpr hphase), hwindow]
  simp only [Bool.not_true, Bool.false_eq_true, if_false]
  split_ifs <;> exact ⟨rfl, rfl⟩

/-- A round that moves records. -/
lemma Logged.round (h : s.Logged file log) (send : ℕ → Bool) (hphase : s.phase = .sending) :
    (s.round file true send).Logged file (log ++ outcomes send 0
      ((items (journalNext file) maxRecordsPerRound s.cursor).map Prod.snd)) := by
  have hlen : (items (journalNext file) maxRecordsPerRound s.cursor).length ≤ _ :=
    length_items_le maxRecordsPerRound s.cursor
  obtain ⟨hcursor, hhanded⟩ := round_eq file send hphase
  rw [window_eq] at hcursor hhanded
  generalize hrs : (items (journalNext file) maxRecordsPerRound s.cursor).map Prod.snd = rs
    at hcursor hhanded ⊢
  rw [← length_map Prod.snd, hrs] at hlen
  obtain ⟨hn, hh⟩ := deliver_cb send rs (i := 0) (by omega) s.lastError s.handed
  have hcount : (outcomes send 0 rs).length ≤ rs.length := by
    have hmap := congrArg List.length (map_outcomes send 0 rs)
    rw [length_map, length_take] at hmap
    omega
  have htake : rs.take (outcomes send 0 rs).length =
      (items (journalNext file) (outcomes send 0 rs).length s.cursor).map Prod.snd := by
    rw [← take_items (hcount.trans hlen), map_take, hrs]
  constructor
  · rw [hcursor, hn, h.cursor, length_append, after_add]
  · rw [map_append, h.records, map_outcomes, htake, length_append, items_add,
      map_append, h.cursor]
  · rw [hhanded, hh, h.handed, filterMap_append]

/-- One step passes some more records, all of them whole exactly if it meets its condition. -/
lemma Logged.step (h : s.Logged file log) (a : Act) :
    ∃ more, (s.step file a).Logged file (log ++ more) ∧
      ((∀ x ∈ more, x.2 = true ∧ x.1.fits = true) ↔ s.roundOk file a = true) := by
  cases a with
  | resume => exact ⟨[], by simpa using { h with }, by simp [roundOk]⟩
  | round peerVerified send =>
    by_cases hphase : s.phase = .sending
    · cases peerVerified with
      | true =>
        refine ⟨_, h.round send hphase, (forall_outcomes_iff _ _ _).trans ?_⟩
        simp [roundOk, hphase]
      | false =>
        refine ⟨[], ?_, by simp [roundOk]⟩
        simp only [Sender.step, Sender.round, hphase, append_nil]
        exact { h with }
    · refine ⟨[], ?_, by simp [roundOk, hphase]⟩
      rw [Sender.step, Sender.round, if_pos hphase, append_nil]
      exact h

lemma Logged.run (h : s.Logged file log) (acts : List Act) :
    ∃ more, (s.run file acts).Logged file (log ++ more) ∧
      ((∀ x ∈ more, x.2 = true ∧ x.1.fits = true) ↔ s.meets file acts = true) := by
  induction acts generalizing s log with
  | nil =>
    refine ⟨[], ?_, by simp [meets]⟩
    rw [append_nil]
    exact h
  | cons a acts ih =>
    obtain ⟨xs, hxs, hok⟩ := h.step a
    obtain ⟨ys, hys, hmeets⟩ := ih hxs
    refine ⟨xs ++ ys, by rwa [← append_assoc], ?_⟩
    rw [meets, Bool.and_eq_true, ← hok, ← hmeets, forall_mem_append]

end Sender

open Sender

/-- A list that is mapped without loss into a part of itself is kept whole. -/
lemma map_sublist_filterMap_iff {α β : Type} {f : α → β} {g : α → Option β} {l : List α} :
    (l.map f).Sublist (l.filterMap g) ↔ ∀ x ∈ l, g x = some (f x) := by
  rw [← filterMap_eq_map_iff_forall_eq_some]
  constructor
  · intro h
    exact (h.eq_of_length_le (by simpa using length_filterMap_le g l)).symm
  · intro h
    rw [h]

/-- Of the records that were passed, those with a failed send are missing from what was handed
over, and those that do not fit are cut. -/
lemma Sender.Logged.complete_iff {file : List UInt8} {s : Sender}
    {log : List (JournalRecord × Bool)} (h : s.Logged file log) :
    s.Complete file ↔ ∀ x ∈ log, x.2 = true ∧ x.1.fits = true := by
  have hdecode : s.handed.filterMap ReplRecord.decode =
      log.filterMap fun x => if x.2 then some x.1.wire else none := by
    rw [h.handed, filterMap_filterMap]
    apply filterMap_congr
    intro x _
    cases hx : x.2 with
    | true => simp [taken, hx, x.1.bounded_wire.decode_frame]
    | false => simp [taken, hx]
  have hbefore : (recordsBefore file s.cursor).map JournalRecord.whole =
      log.map fun x => x.1.whole := by
    rw [h.cursor, recordsBefore_after, ← h.records, map_map]
    rfl
  rw [Complete, hdecode, hbefore, map_sublist_filterMap_iff]
  refine forall₂_congr fun x _ => ?_
  rw [← JournalRecord.wire_eq_whole_iff]
  cases hx : x.2 <;> simp

/-- A transfer has handed every record before its cursor over whole and in order exactly if each of
its rounds shipped its whole window. -/
theorem Sender.complete_run_iff (file : List UInt8) (acts : List Act) :
    (begin.run file acts).Complete file ↔ begin.meets file acts = true := by
  have hbegin : begin.Logged file [] := ⟨rfl, rfl, rfl⟩
  obtain ⟨more, hlog, hmeets⟩ := hbegin.run acts
  rw [hlog.complete_iff, nil_append, hmeets]

namespace Sample

/-- A journal of one event with `n` bytes of payload. -/
def journal (n : ℕ) : List UInt8 :=
  (Record.mk 1 ⟨List.replicate 48 7, rfl⟩
    (List.replicate journalHeaderSize 0 ++ List.replicate n 9)).image 0 0 committedFlags

/-- The send of the only record fails. The transfer is continued from the cursor that is left, over
a transport that takes everything, and comes to its end without the record. -/
def skipped : Sender :=
  begin.run (journal 3) [.round true fun _ => false, .resume, .round true fun _ => true]

/-- Over a transport that takes everything, a payload of 513 bytes is handed over without its last
byte. -/
def cut : Sender := begin.run (journal 513) [.round true fun _ => true]

theorem passed_record_lost :
    skipped.phase = .verifying ∧ skipped.handed = [] ∧ ¬ skipped.Complete (journal 3) ∧
      cut.phase = .verifying ∧
        (cut.handed.filterMap ReplRecord.decode).map (·.payload.length) = [512] ∧
        ¬ cut.Complete (journal 513) := by
  unfold Complete
  decide +kernel

end Sample

end Qihse.Federation
