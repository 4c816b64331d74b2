import Qihse.Crash.Program
import Qihse.Event.Record

/-!
# The event stream

One topic of `qihse_event_stream.c`: records are appended at the physical end of the file, while
every reader stops at the first place without a committed record; the torn tail that a crash leaves
is cut off by a call of its own. `delivered_iff` says for which runs the iteration from the start
delivers just the acknowledged records.
-/

namespace Qihse.Event

open Bytes Crash List Option Record

/-! ### The file of a topic -/

def topicMax : ℕ := 64

/-- No separator and no two dots in a row. -/
def safeChars : List UInt8 → Bool
  | [] => true
  | c :: cs =>
    -- the characters are a slash, a backslash and a dot
    c != 0x2f && c != 0x5c && !(c == 0x2e && cs.head? == some 0x2e) && safeChars cs

/-- `topic_is_safe`; the file of another topic is never opened. -/
def topicIsSafe (topic : List UInt8) : Bool :=
  topic != [] && topic.length ≤ topicMax && safeChars topic

/-- The headers that the loops of the source come by from an offset on. -/
def scan : ℕ → List UInt8 → ℕ → List Header
  | 0, _, _ => []
  | fuel + 1, file, offset =>
    if offset < file.length then
      match committedAt file offset with
      | some h => h :: scan fuel file (offset + headerSize + h.payloadSize.toNat)
      | none => []
    else []

def committedHeaders (file : List UInt8) : List Header := scan file.length file 0

/-- `qihse_event_stream_has_event_id`. -/
def hasEventId (topic file : List UInt8) (id : EventId) : Bool :=
  topicIsSafe topic && (committedHeaders file).any fun h => h.eventId = id

/-- The offset of the last committed record, for the header of the next one. -/
def prevOffset (file : List UInt8) : ℕ :=
  ((committedHeaders file).getLast?.map fun h => h.streamOffset.toNat).getD 0

def Header.endOffset (h : Header) : ℕ := h.streamOffset.toNat + headerSize + h.payloadSize.toNat

/-- `last_valid_end` of `qihse_event_stream_truncate_torn_tail`. -/
def lastValidEnd (file : List UInt8) : ℕ :=
  ((committedHeaders file).getLast?.map Header.endOffset).getD 0

def isTorn (file : List UInt8) : Bool := lastValidEnd file < file.length

/-- `qihse_event_stream_iterate`: the record at the cursor and the cursor after it. -/
def iterate (topic file : List UInt8) (cursor : ℕ) : Option (Header × List UInt8 × ℕ) :=
  if topicIsSafe topic && cursor < file.length then
    match committedAt file cursor with
    | some h =>
      let payload := (file.drop (cursor + headerSize)).take h.payloadSize.toNat
      if payload.length = h.payloadSize.toNat then
        some (h, payload, cursor + headerSize + h.payloadSize.toNat)
      else none
    | none => none
  else none

/-- Calls of `qihse_event_stream_iterate` from a cursor on deliver these records and no more. -/
inductive Iterates (topic file : List UInt8) : ℕ → List Record → Prop
  | done {cursor : ℕ} (h : iterate topic file cursor = none) : Iterates topic file cursor []
  | next {cursor cursor' : ℕ} {h : Header} {payload : List UInt8} {rs : List Record}
      (hnext : iterate topic file cursor = some (h, payload, cursor'))
      (hrest : Iterates topic file cursor' rs) :
      Iterates topic file cursor (⟨h.schemaId, h.eventId, payload⟩ :: rs)

/-! ### Appending -/

/-- The largest offset of a file. -/
def maxOffset : ℕ := 2 ^ 63 - 1

/-- The file, and the number of bytes that are still written before a crash. -/
structure Disk where
  file : List UInt8
  left : Option ℕ

def splice (file : List UInt8) (pos : ℕ) (data : List UInt8) : List UInt8 :=
  file.take pos ++ data ++ file.drop (pos + data.length)

def readFile : Prog Disk (List UInt8) := fun d => (some d.file, d)

/-- `pwrite`; what is past the largest offset is not written. -/
def pwrite (pos : ℕ) (data : List UInt8) : Prog Disk ℕ := fun d =>
  let n := min data.length (maxOffset - pos)
  match d.left with
  | none => (some n, ⟨splice d.file pos (data.take n), none⟩)
  | some k =>
    if k < n then (none, ⟨splice d.file pos (data.take k), some 0⟩)
    else (some n, ⟨splice d.file pos (data.take n), some (k - n)⟩)

structure Stream where
  readOnly : Bool

/-- The place of the flags in a header. -/
def flagsOffset : ℕ := 8

/-- `qihse_event_stream_append_record`. An empty payload, which the source does not write, is
written without effect. -/
def appendRecord (stream : Stream) (topic : List UInt8) (r : Record) : Prog Disk ℕ :=
  if stream.readOnly = true then pure 0
  else if maxPayload < r.payload.length then pure 0
  else do
    let file ← readFile
    if hasEventId topic file r.eventId = true then pure 0
    else if topicIsSafe topic = false then pure 0
    else do
      let offset := file.length
      let n ← pwrite offset (r.header offset (prevOffset file) 0).encode
      if n ≠ headerSize then pure 0
      else do
        let n ← pwrite (offset + headerSize) r.payload
        if n ≠ r.payload.length then pure 0
        else do
          let n ← pwrite (offset + flagsOffset) (le 4 committedFlags.toNat)
          if n ≠ 4 then pure 0 else pure (offset + 1)

/-- `qihse_event_stream_truncate_torn_tail`. -/
def truncateTornTail (stream : Stream) (topic file : List UInt8) : List UInt8 :=
  if stream.readOnly || !topicIsSafe topic then file
  else if lastValidEnd file < file.length then file.take (lastValidEnd file)
  else file

/-! ### Runs -/

/-- The file, the stream while it is open, and the records whose append returned an offset. -/
structure State where
  file : List UInt8
  stream : Option Stream
  acked : List Record

def State.init : State := ⟨[], none, []⟩

inductive Act
  /-- An append; with `some k` a crash comes when it has written `k` bytes. -/
  | append (r : Record) (cut : Option ℕ)
  | reopen (readOnly : Bool)
  | truncate

def State.step (topic : List UInt8) (s : State) : Act → State
  | .append r cut =>
    match s.stream with
    | none => s
    | some stream =>
      match appendRecord stream topic r ⟨s.file, cut⟩, cut with
      | (some n, d), none =>
        { s with file := d.file, acked := if n = 0 then s.acked else s.acked ++ [r] }
      | (_, d), _ => { s with file := d.file, stream := none }
  | .reopen readOnly => { s with stream := some ⟨readOnly⟩ }
  | .truncate =>
    match s.stream with
    | none => s
    | some stream => { s with file := truncateTornTail stream topic s.file }

def State.run (topic : List UInt8) (s : State) (acts : List Act) : State :=
  acts.foldl (State.step topic) s

/-- An append of the record passes all checks and finds room in the file. -/
def accepts (stream : Stream) (topic file : List UInt8) (r : Record) : Bool :=
  !stream.readOnly && r.payload.length ≤ maxPayload && topicIsSafe topic &&
    !hasEventId topic file r.eventId && file.length + r.size ≤ maxOffset

/-- An append that is carried out finds no torn tail. One that is cut after its commit flag was
written, so that it never returns, finds a torn tail. -/
def State.meets (topic : List UInt8) (s : State) : Act → Bool
  | .append r cut =>
    match s.stream with
    | none => true
    | some stream =>
      !accepts stream topic s.file r ||
        match cut with
        | none => !isTorn s.file
        | some k => k ≤ r.size || isTorn s.file
  | .reopen _ => true
  | .truncate => true

def State.meetsAll (topic : List UInt8) : State → List Act → Bool
  | _, [] => true
  | s, a :: acts => s.meets topic a && (s.step topic a).meetsAll topic acts

/-- The iteration from the start delivers the acknowledged records, no event id twice. -/
def State.Delivers (topic : List UInt8) (s : State) : Prop :=
  Iterates topic s.file 0 s.acked ∧ (s.acked.map eventId).Nodup

/-! ### What an append leaves -/

section Append

variable {stream : Stream} {topic : List UInt8} {r : Record} {d : Disk}

/-- The append sets the commit flag. -/
def Commits (stream : Stream) (topic : List UInt8) (r : Record) (d : Disk) : Prop :=
  accepts stream topic d.file r = true ∧ ∀ k, d.left = some k → r.size < k

/-- What an append leaves in the file. -/
inductive Appended (stream : Stream) (topic : List UInt8) (r : Record) (d : Disk) :
    List UInt8 → Prop
  | refused (h : ¬ Commits stream topic r d) : Appended stream topic r d d.file
  | torn (k : ℕ) (hfits : d.file.length + k ≤ maxOffset) (hsafe : topicIsSafe topic = true)
      (h : ¬ Commits stream topic r d) :
      Appended stream topic r d
        (d.file ++ (r.image d.file.length (prevOffset d.file) 0).take k)
  | committed (h : Commits stream topic r d) :
      Appended stream topic r d
        (d.file ++ r.image d.file.length (prevOffset d.file) committedFlags)

/-- An append that returns answers zero when the record is not accepted, and only then. -/
def Answers (stream : Stream) (topic : List UInt8) (r : Record) (d : Disk) (n : ℕ) : Prop :=
  n = 0 ↔ accepts stream topic d.file r = false

/-- Writing at the end of the file: all of it, a part for lack of room, or a part before a crash. -/
lemma sat_pwrite_end {data : List UInt8} {Q : ℕ → Disk → Prop} {C : Disk → Prop}
    (hlen : d.file.length ≤ maxOffset)
    (hfull : d.file.length + data.length ≤ maxOffset → (∀ k, d.left = some k → data.length ≤ k) →
      Q data.length ⟨d.file ++ data, d.left.map (· - data.length)⟩)
    (hshort : ∀ j left, j < data.length → d.file.length + j ≤ maxOffset →
      maxOffset < d.file.length + data.length → Q j ⟨d.file ++ data.take j, left⟩)
    (hcrash : ∀ j, j < data.length → d.file.length + j ≤ maxOffset → d.left = some j →
      C ⟨d.file ++ data.take j, some 0⟩) : (pwrite d.file.length data).Sat d Q C := by
  have hend (bs : List UInt8) : splice d.file d.file.length bs = d.file ++ bs := by
    rw [splice, take_length, drop_eq_nil_of_le (by omega), append_nil]
  obtain hfits | hover := lt_or_ge maxOffset (d.file.length + data.length)
  · -- there is no room for all of it
    have hn : min data.length (maxOffset - d.file.length) = maxOffset - d.file.length := by omega
    simp only [Prog.Sat, pwrite, hn, hend]
    cases hleft : d.left with
    | none => exact hshort _ _ (by omega) (by omega) hfits
    | some k =>
      dsimp only
      split_ifs with hk
      · exact hcrash k (by omega) (by omega) hleft
      · exact hshort _ _ (by omega) (by omega) hfits
  · have hn : min data.length (maxOffset - d.file.length) = data.length := by omega
    simp only [Prog.Sat, pwrite, hn, hend, take_length]
    cases hleft : d.left with
    | none =>
      rw [hleft] at hfull
      exact hfull hover (by simp)
    | some k =>
      dsimp only
      split_ifs with hk
      · exact hcrash k hk (by omega) hleft
      · rw [hleft] at hfull
        exact hfull hover (by rintro _ ⟨⟩; omega)

lemma splice_middle {a b b' c : List UInt8} {pos : ℕ} (hpos : a.length = pos)
    (hlen : b'.length = b.length) : splice (a ++ (b ++ c)) pos b' = a ++ (b' ++ c) := by
  subst hpos
  rw [splice, take_left, hlen, ← append_assoc a b c, append_assoc a b' _]
  congr 2
  exact drop_left' (by simp)

/-- Setting the flags of a record, or only the first byte of them, commits it. -/
lemma splice_flags (file : List UInt8) (r : Record) (offset prev j : ℕ) (hj : 0 < j) :
    splice (file ++ r.image offset prev 0) (file.length + flagsOffset)
      ((le 4 committedFlags.toNat).take j) = file ++ r.image offset prev committedFlags := by
  obtain ⟨more, hmore⟩ := exists_image_eq r offset prev
  have hpos : (file ++ opening).length = file.length + flagsOffset := by
    rw [length_append]
    rfl
  have hset (set rest rest' : List UInt8) (hset : set.length = rest.length) :
      splice (file ++ (opening ++ (rest ++ rest'))) (file.length + flagsOffset) set =
        file ++ (opening ++ (set ++ rest')) := by
    rw [← append_assoc file, splice_middle hpos hset, append_assoc]
  rw [hmore, hmore]
  -- the other bytes of the flags are zero before and after
  match j with
  | 1 => exact hset [1] [0] (0 :: 0 :: 0 :: more) rfl
  | 2 => exact hset [1, 0] [0, 0] (0 :: 0 :: more) rfl
  | 3 => exact hset [1, 0, 0] [0, 0, 0] (0 :: more) rfl
  | j + 4 =>
    have hall : (le 4 committedFlags.toNat).take (j + 4) = [1, 0, 0, 0] :=
      take_of_length_le (Nat.le_add_left 4 j)
    rw [hall]
    exact hset [1, 0, 0, 0] [0, 0, 0, 0] more rfl

/-- Writing the commit flag. A crash either comes before its first byte or finds it set. -/
lemma sat_pwrite_flags {file : List UInt8} {offset prev : ℕ} {left : Option ℕ}
    {Q : ℕ → Disk → Prop} {C : Disk → Prop} (hfits : file.length + r.size ≤ maxOffset)
    (hset : ∀ left', (∀ k, left = some k → 4 ≤ k) →
      Q 4 ⟨file ++ r.image offset prev committedFlags, left'⟩)
    (hunset : left = some 0 → C ⟨file ++ r.image offset prev 0, some 0⟩)
    (hcrash : ∀ k, 0 < k → left = some k → C ⟨file ++ r.image offset prev committedFlags, some 0⟩) :
    (pwrite (file.length + flagsOffset) (le 4 committedFlags.toNat)).Sat
      ⟨file ++ r.image offset prev 0, left⟩ Q C := by
  have hn : min (le 4 committedFlags.toNat).length (maxOffset - (file.length + flagsOffset)) =
      4 := by
    have hsize : r.size = 88 + r.payload.length := rfl
    rw [length_le, flagsOffset]
    omega
  have hfour := splice_flags file r offset prev 4 (by decide)
  simp only [Prog.Sat, pwrite, hn, hfour]
  cases left with
  | none => exact hset _ (by simp)
  | some k =>
    dsimp only
    split_ifs with hk
    · obtain rfl | hpos := Nat.eq_zero_or_pos k
      · have hsame : splice (file ++ r.image offset prev 0) (file.length + flagsOffset) [] =
            file ++ r.image offset prev 0 := by
          rw [splice, append_nil]
          exact take_append_drop _ _
        rw [take_zero, hsame]
        exact hunset rfl
      · rw [splice_flags file r offset prev k hpos]
        exact hcrash k hpos rfl
    · exact hset _ (by rintro _ ⟨⟩; omega)

@[simp]
lemma sat_readFile {Q : List UInt8 → Disk → Prop} {C : Disk → Prop} :
    readFile.Sat d Q C ↔ Q d.file d := Iff.rfl

/-- The rule for appends. -/
lemma sat_appendRecord (hlen : d.file.length ≤ maxOffset) : (appendRecord stream topic r).Sat d
      (fun n d' => Appended stream topic r d d'.file ∧ Answers stream topic r d n)
      (fun d' => Appended stream topic r d d'.file ∧ d.left ≠ none) := by
  have hrefused (h : accepts stream topic d.file r = false) :
      Appended stream topic r d d.file ∧ Answers stream topic r d 0 := by
    refine ⟨.refused fun hc => ?_, by simp [Answers, h]⟩
    rw [hc.1] at h
    cases h
  simp only [appendRecord, Prog.sat_ite, Prog.sat_bind, Prog.sat_pure, sat_readFile]
  refine ⟨fun hro => hrefused (by simp [accepts, hro]), fun hro => ⟨fun hbig => hrefused ?_,
    fun hbig => ⟨fun hdup => hrefused (by simp [accepts, hdup]), fun hdup =>
      ⟨fun hunsafe => hrefused (by simp [accepts, hunsafe]), fun hsafe => ?_⟩⟩⟩⟩
  · simp [accepts, not_le.mpr hbig]
  have haccepts : accepts stream topic d.file r = decide (d.file.length + r.size ≤ maxOffset) := by
    simp [accepts, hro, hdup, hsafe, not_lt.mp hbig]
  rw [Bool.not_eq_false] at hsafe
  have hcut (k : ℕ) (hk : k ≤ r.size) (hleft : d.left = some k) : ¬ Commits stream topic r d :=
    fun hc => absurd (hc.2 k hleft) (by omega)
  have hroom (h : maxOffset < d.file.length + r.size) :
      ¬ Commits stream topic r d ∧ Answers stream topic r d 0 := by
    have hfalse : accepts stream topic d.file r = false := by simp [haccepts, not_le.mpr h]
    exact ⟨fun hc => absurd hc.1 (by simp [hfalse]), by simp [Answers, hfalse]⟩
  have hsize : r.size = headerSize + r.payload.length := rfl
  generalize hprev : prevOffset d.file = prev
  have hhead (j : ℕ) (hj : j ≤ headerSize) : (r.header d.file.length prev 0).encode.take j =
      (r.image d.file.length prev 0).take j := by
    rw [image, take_append_of_le_length (by simpa using hj)]
  have htail (j : ℕ) : (r.header d.file.length prev 0).encode ++ r.payload.take j =
      (r.image d.file.length prev 0).take (headerSize + j) := by
    have hj : headerSize + j = (r.header d.file.length prev 0).encode.length + j := by simp
    rw [image, hj, take_length_add_append]
  refine sat_pwrite_end hlen (fun hfits hleft => ⟨fun hne => ?_, fun _ => ?_⟩)
    (fun j left hj hfits hover => ⟨fun _ => ?_, fun heq => ?_⟩) (fun j hj hfits hleft => ?_)
  all_goals rw [Header.length_encode] at *
  · exact absurd rfl hne
  · have hpos : d.file.length + headerSize =
        (d.file ++ (r.header d.file.length prev 0).encode).length := by simp
    rw [hpos]
    refine sat_pwrite_end (hpos.symm.trans_le hfits)
      (fun hfits' hleft' => ⟨fun hne => ?_, fun _ => ?_⟩)
      (fun j left hj hfits' hover => ⟨fun _ => ?_, fun heq => ?_⟩) (fun j hj hfits' hleft' => ?_)
    all_goals rw [← hpos] at *
    · exact absurd rfl hne
    · have hlast : Commits stream topic r d ↔ ∀ k, d.left = some k → r.size < k := by
        simp only [Commits, haccepts, decide_eq_true_eq]
        exact and_iff_right (by omega)
      have hspent (k : ℕ) (hk : d.left = some k) :
          (d.left.map (· - headerSize)).map (· - r.payload.length) = some (k - r.size) ∧
            r.size ≤ k := by
        have hhdr := hleft k hk
        have hpay := hleft' (k - headerSize) (by simp [hk])
        rw [hk, map_some, map_some, hsize]
        exact ⟨by congr 1; omega, by omega⟩
      rw [append_assoc]
      refine sat_pwrite_flags (by omega)
        (fun left' hall => ⟨fun hne => absurd rfl hne, fun _ => ⟨?_, ?_⟩⟩) ?_ ?_
      · rw [← hprev]
        refine .committed (hlast.mpr fun k hk => ?_)
        have := hall _ (hspent k hk).1
        omega
      · simp only [Answers, haccepts, decide_eq_false_iff_not]
        omega
      · intro hzero
        obtain ⟨k', hk', -⟩ := map_eq_some_iff.mp hzero
        obtain ⟨k, hk, -⟩ := map_eq_some_iff.mp hk'
        have hspent := hspent k hk
        rw [hzero, some_inj] at hspent
        have hall : (r.image d.file.length prev 0).take k = r.image d.file.length prev 0 :=
          take_of_length_le (by rw [length_image]; exact hspent.2)
        rw [← hall, ← hprev]
        exact ⟨.torn k (by omega) hsafe (hcut k (by omega) hk), by simp [hk]⟩
      · intro k hpos hk
        rw [← hprev]
        refine ⟨.committed (hlast.mpr fun k0 hk0 => ?_), fun hnone => ?_⟩
        · have hspent := hspent k0 hk0
          rw [hk, some_inj] at hspent
          omega
        · rw [hnone] at hk
          cases hk
    · rw [append_assoc, htail, ← hprev]
      exact ⟨.torn _ (by omega) hsafe (hroom (by omega)).1, (hroom (by omega)).2⟩
    · exact absurd hj (by omega)
    · rw [append_assoc, htail, ← hprev]
      obtain ⟨k, hk, hj'⟩ := map_eq_some_iff.mp hleft'
      have := hleft k hk
      exact ⟨.torn _ (by omega) hsafe (hcut k (by omega) hk), by simp [hk]⟩
  · rw [hhead j hj.le, ← hprev]
    exact ⟨.torn j hfits hsafe (hroom (by omega)).1, (hroom (by omega)).2⟩
  · exact absurd hj (by omega)
  · rw [hhead j hj.le, ← hprev]
    exact ⟨.torn j hfits hsafe (hcut j (by omega) hleft), by simp [hleft]⟩

end Append

/-! ### Records in the file -/

section Holds

variable {topic file body tail : List UInt8} {r : Record} {rs rs' : List Record} {o e fuel : ℕ}

/-- The record stands committed at an offset of the file. -/
structure RecordAt (file : List UInt8) (o : ℕ) (r : Record) (h : Header) : Prop where
  header : committedAt file o = some h
  schemaId : h.schemaId = r.schemaId
  eventId : h.eventId = r.eventId
  size : h.payloadSize.toNat = r.payload.length
  payload : (file.drop (o + headerSize)).take r.payload.length = r.payload

/-- From an offset to another one the file holds these records. -/
inductive Holds (file : List UInt8) : ℕ → List Record → ℕ → Prop
  | nil (o : ℕ) : Holds file o [] o
  | cons {o e : ℕ} {r : Record} {rs : List Record} {h : Header} (hat : RecordAt file o r h)
      (hrest : Holds file (o + r.size) rs e) : Holds file o (r :: rs) e

section

variable {h : Header} (hat : RecordAt file o r h)
include hat

lemma RecordAt.le_length : o + r.size ≤ file.length := by
  have hheader := add_headerSize_le_of_committedAt hat.header
  have hpayload := congrArg List.length hat.payload
  rw [length_take, length_drop] at hpayload
  rw [Record.size]
  omega

lemma RecordAt.append (more : List UInt8) :
    RecordAt (file ++ more) o r h where
  header := committedAt_append more hat.header
  schemaId := hat.schemaId
  eventId := hat.eventId
  size := hat.size
  payload := by
    have hlen := hat.le_length
    rw [Record.size] at hlen
    rw [drop_append_of_le_length (by omega), take_append_of_le_length, hat.payload]
    rw [length_drop]
    omega

lemma RecordAt.endOffset : h.endOffset = o + r.size := by
  obtain ⟨-, hvalid, -⟩ := committedAt_eq_some_iff.mp hat.header
  simp only [validateHeader, Bool.and_eq_true, decide_eq_true_eq] at hvalid
  rw [Header.endOffset, hvalid.1.2, hat.size, Record.size, add_assoc]

end

lemma Holds.append (hh : Holds file o rs e) (more : List UInt8) : Holds (file ++ more) o rs e := by
  induction hh with
  | nil o => exact .nil o
  | cons hat _ ih => exact .cons (hat.append more) ih

lemma Holds.trans {e' : ℕ} (hh : Holds file o rs e) (hh' : Holds file e rs' e') :
    Holds file o (rs ++ rs') e' := by
  induction hh with
  | nil => exact hh'
  | cons hat _ ih => exact .cons hat (ih hh')

lemma Holds.length_le (hh : Holds file o rs e) : o + rs.length ≤ e := by
  induction hh with
  | nil => simp
  | @cons o e r rs h hat _ ih =>
    have hsize : r.size = 88 + r.payload.length := rfl
    rw [length_cons]
    omega

lemma RecordAt.lt_length {h : Header} (hat : RecordAt file o r h) : o < file.length := by
  have hsize : r.size = 88 + r.payload.length := rfl
  have := hat.le_length
  omega

lemma RecordAt.scan_succ {h : Header} (hat : RecordAt file o r h) :
    scan (fuel + 1) file o = h :: scan fuel file (o + r.size) := by
  rw [scan, if_pos hat.lt_length, hat.header]
  dsimp only
  rw [hat.size, add_assoc, Record.size]

/-- A scan comes by the records that the file holds, and stops after them. -/
lemma Holds.scan_spec (hh : Holds file o rs e) (hstop : committedAt file e = none)
    (hfuel : rs.length ≤ fuel) : (scan fuel file o).map Header.eventId = rs.map eventId ∧
      ((scan fuel file o).getLast?.map Header.endOffset).getD o = e := by
  induction hh generalizing fuel with
  | nil =>
    cases fuel <;> simp [scan, hstop]
  | @cons o e r rs h hat _ ih =>
    obtain ⟨fuel, rfl⟩ : ∃ n, fuel = n + 1 := ⟨fuel - 1, by rw [length_cons] at hfuel; omega⟩
    obtain ⟨hids, hend⟩ := ih hstop (Nat.le_of_succ_le_succ hfuel)
    rw [hat.scan_succ]
    refine ⟨by rw [map_cons, map_cons, hids, hat.eventId], ?_⟩
    rw [getLast?_cons, map_some, getD_some]
    cases hlast : (scan fuel file (o + r.size)).getLast? with
    | none | some => simpa [hlast, hat.endOffset] using hend

lemma RecordAt.iterate {h : Header} (hat : RecordAt file o r h) (hsafe : topicIsSafe topic = true) :
    iterate topic file o = some (h, r.payload, o + r.size) := by
  simp [Event.iterate, hsafe, hat.lt_length, hat.header, hat.size, hat.payload, Record.size,
    add_assoc]

lemma Holds.iterates (hh : Holds file o rs e) (hstop : committedAt file e = none)
    (hsafe : topicIsSafe topic = true) : Iterates topic file o rs := by
  induction hh with
  | nil => exact .done (by simp [iterate, hstop])
  | cons hat _ ih =>
    have hrest := Iterates.next (hat.iterate hsafe) (ih hstop)
    rwa [hat.schemaId, hat.eventId] at hrest

lemma Iterates.eq (h : Iterates topic file o rs) (h' : Iterates topic file o rs') : rs = rs' := by
  induction h generalizing rs' with
  | done hdone =>
    cases h' with
    | done => rfl
    | next hnext => simp [hdone] at hnext
  | next hnext _ ih =>
    cases h' with
    | done hdone => simp [hdone] at hnext
    | next hnext' hrest =>
      rw [hnext, some_inj, Prod.mk.injEq, Prod.mk.injEq] at hnext'
      obtain ⟨rfl, rfl, rfl⟩ := hnext'
      rw [ih hrest]

end Holds

/-! ### The invariant -/

section Kept

variable {topic file file' body tail : List UInt8} {rs : List Record} {r : Record}

/-- The file has the records and after them nothing, or a torn tail. -/
structure Kept (file : List UInt8) (rs : List Record) (body tail : List UInt8) : Prop where
  eq : file = body ++ tail
  holds : Holds body 0 rs body.length
  ended : tail = [] ∨ Torn tail

section

variable (hk : Kept file rs body tail)
include hk

lemma Kept.stop : committedAt file body.length = none := by
  rw [hk.eq]
  obtain rfl | htorn := hk.ended
  · rw [eq_none_iff_forall_ne_some]
    intro h hat
    have := add_headerSize_le_of_committedAt hat
    rw [append_nil, headerSize] at this
    omega
  · simpa using htorn.2 body [] (.inl rfl)

lemma Kept.holds_file : Holds file 0 rs body.length := by
  rw [hk.eq]
  exact hk.holds.append tail

lemma Kept.length_le : rs.length ≤ file.length := by
  have := hk.holds.length_le
  rw [hk.eq, length_append]
  omega

lemma Kept.lastValidEnd : lastValidEnd file = body.length :=
  (hk.holds_file.scan_spec hk.stop hk.length_le).2

lemma Kept.isTorn : isTorn file = true ↔ tail ≠ [] := by
  rw [Event.isTorn, hk.lastValidEnd, decide_eq_true_eq, hk.eq, length_append,
    ← length_pos_iff]
  omega

lemma Kept.hasEventId (hsafe : topicIsSafe topic = true)
    (id : EventId) : hasEventId topic file id = true ↔ id ∈ rs.map eventId := by
  rw [← (hk.holds_file.scan_spec hk.stop hk.length_le).1]
  simp [Event.hasEventId, hsafe, committedHeaders]

lemma Kept.iterates (hsafe : file ≠ [] → topicIsSafe topic = true) : Iterates topic file 0 rs := by
  obtain rfl | hne := eq_or_ne file []
  · have hlen := hk.length_le
    rw [eq_nil_of_length_eq_zero (Nat.le_zero.mp hlen)]
    exact .done (by simp [iterate])
  · exact hk.holds_file.iterates hk.stop (hsafe hne)

lemma Kept.truncate : Kept body rs body [] :=
  ⟨(append_nil _).symm, hk.holds, .inl rfl⟩

/-- Parts of records after a torn tail leave it torn. -/
lemma Kept.append_torn {bs : List UInt8}
    (htorn : Torn (tail ++ bs)) : Kept (file ++ bs) rs body (tail ++ bs) :=
  ⟨by rw [hk.eq, append_assoc], hk.holds, .inr htorn⟩

end

lemma Kept.append_record (hk : Kept file rs body []) (prev : ℕ) (hlen : file.length < 2 ^ 63)
    (hr : r.payload.length ≤ maxPayload) :
    Kept (file ++ r.image file.length prev committedFlags) (rs ++ [r])
      (file ++ r.image file.length prev committedFlags) [] := by
  obtain rfl : file = body := by simpa using hk.eq
  refine ⟨(append_nil _).symm, ?_, .inl rfl⟩
  have hat : RecordAt (file ++ r.image file.length prev committedFlags) file.length r
      (r.header file.length prev committedFlags) := by
    have hsize : (UInt64.ofNat r.payload.length).toNat = r.payload.length :=
      UInt64.toNat_ofNat_of_lt' (by rw [UInt64.size]; unfold maxPayload at hr; omega)
    refine ⟨?_, rfl, rfl, hsize, ?_⟩
    · simpa using committedAt_image file [] r prev hlen hr
    · have hdrop : (file ++ r.image file.length prev committedFlags).drop
          (file.length + headerSize) = r.payload := by
        rw [image, ← append_assoc]
        exact drop_left' (by simp)
      rw [hdrop, take_length]
  refine (hk.holds.append _).trans (.cons hat ?_)
  have hend : file.length + r.size =
      (file ++ r.image file.length prev committedFlags).length := by simp
  rw [hend]
  exact .nil _

end Kept

/-- What holds along the runs that meet the condition: the file has just the records that were
acknowledged. -/
structure Sound (topic file : List UInt8) (rs : List Record) : Prop where
  kept : ∃ body tail, Kept file rs body tail
  safe : file ≠ [] → topicIsSafe topic = true
  nodup : (rs.map eventId).Nodup
  length : file.length ≤ maxOffset

section Sound

variable {stream : Stream} {topic file file' : List UInt8} {rs : List Record} {r : Record}
  {cut : Option ℕ}

lemma Sound.iterates (hs : Sound topic file rs) : Iterates topic file 0 rs := by
  obtain ⟨body, tail, hk⟩ := hs.kept
  exact hk.iterates hs.safe

lemma Sound.truncate (hs : Sound topic file rs) :
    Sound topic (truncateTornTail stream topic file) rs := by
  unfold truncateTornTail
  split_ifs with hrefused htorn
  · exact hs
  · obtain ⟨body, tail, hk⟩ := hs.kept
    have hbody : file.take (lastValidEnd file) = body := by
      rw [hk.lastValidEnd, hk.eq, take_left]
    rw [hbody]
    have hlen := hs.length
    rw [hk.eq, length_append] at hlen
    refine ⟨⟨body, [], hk.truncate⟩, fun _ => ?_, hs.nodup, by omega⟩
    simp only [Bool.or_eq_true, Bool.not_eq_true', not_or, Bool.not_eq_false] at hrefused
    exact hrefused.2
  · exact hs

lemma Commits.safe {d : Disk} (h : Commits stream topic r d) : topicIsSafe topic = true := by
  simp only [Commits, accepts, Bool.and_eq_true] at h
  exact h.1.1.1.2

lemma Commits.length_le {d : Disk} (h : Commits stream topic r d) :
    d.file.length + r.size ≤ maxOffset := by
  simp only [Commits, accepts, Bool.and_eq_true, decide_eq_true_eq] at h
  exact h.1.2

section

variable (hs : Sound topic file rs) (happ : Appended stream topic r ⟨file, cut⟩ file')
include hs happ

/-- An append that does not commit, or that comes after a torn tail, leaves what is delivered. -/
lemma Sound.append_lost (hlost : Commits stream topic r ⟨file, cut⟩ → isTorn file = true) :
    Sound topic file' rs := by
  obtain ⟨body, tail, hk⟩ := hs.kept
  cases happ with
  | refused => exact hs
  | torn k hfits hsafe =>
    dsimp only at hfits ⊢
    have hlen : (file ++ (r.image file.length (prevOffset file) 0).take k).length ≤ maxOffset := by
      rw [length_append, length_take]
      omega
    refine ⟨?_, fun _ => hsafe, hs.nodup, hlen⟩
    have hstarts := starts_take_image r file.length (prevOffset file) k 0
    obtain rfl | hpos := Nat.eq_zero_or_pos k
    · rw [take_zero, append_nil]
      exact hs.kept
    · obtain rfl | htorn := hk.ended
      · exact ⟨_, _, hk.append_torn (torn_take_image r _ _ k hpos)⟩
      · exact ⟨_, _, hk.append_torn (htorn.append hstarts)⟩
  | committed hc =>
    have hlen := hc.length_le
    refine ⟨?_, fun _ => hc.safe, hs.nodup, by simpa using hlen⟩
    have hstarts := starts_take_image r file.length (prevOffset file) r.size committedFlags
    rw [take_of_length_le (by simp)] at hstarts
    obtain rfl | htorn := hk.ended
    · exact absurd (hk.isTorn.mp (hlost hc)) (by simp)
    · exact ⟨_, _, hk.append_torn (htorn.append hstarts)⟩

/-- An append that commits without a torn tail before it adds its record. -/
lemma Sound.append_kept (hcommits : Commits stream topic r ⟨file, cut⟩)
    (htorn : isTorn file = false) :
    Sound topic file' (rs ++ [r]) := by
  obtain ⟨body, tail, hk⟩ := hs.kept
  obtain rfl : tail = [] := by
    by_contra hne
    rw [hk.isTorn.mpr hne] at htorn
    cases htorn
  have hlen := hcommits.length_le
  dsimp only at hlen
  have hchecks := hcommits.1
  simp only [accepts, Bool.and_eq_true, Bool.not_eq_true', decide_eq_true_eq] at hchecks
  cases happ with
  | refused hnot | torn k _ _ hnot => exact absurd hcommits hnot
  | committed hc =>
    refine ⟨⟨_, _, hk.append_record _ ?_ hchecks.1.1.1.2⟩, fun _ => hc.safe, ?_, ?_⟩
    · unfold maxOffset at hlen
      omega
    · rw [map_append, map_singleton]
      refine nodup_append.mpr ⟨hs.nodup, by simp, fun id hid id' hid' heq => ?_⟩
      rw [heq, mem_singleton.mp hid', ← hk.hasEventId hc.safe] at hid
      rw [hchecks.1.2] at hid
      cases hid
    · simpa using hlen

end

end Sound

namespace State

variable {topic : List UInt8} {s : State} {r : Record} {stream : Stream} {cut : Option ℕ}

/-- An append on an open stream that returns, and one that is cut by a crash. -/
lemma step_append (hopen : s.stream = some stream) (hlen : s.file.length ≤ maxOffset) :
    ∃ file', Appended stream topic r ⟨s.file, cut⟩ file' ∧
      s.step topic (.append r cut) =
        if cut = none then
          { s with
            file := file'
            acked := if accepts stream topic s.file r = false then s.acked else s.acked ++ [r] }
        else { s with file := file', stream := none } := by
  have hsat : (appendRecord stream topic r).Sat ⟨s.file, cut⟩ _ _ := sat_appendRecord hlen
  simp only [Prog.Sat] at hsat
  simp only [step, hopen]
  generalize appendRecord stream topic r ⟨s.file, cut⟩ = out at hsat ⊢
  obtain ⟨_ | n, d'⟩ := out
  · obtain ⟨happended, hcut⟩ := hsat
    refine ⟨_, happended, ?_⟩
    rw [if_neg hcut]
  · obtain ⟨happended, hanswer⟩ := hsat
    refine ⟨_, happended, ?_⟩
    cases cut with
    | none =>
      dsimp only
      congr 1
      exact if_congr hanswer rfl rfl
    | some => rfl

/-- The condition in terms of the commit flag. -/
lemma meets_append_iff (hopen : s.stream = some stream) : s.meets topic (.append r cut) = true ↔
      (Commits stream topic r ⟨s.file, cut⟩ → (isTorn s.file = true ↔ cut ≠ none)) := by
  simp only [meets, hopen, Commits]
  cases cut with
  | none => cases accepts stream topic s.file r <;> simp
  | some k =>
    obtain hk | hk := lt_or_ge r.size k
    · cases accepts stream topic s.file r <;> simp [hk, not_le.mpr hk]
    · cases accepts stream topic s.file r <;> simp [hk, not_lt.mpr hk]

lemma commits_none_iff {file : List UInt8} :
    Commits stream topic r ⟨file, none⟩ ↔ accepts stream topic file r = true := by
  simp [Commits]

/-- What an append leaves is sound for some records; these are the acknowledged ones when the
condition is met, and only then. -/
lemma exists_sound_append (hs : Sound topic s.file s.acked) (hopen : s.stream = some stream) :
    ∃ rs, Sound topic (s.step topic (.append r cut)).file rs ∧
      (rs = (s.step topic (.append r cut)).acked ↔ s.meets topic (.append r cut) = true) := by
  obtain ⟨file', happ, hstep⟩ := step_append hopen hs.length
  rw [hstep, meets_append_iff hopen]
  by_cases hkept : Commits stream topic r ⟨s.file, cut⟩ ∧ isTorn s.file = false
  · obtain ⟨hcommits, htorn⟩ := hkept
    refine ⟨s.acked ++ [r], ?_, ?_⟩
    · have hsound := hs.append_kept happ hcommits htorn
      split_ifs <;> exact hsound
    · cases cut with
      | none => simp [commits_none_iff.mp hcommits, htorn]
      | some => simp [hcommits, htorn]
  · refine ⟨s.acked, ?_, ?_⟩
    · have hsound := hs.append_lost happ fun hc => by simpa [hc] using hkept
      split_ifs <;> exact hsound
    · cases cut with
      | none =>
        rw [commits_none_iff] at hkept ⊢
        cases hacc : accepts stream topic s.file r with
        | false => simp
        | true => simp_all
      | some => simpa using hkept

/-- The same for every step. -/
lemma exists_sound_step (hs : Sound topic s.file s.acked) (a : Act) :
    ∃ rs, Sound topic (s.step topic a).file rs ∧
      (rs = (s.step topic a).acked ↔ s.meets topic a = true) := by
  cases hopen : s.stream with
  | none =>
    cases a
    all_goals exact ⟨s.acked, by simpa [step, hopen] using hs, by simp [step, meets, hopen]⟩
  | some =>
    cases a with
    | append => exact exists_sound_append hs hopen
    | reopen => exact ⟨s.acked, hs, by simp [step, meets]⟩
    | truncate =>
      exact ⟨s.acked, by simpa [step, hopen] using hs.truncate, by simp [step, meets, hopen]⟩

/-- From a sound state a run delivers the acknowledged records all along when each of its steps
meets the condition, and only then. -/
lemma delivers_iff_meetsAll (acts : List Act) (hs : Sound topic s.file s.acked) :
    (∀ i ≤ acts.length, (s.run topic (acts.take i)).Delivers topic) ↔
      s.meetsAll topic acts = true := by
  have hdelivers : s.Delivers topic := ⟨hs.iterates, hs.nodup⟩
  induction acts generalizing s with
  | nil => simpa [run, meetsAll] using hdelivers
  | cons a acts ih =>
    have hsplit : (∀ i ≤ (a :: acts).length, (s.run topic ((a :: acts).take i)).Delivers topic) ↔
        ∀ i ≤ acts.length, ((s.step topic a).run topic (acts.take i)).Delivers topic := by
      constructor
      · intro h i hi
        exact h (i + 1) (Nat.succ_le_succ hi)
      · intro h i hi
        cases i with
        | zero => exact hdelivers
        | succ i => exact h i (Nat.le_of_succ_le_succ hi)
    obtain ⟨rs, hsound, hiff⟩ := exists_sound_step hs a
    rw [hsplit, meetsAll, Bool.and_eq_true, ← hiff]
    constructor
    · intro h
      -- in the state after the step there is only one list of records to deliver
      have hrs : rs = (s.step topic a).acked :=
        hsound.iterates.eq (h 0 (Nat.zero_le _)).1
      subst hrs
      exact ⟨rfl, (ih hsound ⟨hsound.iterates, hsound.nodup⟩).mp h⟩
    · rintro ⟨rfl, hall⟩
      exact (ih hsound ⟨hsound.iterates, hsound.nodup⟩).mpr hall

/-- In every state of a run the iteration from the start delivers the acknowledged records, each
event id once, if and only if every append that is accepted finds the file without a torn tail, and
none is cut between its commit flag and its return unless the record is lost after a torn tail. -/
theorem delivered_iff (topic : List UInt8) (acts : List Act) :
    (∀ i ≤ acts.length, (init.run topic (acts.take i)).Delivers topic) ↔
      init.meetsAll topic acts = true := by
  refine delivers_iff_meetsAll acts ⟨⟨[], [], rfl, .nil 0, .inl rfl⟩, ?_, ?_, ?_⟩
  · intro h
    exact absurd rfl h
  · exact nodup_nil
  · exact Nat.zero_le _

end State

namespace Sample

def eventId (b : UInt8) : EventId := ⟨List.replicate eventIdSize b, List.length_replicate⟩

def topic : List UInt8 := [0x65]

def first : Record := ⟨1, eventId 1, [0xa1, 0xa2]⟩

def second : Record := ⟨1, eventId 2, [0xb1]⟩

/-- The first append is cut in its header; the stream is opened again for the second one. -/
def cutThenAppended : State :=
  State.init.run topic
    [.reopen false, .append first (some 20), .reopen false, .append second none]

/-- The second append was acknowledged, and nothing is delivered. -/
theorem acknowledged_event_lost :
    cutThenAppended.acked = [second] ∧ Iterates topic cutThenAppended.file 0 [] ∧
      ¬ cutThenAppended.Delivers topic := by
  have hacked : cutThenAppended.acked = [second] := by decide +kernel
  have hnone : iterate topic cutThenAppended.file 0 = none := by decide +kernel
  have hempty : Iterates topic cutThenAppended.file 0 [] := .done hnone
  refine ⟨hacked, hempty, fun hd => ?_⟩
  have heq := hempty.eq hd.1
  rw [hacked] at heq
  cases heq

/-- With the torn tail cut off before it the second append meets the condition. -/
example : State.init.meetsAll topic
    [.reopen false, .append first (some 20), .reopen false, .truncate, .append second none] =
      true := by
  decide +kernel

end Sample

end Qihse.Event
