import Qihse.Bytes.Codec

/-!
# Records of the event stream

The on-disk format of `qihse_event_stream.c`: a header of eighty-eight bytes with a commit flag, and
the payload. A reader takes a header at an offset of the file, checks it and stops at the first one
that is not valid or not committed. `Torn` is what keeps a reader from going on for good: the front
of a record that was not committed, whatever records are put after it.
-/

namespace Qihse.Event

open Bytes List UInt64

/-! ### Records and headers -/

def eventIdSize : ℕ := 48

/-- The event id is a byte string of fixed length. -/
def EventId : Type := { id : List UInt8 // id.length = eventIdSize }
deriving DecidableEq

/-- What a caller appends. -/
structure Record where
  schemaId : UInt32
  eventId : EventId
  payload : List UInt8
deriving DecidableEq

/-- `qihse_es_record_header_t`. -/
structure Header where
  magic : UInt32
  formatVersion : UInt32
  flags : UInt32
  schemaId : UInt32
  streamOffset : UInt64
  payloadSize : UInt64
  prevRecordOffset : UInt64
  eventId : EventId

def magic : UInt32 := 0x51455354

def formatVersion : UInt32 := 1

def headerSize : ℕ := 88

def maxPayload : ℕ := 16 * 1024 * 1024

def committedFlags : UInt32 := 1

def Header.encode (h : Header) : List UInt8 :=
  le 4 h.magic.toNat ++ (le 4 h.formatVersion.toNat ++ (le 4 h.flags.toNat ++
    (le 4 h.schemaId.toNat ++ (le 8 h.streamOffset.toNat ++ (le 8 h.payloadSize.toNat ++
      (le 8 h.prevRecordOffset.toNat ++ h.eventId.val))))))

@[simp]
lemma Header.length_encode (h : Header) : h.encode.length = headerSize := by
  simp [encode, h.eventId.property, eventIdSize, headerSize]

/-- The header that `qihse_event_stream_append_record` builds. -/
def Record.header (r : Record) (offset prev : ℕ) (flags : UInt32) : Header where
  magic := magic
  formatVersion := formatVersion
  flags := flags
  schemaId := r.schemaId
  streamOffset := ofNat offset
  payloadSize := ofNat r.payload.length
  prevRecordOffset := ofNat prev
  eventId := r.eventId

/-- The record with its header, as it lies in the file. -/
def Record.image (r : Record) (offset prev : ℕ) (flags : UInt32) : List UInt8 :=
  (r.header offset prev flags).encode ++ r.payload

def Record.size (r : Record) : ℕ := headerSize + r.payload.length

@[simp]
lemma Record.length_image (r : Record) (offset prev : ℕ) (flags : UInt32) :
    (r.image offset prev flags).length = r.size := by
  simp [image, size]

/-! ### Reading headers -/

/-- A field of four bytes. -/
def word32 : Reader UInt32 := do
  let n ← word 4
  return UInt32.ofNat n

/-- A field of eight bytes. -/
def word64 : Reader UInt64 := do
  let n ← word 8
  return ofNat n

def readEventId : Reader EventId := fun bs =>
  if h : eventIdSize ≤ bs.length then
    some (⟨bs.take eventIdSize, by simp [h]⟩, bs.drop eventIdSize)
  else none

def readHeader : Reader Header := do
  let magic ← word32
  let formatVersion ← word32
  let flags ← word32
  let schemaId ← word32
  let streamOffset ← word64
  let payloadSize ← word64
  let prevRecordOffset ← word64
  let eventId ← readEventId
  return ⟨magic, formatVersion, flags, schemaId, streamOffset, payloadSize, prevRecordOffset,
    eventId⟩

lemma reads_word32 (n : UInt32) : Reads word32 (le 4 n.toNat) n := by
  have hpure : Reads (pure (UInt32.ofNat n.toNat) : Reader UInt32) [] n := by
    rw [UInt32.ofNat_toNat]
    exact reads_pure n
  exact (reads_word n.toNat_lt).map hpure

lemma reads_word64 (n : UInt64) : Reads word64 (le 8 n.toNat) n := by
  have hpure : Reads (pure (UInt64.ofNat n.toNat) : Reader UInt64) [] n := by
    rw [UInt64.ofNat_toNat]
    exact reads_pure n
  exact (reads_word n.toNat_lt).map hpure

lemma reads_readHeader (h : Header) : Reads readHeader h.encode h := by
  refine (reads_word32 _).bind ((reads_word32 _).bind ((reads_word32 _).bind
    ((reads_word32 _).bind ((reads_word64 _).bind ((reads_word64 _).bind
      ((reads_word64 _).bind ?_))))))
  exact (reads_block h.eventId).map (reads_pure _)

variable {bs rest : List UInt8}

lemma eq_append_of_word32 {n : UInt32} (h : word32.run bs = some (n, rest)) :
    bs = le 4 n.toNat ++ rest := by
  obtain ⟨m, _, hword, hpure⟩ := run_bind_eq_some.mp h
  obtain ⟨rfl, hlt⟩ := eq_append_of_word hword
  obtain ⟨rfl, rfl⟩ := run_pure_eq_some.mp hpure
  rw [UInt32.toNat_ofNat_of_lt' hlt]

lemma eq_append_of_word64 {n : UInt64} (h : word64.run bs = some (n, rest)) :
    bs = le 8 n.toNat ++ rest := by
  obtain ⟨m, _, hword, hpure⟩ := run_bind_eq_some.mp h
  obtain ⟨rfl, hlt⟩ := eq_append_of_word hword
  obtain ⟨rfl, rfl⟩ := run_pure_eq_some.mp hpure
  rw [toNat_ofNat_of_lt' hlt]

variable {h : Header}

/-- A header that was read stands at the front. -/
lemma eq_append_of_readHeader (hread : readHeader.run bs = some (h, rest)) :
    bs = h.encode ++ rest := by
  simp only [readHeader, run_bind_eq_some, run_pure_eq_some] at hread
  obtain ⟨magic, _, hmagic, version, _, hversion, flags, _, hflags, schemaId, _, hschema, offset, _,
    hoffset, size, _, hsize, prev, _, hprev, eventId, _, hid, rfl, rfl⟩ := hread
  rw [eq_append_of_word32 hmagic, eq_append_of_word32 hversion, eq_append_of_word32 hflags,
    eq_append_of_word32 hschema, eq_append_of_word64 hoffset, eq_append_of_word64 hsize,
    eq_append_of_word64 hprev, takes_block _ hid]
  simp [Header.encode]

lemma stable_word32 : Stable word32 := (stable_word 4).bind fun _ => stable_pure _

lemma stable_word64 : Stable word64 := (stable_word 8).bind fun _ => stable_pure _

lemma stable_readHeader : Stable readHeader :=
  stable_word32.bind fun _ => stable_word32.bind fun _ => stable_word32.bind fun _ =>
    stable_word32.bind fun _ => stable_word64.bind fun _ => stable_word64.bind fun _ =>
      stable_word64.bind fun _ => (stable_block _).bind fun _ => stable_pure _

/-! ### Committed records -/

/-- `validate_header`. -/
def validateHeader (h : Header) (expectedOffset : ℕ) : Bool :=
  h.magic = magic && h.formatVersion = formatVersion && h.streamOffset.toNat = expectedOffset &&
    h.payloadSize.toNat ≤ maxPayload

def Header.isCommitted (h : Header) : Bool := h.flags &&& committedFlags ≠ 0

/-- The header that stands at an offset of the file when it is valid and committed; all loops of
the source stop where there is none. -/
def committedAt (file : List UInt8) (offset : ℕ) : Option Header := do
  let (h, _) ← readHeader.run (file.drop offset)
  if validateHeader h offset && h.isCommitted then some h else none

variable {file : List UInt8} {offset : ℕ}

lemma committedAt_eq_some_iff : committedAt file offset = some h ↔
      (∃ rest, readHeader.run (file.drop offset) = some (h, rest)) ∧
        validateHeader h offset = true ∧ h.isCommitted = true := by
  constructor
  · intro heq
    obtain ⟨⟨h', rest⟩, hread, hcheck⟩ := Option.bind_eq_some_iff.mp heq
    dsimp only at hcheck
    split_ifs at hcheck with hvalid
    cases hcheck
    exact ⟨⟨rest, hread⟩, by simpa using hvalid⟩
  · rintro ⟨⟨rest, hread⟩, hvalid, hcommitted⟩
    simp [committedAt, hread, hvalid, hcommitted]

lemma add_headerSize_le_of_committedAt (hat : committedAt file offset = some h) :
    offset + headerSize ≤ file.length := by
  obtain ⟨⟨rest, hread⟩, -⟩ := committedAt_eq_some_iff.mp hat
  have hlen := congrArg List.length (eq_append_of_readHeader hread)
  rw [length_drop, length_append, Header.length_encode] at hlen
  have : headerSize = 88 := rfl
  omega

lemma committedAt_append (more : List UInt8) (hat : committedAt file offset = some h) :
    committedAt (file ++ more) offset = some h := by
  obtain ⟨⟨rest, hread⟩, hvalid⟩ := committedAt_eq_some_iff.mp hat
  rw [committedAt_eq_some_iff]
  refine ⟨⟨rest ++ more, ?_⟩, hvalid⟩
  have hoffset := add_headerSize_le_of_committedAt hat
  rw [drop_append_of_le_length (by omega)]
  exact stable_readHeader _ _ _ more hread

/-- A record that was committed at the end of the file is read back there. -/
lemma committedAt_image (file more : List UInt8) (r : Record) (prev : ℕ)
    (hfile : file.length < 2 ^ 63) (hr : r.payload.length ≤ maxPayload) :
    committedAt (file ++ (r.image file.length prev committedFlags ++ more)) file.length =
      some (r.header file.length prev committedFlags) := by
  rw [committedAt_eq_some_iff]
  have hflags : decide (committedFlags &&& committedFlags ≠ 0) = true := by decide
  refine ⟨⟨r.payload ++ more, ?_⟩, ?_, hflags⟩
  · rw [drop_left, Record.image, append_assoc]
    exact reads_readHeader _ _
  · have hoffset : (ofNat file.length).toNat = file.length :=
      toNat_ofNat_of_lt' (by rw [size]; omega)
    have hsize : (ofNat r.payload.length).toNat = r.payload.length :=
      toNat_ofNat_of_lt' (by rw [size]; unfold maxPayload at hr; omega)
    simp [validateHeader, Record.header, hoffset, hsize, hr]

/-! ### Torn tails -/

/-- The bytes that every record begins with. -/
def opening : List UInt8 := le 4 magic.toNat ++ le 4 formatVersion.toNat

/-- Nothing, or the front of a record. -/
def Starts (bs : List UInt8) : Prop := bs = [] ∨ bs.head? = opening.head?

/-- Bytes at which no reader finds a committed record, whatever records come after them. -/
def Torn (tail : List UInt8) : Prop :=
  tail ≠ [] ∧ ∀ file rest, Starts rest → committedAt (file ++ (tail ++ rest)) file.length = none

lemma Starts.append (hbs : Starts bs) (hrest : Starts rest) : Starts (bs ++ rest) := by
  obtain rfl | hhead := hbs
  · exact hrest
  · right
    cases bs with
    | nil => cases hhead
    | cons => exact hhead

lemma Torn.append {tail : List UInt8} (ht : Torn tail) (hbs : Starts bs) : Torn (tail ++ bs) := by
  refine ⟨by simp [ht.1], fun file rest hrest => ?_⟩
  rw [append_assoc]
  exact ht.2 file _ (hbs.append hrest)

/-- The flags of a record stand after its opening bytes. -/
lemma exists_image_eq (r : Record) (offset prev : ℕ) :
    ∃ more, ∀ flags, r.image offset prev flags = opening ++ (le 4 flags.toNat ++ more) := by
  refine ⟨le 4 r.schemaId.toNat ++ (le 8 (ofNat offset).toNat ++
    (le 8 (ofNat r.payload.length).toNat ++ (le 8 (ofNat prev).toNat ++
      (r.eventId.val ++ r.payload)))), fun flags => ?_⟩
  simp [Record.image, Header.encode, Record.header, opening]

lemma starts_take_image (r : Record) (offset prev k : ℕ) (flags : UInt32) :
    Starts ((r.image offset prev flags).take k) := by
  obtain ⟨more, hmore⟩ := exists_image_eq r offset prev
  cases k with
  | zero => exact .inl rfl
  | succ => exact .inr rfl

/-- Where a committed record is read stand the opening bytes and an odd flag byte. -/
lemma opening_of_committedAt (hat : committedAt file offset = some h) :
    ∃ b more, file.drop offset = opening ++ b :: more ∧ b.toNat % 2 = 1 := by
  obtain ⟨⟨rest, hread⟩, hvalid, hcommitted⟩ := committedAt_eq_some_iff.mp hat
  simp only [validateHeader, Bool.and_eq_true, decide_eq_true_eq] at hvalid
  obtain ⟨more, hmore⟩ : ∃ more, file.drop offset = opening ++ (le 4 h.flags.toNat ++ more) := by
    rw [eq_append_of_readHeader hread, Header.encode, hvalid.1.1.1, hvalid.1.1.2, opening]
    exact ⟨_, rfl⟩
  refine ⟨UInt8.ofNat h.flags.toNat, le 3 (h.flags.toNat / 256) ++ more, hmore, ?_⟩
  · have hodd : h.flags.toNat % 2 = 1 := by
      have hne : h.flags &&& 1 ≠ 0 := of_decide_eq_true hcommitted
      have hmod : (h.flags &&& 1).toNat = h.flags.toNat % 2 := by
        exact Nat.and_one_is_mod _
      have : (h.flags &&& 1).toNat ≠ 0 := fun h0 => hne (UInt32.toNat_inj.mp h0)
      omega
    rw [UInt8.toNat_ofNat']
    omega

/-- The front of a record that was not committed. -/
lemma torn_take_image (r : Record) (offset prev k : ℕ) (hk : 0 < k) :
    Torn ((r.image offset prev 0).take k) := by
  obtain ⟨more, hmore⟩ := exists_image_eq r offset prev
  replace hmore : r.image offset prev 0 = opening ++ (0 :: 0 :: 0 :: 0 :: more) := hmore 0
  refine ⟨by simp [hmore, hk.ne'], fun file rest hrest => ?_⟩
  rw [Option.eq_none_iff_forall_ne_some]
  intro h hat
  obtain ⟨b, more', hdrop, hodd⟩ := opening_of_committedAt hat
  rw [drop_left, hmore] at hdrop
  have hopening : opening = [0x54, 0x53, 0x45, 0x51, 1, 0, 0, 0] := by decide
  -- up to the flag byte the next record comes too early, from there on the flag is not set
  obtain hshort | hlong := lt_or_ge k 9
  · have hnext : rest = (opening ++ b :: more').drop k := by
      rw [← hdrop]
      refine (drop_left' ?_).symm
      simp [hopening]
      omega
    rw [hnext, hopening] at hrest
    obtain hrest | hrest := hrest
    · interval_cases k <;> cases hrest
    · interval_cases k <;> cases hrest
      exact absurd hodd (by decide)
  · have hflag : (opening ++ b :: more')[8]? = some 0 := by
      rw [← hdrop, getElem?_append_left, getElem?_take_of_lt (by omega)]
      · simp [hopening]
      · simp [hopening]
        omega
    have hzero : b = 0 := by simpa [hopening] using hflag
    rw [hzero] at hodd
    exact absurd hodd (by decide)

end Qihse.Event
