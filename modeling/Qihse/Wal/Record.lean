import Qihse.Bytes.Codec

/-!
# Records of the write-ahead log

The on-disk format of `qihse_wal.c`: a packed header of thirty bytes, the key and the value. The
checksum is the exclusive or of separate checksums of the fields.
-/

namespace Qihse.Wal

open Bytes

inductive OpType
  | insert
  | update
  | delete
  | begin
  | commit
  | abort
  | checkpoint
deriving DecidableEq

def OpType.code : OpType → UInt8
  | .insert => 1
  | .update => 2
  | .delete => 3
  | .begin => 4
  | .commit => 5
  | .abort => 6
  | .checkpoint => 7

def OpType.ofCode (b : UInt8) : Option OpType :=
  if b = 1 then some .insert
  else if b = 2 then some .update
  else if b = 3 then some .delete
  else if b = 4 then some .begin
  else if b = 5 then some .commit
  else if b = 6 then some .abort
  else if b = 7 then some .checkpoint
  else none

@[simp]
lemma OpType.ofCode_code (op : OpType) : OpType.ofCode op.code = some op := by
  cases op <;> rfl

/-- `qihse_wal_record_t` with its key and value. The lengths are those of the two byte strings. -/
structure Record where
  lsn : ℕ
  txnId : ℕ
  engineId : UInt8
  op : OpType
  key : List UInt8
  value : List UInt8
deriving DecidableEq

def headerSize : ℕ := 30

def maxKey : ℕ := 4096

def maxValue : ℕ := 16 * 1024 * 1024

def u64Max : ℕ := 2 ^ 64 - 1

/-! ### Checksums -/

/-- One entry of the table that `init_crc32_slice8` fills. -/
def crcEntry (b : UInt32) : UInt32 :=
  (List.range 8).foldl (fun c _ => if c &&& 1 = 1 then (c >>> 1) ^^^ 0xEDB88320 else c >>> 1) b

/-- `qihse_wal_crc32`. The slicing and the carry-less product variants of the source compute the
checksum of the polynomial byte by byte as well. -/
def crc32 (bs : List UInt8) : UInt32 :=
  if bs = [] then 0
  else
    (bs.foldl (fun c b => crcEntry ((c ^^^ b.toUInt32) &&& 0xFF) ^^^ (c >>> 8)) 0xFFFFFFFF) ^^^
      0xFFFFFFFF

/-- The checksum of a record. -/
def Record.checksum (r : Record) : ℕ :=
  (crc32 (le 8 r.lsn) ^^^ crc32 (le 8 r.txnId) ^^^ crc32 [r.engineId] ^^^ crc32 [r.op.code] ^^^
    crc32 (le 4 r.key.length) ^^^ crc32 (le 4 r.value.length) ^^^ crc32 r.key ^^^
    crc32 r.value).toNat

/-! ### Shapes -/

/-- `record_shape_valid`. -/
def shapeValid (txnId : ℕ) (engineId : UInt8) (op : OpType) (keyLen valueLen : ℕ) : Bool :=
  if keyLen > maxKey || valueLen > maxValue then false
  else
    match op with
    | .insert => true
    | .update => true
    | .delete => valueLen = 0
    | .begin => engineId = 0 && keyLen = 0 && valueLen = 0
    | .commit => engineId = 0 && keyLen = 0 && valueLen = 0
    | .abort => engineId = 0 && keyLen = 0 && valueLen = 0
    | .checkpoint => txnId = 0 && engineId = 0 && keyLen = 8 && valueLen = 0

def Record.shapeValid (r : Record) : Bool :=
  Wal.shapeValid r.txnId r.engineId r.op r.key.length r.value.length

/-- The check of a checkpoint record: its key holds a target that is not zero and not past it. -/
def Record.targetValid (r : Record) : Bool :=
  r.op != .checkpoint || (ofLe r.key != 0 && decide (ofLe r.key ≤ r.lsn))

/-! ### Encoding and reading -/

def Record.header (r : Record) : List UInt8 :=
  le 8 r.lsn ++ le 8 r.txnId ++ [r.engineId] ++ [r.op.code] ++ le 4 r.key.length ++
    le 4 r.value.length ++ le 4 r.checksum

def Record.encode (r : Record) : List UInt8 := r.header ++ r.key ++ r.value

def Record.size (r : Record) : ℕ := headerSize + r.key.length + r.value.length

/-- One complete record off the front of a segment, as `qihse_wal_replay` reads it after a record
with number `last`. -/
def readRecord (last : ℕ) : Reader Record := do
  let lsn ← word 8
  let txnId ← word 8
  let engineId ← word 1
  let code ← word 1
  let keyLen ← word 4
  let valueLen ← word 4
  let checksum ← word 4
  check (decide (last < lsn))
  match OpType.ofCode (UInt8.ofNat code) with
  | none => fun _ => none
  | some op => do
    check (shapeValid txnId (UInt8.ofNat engineId) op keyLen valueLen)
    let key ← take keyLen
    let value ← take valueLen
    let r : Record := ⟨lsn, txnId, UInt8.ofNat engineId, op, key, value⟩
    check (decide (r.checksum = checksum))
    check r.targetValid
    return r

/-- The fields of a record are those of their widths, and its shape is one that is written. -/
structure Record.Valid (r : Record) : Prop where
  lsn : r.lsn < 2 ^ 64
  txnId : r.txnId < 2 ^ 64
  shape : r.shapeValid = true
  target : r.targetValid = true

lemma Record.Valid.lengths {r : Record} (h : r.Valid) :
    r.key.length ≤ maxKey ∧ r.value.length ≤ maxValue := by
  have := h.shape
  unfold Record.shapeValid Wal.shapeValid at this
  split_ifs at this with hlen
  simpa only [Bool.or_eq_true, decide_eq_true_eq, not_or, not_lt] using hlen

lemma length_header (r : Record) : r.header.length = headerSize := by
  simp [Record.header, headerSize]

lemma length_encode (r : Record) : r.encode.length = r.size := by
  simp [Record.encode, Record.size, length_header]
  omega

lemma le_one (b : UInt8) : [b] = le 1 b.toNat := by
  simp [le]

/-- A valid record with a higher number than the last one is read back. -/
lemma reads_record {r : Record} (h : r.Valid) {last : ℕ} (hlast : last < r.lsn) :
    Reads (readRecord last) r.encode r := by
  have hkey : r.key.length < 256 ^ 4 := lt_of_le_of_lt h.lengths.1 (by decide)
  have hvalue : r.value.length < 256 ^ 4 := lt_of_le_of_lt h.lengths.2 (by decide)
  have hsum : r.checksum < 256 ^ 4 := UInt32.toNat_lt _
  unfold Record.encode Record.header
  simp only [List.append_assoc, le_one]
  refine (reads_word (lt_of_lt_of_eq h.lsn rfl)).bind ?_
  refine (reads_word (lt_of_lt_of_eq h.txnId rfl)).bind ?_
  refine (reads_word (UInt8.toNat_lt _)).bind ?_
  refine (reads_word (UInt8.toNat_lt _)).bind ?_
  refine (reads_word hkey).bind ?_
  refine (reads_word hvalue).bind ?_
  refine (reads_word hsum).bind ?_
  refine Reads.check (by simpa using hlast) ?_
  simp only [UInt8.ofNat_toNat, OpType.ofCode_code]
  refine Reads.check h.shape ?_
  refine (reads_take r.key).bind ?_
  refine (reads_take r.value).map ?_
  refine Reads.check (by simp) ?_
  exact Reads.check h.target (reads_pure r)

end Qihse.Wal
