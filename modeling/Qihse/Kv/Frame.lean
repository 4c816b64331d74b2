import Qihse.Bytes.Codec
import Qihse.Kv.Data

/-!
# Frames of the key-value log

The binary frames that `wal_append` and `wal_append_replica` write to `wal.log`, and how
`wal_replay_new_record` reads one back.
-/

namespace Qihse.Kv

open Bytes Reads UInt16

def maxKeyLen : ℕ := 65535

def maxValueLen : ℕ := 16 * 1024 * 1024

/-- `fnv1a64_update`. -/
def fnv1a64 (h : UInt64) (bs : List UInt8) : UInt64 :=
  bs.foldl (fun h b => (h ^^^ b.toUInt64) * 1099511628211) h

/-- Which of the two sequenced frames: the magic is `QKV4` for a local mutation and `QKV3` for a
record of a replica. -/
inductive FrameKind
  | localSeq
  | replica

def FrameKind.magic : FrameKind → List UInt8
  | .localSeq => [0x51, 0x4B, 0x56, 0x34]
  | .replica => [0x51, 0x4B, 0x56, 0x33]

namespace Entry

/-- `KV_WAL_OP_SET` or `KV_WAL_OP_DEL`. -/
def op (e : Entry) : ℕ := if e.payload.tombstone then 2 else 1

def flags (e : Entry) : ℕ := if e.payload.tombstone then 1 else 0

/-- The fields of a frame between the magic and the checksum. -/
def frameFields (e : Entry) : List UInt8 :=
  le 1 e.op ++ le 1 e.flags ++ le 2 e.key.length ++ le 4 e.payload.value.length ++
    le 2 e.payload.classification.toNat ++ le 2 e.payload.sciCompartment.toNat ++
    le 8 e.payload.expireTimeMs

/-- `wal_replica_record_crc`: the sequence is added after the key and the value. -/
def crc (e : Entry) : ℕ :=
  (fnv1a64 (fnv1a64 (fnv1a64 (fnv1a64 14695981039346656037 e.frameFields) e.key) e.payload.value)
    (le 8 e.payload.changeSeq)).toNat

def frame (kind : FrameKind) (e : Entry) : List UInt8 :=
  kind.magic ++ e.frameFields ++ le 8 e.payload.changeSeq ++ le 8 e.crc ++ e.key ++ e.payload.value

/-- The fields have their widths, the strings hold no terminator, and a tombstone is empty. -/
structure Framed (e : Entry) : Prop where
  key : e.key ≠ [] ∧ e.key.length ≤ maxKeyLen ∧ 0 ∉ e.key
  value : e.payload.value.length ≤ maxValueLen ∧ 0 ∉ e.payload.value
  expire : e.payload.expireTimeMs < 2 ^ 64
  changeSeq : 0 < e.payload.changeSeq ∧ e.payload.changeSeq < 2 ^ 64
  tombstone : e.payload.tombstone = true → e.payload.value = [] ∧ e.payload.expireTimeMs = 0

end Entry

/-- The part of `wal_replay_new_record` that reads a sequenced frame after its magic and checks
it. -/
def readFrameBody : Reader Entry := do
  let op ← word 1
  let flags ← word 1
  let keyLen ← word 2
  let valLen ← word 4
  let classification ← word 2
  let sci ← word 2
  let expire ← word 8
  let seq ← word 8
  let crc ← word 8
  check ((op = 1 || op = 2) && keyLen != 0 && decide (valLen ≤ maxValueLen) &&
    decide (flags ≤ 1))
  check (!(op = 2 && (valLen != 0 || flags = 0)))
  let key ← take keyLen
  let value ← take valLen
  check (!key.contains 0 && !value.contains 0)
  let e : Entry := ⟨key, ⟨value, expire, seq, ofNat classification, ofNat sci,
    decide (flags = 1)⟩⟩
  -- the checksum covers the operation that was read
  check (decide ((fnv1a64 (fnv1a64 (fnv1a64 (fnv1a64 14695981039346656037
    (le 1 op ++ le 1 flags ++ le 2 keyLen ++ le 4 valLen ++ le 2 classification ++ le 2 sci ++
      le 8 expire)) key) value) (le 8 seq)).toNat = crc))
  check (!(seq = 0 || (op = 2 && (valLen != 0 || expire != 0 || flags = 0)) ||
    (op = 1 && flags != 0)))
  return e

/-- A sequenced frame with its magic. -/
def readFrame : Reader Entry := do
  let magic ← take 4
  check (decide (magic = FrameKind.magic .localSeq ∨ magic = FrameKind.magic .replica))
  readFrameBody

lemma stable_readFrame : Stable readFrame := by
  refine (stable_take 4).bind fun magic => (stable_check _).bind fun _ => ?_
  refine (stable_word 1).bind fun op => (stable_word 1).bind fun flags => ?_
  refine (stable_word 2).bind fun keyLen => (stable_word 4).bind fun valLen => ?_
  refine (stable_word 2).bind fun classification => (stable_word 2).bind fun sci => ?_
  refine (stable_word 8).bind fun expire => (stable_word 8).bind fun seq => ?_
  refine (stable_word 8).bind fun crc => (stable_check _).bind fun _ => ?_
  refine (stable_check _).bind fun _ => (stable_take _).bind fun key => ?_
  refine (stable_take _).bind fun value => (stable_check _).bind fun _ => ?_
  exact (stable_check _).bind fun _ => (stable_check _).bind fun _ => stable_pure _

namespace Entry

variable {e : Entry}

lemma Framed.flags_le (e : Entry) : e.flags ≤ 1 := by
  unfold flags
  split_ifs <;> decide

/-- A frame is read back. -/
lemma reads_frame (h : e.Framed) (kind : FrameKind) : Reads readFrame (e.frame kind) e := by
  have hkey : e.key.length < 256 ^ 2 := lt_of_le_of_lt h.key.2.1 (by decide)
  have hvalue : e.payload.value.length < 256 ^ 4 := lt_of_le_of_lt h.value.1 (by decide)
  have hcrc : e.crc < 256 ^ 8 := UInt64.toNat_lt _
  have hop : e.op < 256 ^ 1 := by
    unfold op
    split_ifs <;> decide
  have hflags : e.flags < 256 ^ 1 := lt_of_le_of_lt (Framed.flags_le e) (by decide)
  have hclass : e.payload.classification.toNat < 256 ^ 2 := UInt16.toNat_lt _
  have hsci : e.payload.sciCompartment.toNat < 256 ^ 2 := UInt16.toNat_lt _
  unfold frame frameFields
  simp only [List.append_assoc]
  refine bind (a := kind.magic) (reads_take_of_length (by cases kind <;> rfl)) ?_
  refine check (by cases kind <;> simp) ?_
  refine (reads_word hop).bind ?_
  refine (reads_word hflags).bind ?_
  refine (reads_word hkey).bind ?_
  refine (reads_word hvalue).bind ?_
  refine (reads_word hclass).bind ?_
  refine (reads_word hsci).bind ?_
  refine (reads_word (lt_of_lt_of_eq h.expire rfl)).bind ?_
  refine (reads_word (lt_of_lt_of_eq h.changeSeq.2 rfl)).bind ?_
  refine (reads_word hcrc).bind ?_
  have hseq : e.payload.changeSeq ≠ 0 := h.changeSeq.1.ne'
  refine check ?_ ?_
  · cases ht : e.payload.tombstone <;> simp [op, flags, ht, h.key.1, h.value.1]
  refine check ?_ ?_
  · cases ht : e.payload.tombstone with
    | false => simp [op, ht]
    | true => simp [op, flags, ht, (h.tombstone ht).1]
  refine (reads_take e.key).bind ?_
  refine (reads_take e.payload.value).map ?_
  refine check ?_ ?_
  · simp [h.key.2.2, h.value.2]
  refine check ?_ ?_
  · simp [crc, frameFields]
  refine check ?_ ?_
  · cases ht : e.payload.tombstone with
    | false => simp [op, flags, ht, hseq]
    | true => simp [op, flags, ht, hseq, h.tombstone ht]
  have hflag : decide (e.flags = 1) = e.payload.tombstone := by
    cases ht : e.payload.tombstone <;> simp [flags, ht]
  rw [hflag, UInt16.ofNat_toNat, UInt16.ofNat_toNat]
  exact reads_pure e

end Entry

end Qihse.Kv
