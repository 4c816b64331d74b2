import Qihse.Wal.Record

/-!
# The write-ahead log

Appending with segment rotation, replay, reopening and checkpoints of `qihse_wal.c`. A log is its
handle together with the directory: the closed segments in index order and the segment being
written. The functions are those of a writer whose writes and synchronisations succeed.
-/

namespace Qihse.Wal

open Bytes

structure Segment where
  index : ℕ
  bytes : List UInt8

structure Log where
  segmentSize : ℕ
  nextLsn : ℕ
  lastCheckpointLsn : ℕ
  markerLsn : ℕ
  markerTarget : ℕ
  closed : List Segment
  current : Segment

namespace Log

/-- `seg_rotate`. -/
def rotate (w : Log) : Log :=
  { w with closed := w.closed ++ [w.current], current := ⟨w.current.index + 1, []⟩ }

/-- The log after a record has been written to its current segment. -/
def write (w : Log) (r : Record) : Log :=
  { w with
    nextLsn := w.nextLsn + 1
    current := { w.current with bytes := w.current.bytes ++ r.encode }
    markerLsn := if r.op = .checkpoint then r.lsn else w.markerLsn
    markerTarget := if r.op = .checkpoint then ofLe r.key else w.markerTarget }

/-- `wal_append_raw`: the record that was written, or `none` where the result is 0. -/
def appendRaw (w : Log) (txnId : ℕ) (engineId : UInt8) (op : OpType) (key value : List UInt8) :
    Option (Record × Log) :=
  if !shapeValid txnId engineId op key.length value.length || decide (w.nextLsn = u64Max) then none
  else
    let r : Record := ⟨w.nextLsn, txnId, engineId, op, key, value⟩
    let w := if w.current.bytes.length + r.size > w.segmentSize ∧ 0 < w.current.bytes.length
      then w.rotate else w
    some (r, w.write r)

/-- `qihse_wal_append`. -/
def append (w : Log) (txnId : ℕ) (engineId : UInt8) (op : OpType) (key value : List UInt8) :
    Option (Record × Log) :=
  if op = .checkpoint then none else w.appendRaw txnId engineId op key value

/-- `qihse_wal_append_checkpoint`. -/
def appendCheckpoint (w : Log) (lsn : ℕ) : Option (Record × Log) :=
  if lsn = 0 ∨ w.nextLsn < lsn then none else w.appendRaw 0 0 .checkpoint (le 8 lsn) []

/-! ### Replay -/

/-- The records of a segment that follow number `last`, and the bytes of a torn tail. Only the
last segment of a log that is being reopened may end in one. -/
def scanSegment (repair : Bool) : ℕ → ℕ → List UInt8 → Option (List Record × List UInt8)
  | 0, _, _ => some ([], [])
  | fuel + 1, last, bs =>
    if bs = [] then some ([], [])
    else if bs.length < headerSize then if repair then some ([], bs) else none
    else
      match (readRecord last).run bs with
      | none => none
      | some (r, rest) =>
        (scanSegment repair fuel r.lsn rest).map fun (rs, torn) => (r :: rs, torn)

/-- The number that the segment after some records has to exceed. -/
def lastLsn (last : ℕ) (rs : List Record) : ℕ := (rs.getLast?).elim last Record.lsn

def scanClosed (last : ℕ) : List Segment → Option (List Record)
  | [] => some []
  | s :: ss =>
    (scanSegment false s.bytes.length last s.bytes).bind fun (rs, _) =>
      (scanClosed (lastLsn last rs) ss).map (rs ++ ·)

/-- The records of a directory, and the torn tail of its last segment. -/
def scan (recovering : Bool) (closed : List Segment) (current : Segment) :
    Option (List Record × List UInt8) :=
  (scanClosed 0 closed).bind fun rs =>
    (scanSegment recovering current.bytes.length (lastLsn 0 rs) current.bytes).map
      fun (rs', torn) => (rs ++ rs', torn)

/-- `qihse_wal_replay`: the records that its callback is given, or `none` for the result −1. The
callbacks of the source stop a replay only when they run out of memory. -/
def replay (w : Log) (start : ℕ) : Option (List Record) :=
  (scan false w.closed w.current).map fun (rs, _) => rs.filter fun r => decide (start ≤ r.lsn)

/-- The state that `wal_scan_lsn` takes from a record of a log that is reopened. -/
def noteMarker (w : Log) (r : Record) : Log :=
  if r.op = .checkpoint then
    { w with markerLsn := r.lsn, markerTarget := ofLe r.key, lastCheckpointLsn := ofLe r.key }
  else w

/-- `qihse_wal_create` on a directory. -/
def openDirectory (segmentSize : ℕ) (closed : List Segment) (current : Segment) : Option Log :=
  (scan true closed current).bind fun (rs, torn) =>
    if lastLsn 0 rs = u64Max then none
    else
      let kept := current.bytes.take (current.bytes.length - torn.length)
      some { rs.foldl noteMarker
          { segmentSize := segmentSize, nextLsn := 1, lastCheckpointLsn := 0, markerLsn := 0,
            markerTarget := 0, closed := closed, current := { current with bytes := kept } } with
        nextLsn := lastLsn 0 rs + 1 }

/-- `qihse_wal_create` on an empty directory. -/
def create (segmentSize : ℕ) : Log where
  segmentSize := segmentSize
  nextLsn := 1
  lastCheckpointLsn := 0
  markerLsn := 0
  markerTarget := 0
  closed := []
  current := ⟨0, []⟩

/-! ### Checkpoints -/

/-- The header of a record, its payload skipped, as `segment_last_lsn` reads it. -/
def skipRecord (last : ℕ) : Reader ℕ := do
  let lsn ← word 8
  let _ ← take 10
  let keyLen ← word 4
  let valueLen ← word 4
  let _ ← take 4
  check (decide (last < lsn) && decide (keyLen ≤ maxKey) && decide (valueLen ≤ maxValue))
  let _ ← take (keyLen + valueLen)
  return lsn

/-- `segment_last_lsn`. -/
def segmentLastLsn : ℕ → ℕ → List UInt8 → Option ℕ
  | 0, last, _ => some last
  | fuel + 1, last, bs =>
    if bs = [] then some last
    else
      match (skipRecord last).run bs with
      | none => none
      | some (lsn, rest) => segmentLastLsn fuel lsn rest

/-- The closed segments that survive a checkpoint: those with a record at or past it. -/
def keepSegments (lsn : ℕ) : List Segment → Option (List Segment)
  | [] => some []
  | s :: ss =>
    (segmentLastLsn s.bytes.length 0 s.bytes).bind fun last =>
      (keepSegments lsn ss).map fun kept => if last < lsn then kept else s :: kept

/-- `qihse_wal_checkpoint`. -/
def checkpoint (w : Log) (lsn : ℕ) : Option Log :=
  if lsn = 0 then none
  else
    match w.replay 0 with
    | none => none
    | some _ =>
      if w.markerTarget ≠ lsn ∨ w.markerLsn < lsn ∨ w.nextLsn ≤ lsn ∨ lsn < w.lastCheckpointLsn
      then none
      else
        (keepSegments lsn w.closed).map fun kept =>
          { w with closed := kept, lastCheckpointLsn := lsn }

end Log

end Qihse.Wal
