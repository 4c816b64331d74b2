import Qihse.Wal.Holds

/-!
# Reopening a log after a crash

`qihse_wal_create` on the directory that a crash leaves, with the bytes it changes there. The crash
may come while a record is being written, at any byte of it and also right after the log went on to
a new segment. A fragment that is shorter than a header is cut off; one that has a full header is
refused, and nothing is changed then.
-/

namespace Qihse.Wal

open Bytes List Option Log

structure Directory where
  closed : List Segment
  current : Segment

namespace Log

/-- The replay of the last segment of a log that is being reopened, from a position in the file: the
records, and the bytes that are left in the file. -/
def recoverSegment : ℕ → ℕ → ℕ → List UInt8 → Option (List Record) × List UInt8
  | 0, _, _, file => (some [], file)
  | fuel + 1, position, last, file =>
    if position = file.length then (some [], file)
    else if file.length - position < headerSize then
      -- `repair_torn_tail`
      (some [], file.take position)
    else
      match (readRecord last).run (file.drop position) with
      | none => (none, file)
      | some (r, rest) =>
        let recovered := recoverSegment fuel (file.length - rest.length) r.lsn file
        (recovered.1.map (r :: ·), recovered.2)

/-- `qihse_wal_create` on a directory with segments: the handle, and the directory after the
call. -/
def reopen (segmentSize : ℕ) (d : Directory) : Option Log × Directory :=
  match scanClosed 0 d.closed with
  | none => (none, d)
  | some rs =>
    let recovered := recoverSegment d.current.bytes.length 0 (lastLsn 0 rs) d.current.bytes
    let d' : Directory := { d with current := { d.current with bytes := recovered.2 } }
    match recovered.1 with
    | none => (none, d')
    | some rs' =>
      if lastLsn 0 (rs ++ rs') = u64Max then (none, d')
      else
        (some { (rs ++ rs').foldl noteMarker
            { segmentSize := segmentSize, nextLsn := 1, lastCheckpointLsn := 0, markerLsn := 0,
              markerTarget := 0, closed := d'.closed, current := d'.current } with
          nextLsn := lastLsn 0 (rs ++ rs') + 1 }, d')

/-! ### Crashes -/

/-- The calls that append a record. -/
inductive Append
  | record (txnId : UInt64) (engineId : UInt8) (op : OpType) (key value : List UInt8)
  | checkpoint (lsn : UInt64)

def perform (w : Log) : Append → Option (Record × Log)
  | .record txnId engineId op key value => w.append txnId.toNat engineId op key value
  | .checkpoint lsn => w.appendCheckpoint lsn.toNat

def directory (w : Log) : Directory := ⟨w.closed, w.current⟩

/-- The directory with only `k` bytes of the record that was written last. -/
def cut (w : Log) (r : Record) (k : ℕ) : Directory where
  closed := w.closed
  current :=
    { w.current with bytes := w.current.bytes.take (w.current.bytes.length - r.size + k) }

/-- A directory that a crash leaves, with `k` bytes of a record that is not complete. -/
inductive Crashed (w : Log) : ℕ → Directory → Prop
  | idle : Crashed w 0 w.directory
  | torn {a : Append} {r : Record} {w' : Log} {k : ℕ} (append : w.perform a = some (r, w'))
      (incomplete : k < r.size) : Crashed w k (w'.cut r k)

/-- The logs of a directory, and the records that were written completely. -/
inductive Reachable : Log → List Record → Prop
  | create (segmentSize : ℕ) : Reachable (create segmentSize) []
  | append {w w' : Log} {rs : List Record} {r : Record} (a : Append) (before : Reachable w rs)
      (append : w.perform a = some (r, w')) : Reachable w' (rs ++ [r])
  | reopen {w w' : Log} {rs : List Record} {k : ℕ} {d d' : Directory} (segmentSize : ℕ)
      (before : Reachable w rs) (crash : w.Crashed k d)
      (reopen : reopen segmentSize d = (some w', d')) : Reachable w' rs

/-! ### The last segment -/

variable {w w' : Log} {rs : List Record} {r : Record}

/-- Complete records are read up to what follows them. -/
lemma recoverSegment_encodeAll (front tail : List UInt8) {fuel last : ℕ}
    (hfuel : (encodeAll rs ++ tail).length ≤ fuel) (hvalid : ∀ r ∈ rs, r.Valid)
    (hasc : Ascending last rs) : ∃ fuel', tail.length ≤ fuel' ∧
      recoverSegment fuel front.length last (front ++ (encodeAll rs ++ tail)) =
        ((recoverSegment fuel' (front ++ encodeAll rs).length (lastLsn last rs)
            (front ++ encodeAll rs ++ tail)).1.map (rs ++ ·),
          (recoverSegment fuel' (front ++ encodeAll rs).length (lastLsn last rs)
            (front ++ encodeAll rs ++ tail)).2) := by
  induction rs generalizing front fuel last with
  | nil =>
    refine ⟨fuel, hfuel, ?_⟩
    simp [encodeAll, lastLsn]
  | cons r rs ih =>
    have henc : encodeAll (r :: rs) = r.encode ++ encodeAll rs := rfl
    have hsize := length_encode r
    rw [Record.size, headerSize] at hsize
    cases fuel with
    | zero =>
      rw [henc] at hfuel
      simp only [length_append] at hfuel
      omega
    | succ fuel =>
      have hread := reads_record (hvalid r mem_cons_self) hasc.cons.1 (encodeAll rs ++ tail)
      have hrest : (encodeAll rs ++ tail).length ≤ fuel := by
        rw [henc] at hfuel
        simp only [length_append] at hfuel ⊢
        omega
      obtain ⟨fuel', hle, hih⟩ := ih (front ++ r.encode) hrest
        (fun q hq => hvalid q (mem_cons_of_mem _ hq)) hasc.cons.2
      refine ⟨fuel', hle, ?_⟩
      have hfile : front ++ (encodeAll (r :: rs) ++ tail) =
          front ++ (r.encode ++ (encodeAll rs ++ tail)) := by
        rw [henc, append_assoc]
      have hposition : (front ++ (r.encode ++ (encodeAll rs ++ tail))).length -
          (encodeAll rs ++ tail).length = (front ++ r.encode).length := by
        simp only [length_append]
        omega
      rw [hfile, recoverSegment, if_neg (by simp only [length_append]; omega),
        if_neg (by simp only [length_append, headerSize]; omega), drop_left, hread]
      dsimp only
      rw [hposition, ← append_assoc, hih, henc, lastLsn_cons, append_assoc front]
      simp only [Option.map_map]
      rfl

/-- Nothing follows. -/
lemma recoverSegment_end (fuel last : ℕ) (file : List UInt8) :
    recoverSegment fuel file.length last file = (some [], file) := by
  cases fuel with
  | zero => rfl
  | succ => rw [recoverSegment, if_pos rfl]

section

variable {fuel last : ℕ} {front tail : List UInt8} (hfuel : tail.length ≤ fuel)
include hfuel

/-- A fragment that is shorter than a header is cut off. -/
lemma recoverSegment_short (htail : tail.length < headerSize) :
    recoverSegment fuel front.length last (front ++ tail) = (some [], front) := by
  by_cases hnil : tail = []
  · rw [hnil, append_nil]
    exact recoverSegment_end fuel last front
  · have hpos := length_pos_iff.mpr hnil
    cases fuel with
    | zero => omega
    | succ =>
      rw [recoverSegment, if_neg (by rw [length_append]; omega),
        if_pos (by rw [length_append]; omega), take_left]

/-- A fragment with a header is refused, and stays. -/
lemma recoverSegment_unread (htail : headerSize ≤ tail.length)
    (hread : (readRecord last).run tail = none) :
    recoverSegment fuel front.length last (front ++ tail) = (none, front ++ tail) := by
  rw [headerSize] at htail
  cases fuel with
  | zero => omega
  | succ =>
    rw [recoverSegment, if_neg (by rw [length_append]; omega),
      if_neg (by rw [length_append, headerSize]; omega), drop_left, hread]

end

lemma stable_readRecord (last : ℕ) : Stable (readRecord last) := by
  refine (stable_word 8).bind fun lsn => (stable_word 8).bind fun txnId =>
    (stable_word 1).bind fun engineId => (stable_word 1).bind fun code =>
    (stable_word 4).bind fun keyLen => (stable_word 4).bind fun valueLen =>
    (stable_word 4).bind fun checksum => (stable_check _).bind fun _ => ?_
  cases OpType.ofCode (UInt8.ofNat code) with
  | none =>
    intro bs a rest more h
    cases h
  | some =>
    exact (stable_check _).bind fun _ => (stable_take keyLen).bind fun key =>
      (stable_take valueLen).bind fun value => (stable_check _).bind fun _ =>
      (stable_check _).bind fun _ => stable_pure _

/-! ### Appends -/

/-- An append writes a record with the next number, perhaps after going on to a new segment. -/
lemma Contains.perform (h : w.Contains rs) {a : Append} (ha : w.perform a = some (r, w')) :
    r.Valid ∧ r.lsn = w.nextLsn ∧ w.nextLsn < u64Max ∧
      ∃ w0 : Log, (w0 = w ∨ w0 = w.rotate) ∧ w0.Contains rs ∧ w' = w0.write r := by
  obtain ⟨txnId, engineId, op, key, value, hid, htarget, ha⟩ : ∃ txnId engineId op key value,
      txnId < 2 ^ 64 ∧ (op = .checkpoint → ofLe key ≠ 0 ∧ ofLe key ≤ w.nextLsn) ∧
        w.appendRaw txnId engineId op key value = some (r, w') := by
    cases a with
    | record txnId =>
      rw [Log.perform, Log.append] at ha
      split_ifs at ha with hop
      exact ⟨_, _, _, _, _, txnId.toNat_lt, fun hc => absurd hc hop, ha⟩
    | checkpoint lsn =>
      rw [Log.perform, Log.appendCheckpoint] at ha
      split_ifs at ha with hbad
      push Not at hbad
      refine ⟨_, _, _, _, _, by decide, fun _ => ?_, ha⟩
      rw [ofLe_le lsn.toNat_lt]
      exact hbad
  obtain ⟨hr, hvalid, hmax, h0⟩ := h.appendRaw_write hid htarget ha
  exact ⟨hvalid, by rw [hr], hmax, h0⟩

/-- A directory that a crash leaves is that of a log, with a fragment of a record behind it. -/
lemma Contains.crashed (h : w.Contains rs) {k : ℕ} {d : Directory} (hd : w.Crashed k d) :
    ∃ w0 : Log, ∃ fragment : List UInt8, w0.Contains rs ∧ fragment.length = k ∧
      d = ⟨w0.closed, { w0.current with bytes := w0.current.bytes ++ fragment }⟩ ∧
      (headerSize ≤ k → (readRecord (lastLsn 0 rs)).run fragment = none) := by
  cases hd with
  | idle => exact ⟨w, [], h, rfl, by rw [append_nil]; rfl, fun hk => by cases hk⟩
  | @torn a r w' k ha hk =>
    obtain ⟨hvalid, hlsn, -, w0, hw0, hcontains, rfl⟩ := h.perform ha
    have hsize := length_encode r
    refine ⟨w0, r.encode.take k, hcontains, ?_, ?_, fun _ => ?_⟩
    · rw [length_take, hsize]
      exact min_eq_left hk.le
    · have hlen : (w0.current.bytes ++ r.encode).length - r.size + k =
          w0.current.bytes.length + k := by
        rw [length_append, hsize]
        omega
      simp only [cut, Log.write, hlen, take_length_add_append]
    · refine (stable_readRecord _).torn (reads_record hvalid ?_) (by rwa [hsize])
      rw [hlsn]
      exact h.lastLsn_lt

/-- Reopening after a crash in the middle of a record. -/
lemma Contains.reopen (h : w.Contains rs) (segmentSize : ℕ) {k : ℕ} {d : Directory}
    (hd : w.Crashed k d) :
    (k < headerSize → ∃ w' d', reopen segmentSize d = (some w', d') ∧ w'.Contains rs) ∧
      (headerSize ≤ k → reopen segmentSize d = (none, d)) := by
  obtain ⟨w0, fragment, h0, rfl, rfl, hread⟩ := h.crashed hd
  obtain ⟨w', hopen, hcontains, -⟩ := h0.openDirectory segmentSize
  have hlast : lastLsn 0 rs ≠ u64Max := (lt_of_lt_of_le h0.lastLsn_lt h0.nextLsn_le).ne
  rw [Log.openDirectory, h0.scan true, bind_some] at hopen
  simp only [if_neg hlast, length_nil, Nat.sub_zero, take_length, some_inj] at hopen
  obtain ⟨segs, cur, hh, rfl⟩ := h0
  obtain ⟨hclosed, hcur⟩ := hh.ascending.append
  have hscan := scanClosed_encodeAll hh.closed
    (fun r hr => hh.valid r (mem_append_left _ hr)) hclosed
  obtain ⟨fuel, hfuel, hrecover⟩ := recoverSegment_encodeAll [] fragment le_rfl
    (fun r hr => hh.valid r (mem_append_right _ hr)) hcur
  rw [nil_append, nil_append, length_nil] at hrecover
  refine ⟨fun hshort => ⟨w', ⟨w0.closed, ⟨w0.current.index, encodeAll cur⟩⟩, ?_,
    hcontains⟩, fun hlong => ?_⟩
  · rw [recoverSegment_short hfuel hshort] at hrecover
    simp only [reopen, hscan, hh.current, hrecover, map_some, append_nil,
      if_neg hlast, ← hopen]
  · rw [lastLsn_append] at hread
    rw [recoverSegment_unread hfuel hlong (hread hlong)] at hrecover
    simp only [reopen, hscan, hh.current, hrecover, map_none]

lemma Reachable.contains (h : Reachable w rs) : w.Contains rs := by
  induction h with
  | create segmentSize => exact contains_create segmentSize
  | append a _ ha ih =>
    obtain ⟨hvalid, hlsn, hmax, w0, rfl | rfl, hcontains, rfl⟩ := ih.perform ha
    all_goals exact hcontains.write hvalid hlsn hmax
  | @reopen w w' rs k d d' segmentSize _ hcrash hreopen ih =>
    obtain ⟨hshort, hlong⟩ := ih.reopen segmentSize hcrash
    rcases lt_or_ge k headerSize with hk | hk
    · obtain ⟨w1, d1, h1, hcontains⟩ := hshort hk
      rw [h1] at hreopen
      cases hreopen
      exact hcontains
    · rw [hlong hk] at hreopen
      cases hreopen

/-- Where a crash leaves less than a header of a record, the log is reopened and replays exactly the
complete records, in the order of their numbers, which are all below the next one. Where it leaves a
header or more, the log is not reopened and the directory stays as it is. -/
theorem reopen_exact_or_refused (h : Reachable w rs) (segmentSize : ℕ) {k : ℕ} {d : Directory}
    (hd : w.Crashed k d) :
    (k < headerSize → ∃ w' d', reopen segmentSize d = (some w', d') ∧ w'.replay 0 = some rs ∧
        (rs.map Record.lsn).Pairwise (· < ·) ∧ ∀ r ∈ rs, r.lsn < w'.nextLsn) ∧
      (headerSize ≤ k → reopen segmentSize d = (none, d)) := by
  obtain ⟨hshort, hlong⟩ := h.contains.reopen segmentSize hd
  refine ⟨fun hk => ?_, hlong⟩
  obtain ⟨w', d', hreopen, hcontains⟩ := hshort hk
  refine ⟨w', d', hreopen, ?_, ?_, fun r hr => hcontains.below hr⟩
  · rw [hcontains.replay]
    simp
  · obtain ⟨segs, cur, hh, rfl⟩ := hcontains
    exact (pairwise_cons.mp hh.ascending).2

namespace Sample

/-- A log with the beginning of a transaction, to which a commit is being written. -/
def begun : Option (Record × Log) := (create 64).perform (.record 7 0 .begin [] [])

theorem reopen_exact_or_refused_begun :
    ∃ r w r' w', begun = some (r, w) ∧ w.perform (.record 7 0 .commit [] []) = some (r', w') ∧
      ∃ w'' d, reopen 64 (w'.cut r' 12) = (some w'', d) ∧ w''.replay 0 = some [r] := by
  obtain ⟨w, hw⟩ : ∃ w, begun = some (⟨1, 7, 0, .begin, [], []⟩, w) := ⟨_, rfl⟩
  obtain ⟨w', hw'⟩ : ∃ w', w.perform (.record 7 0 .commit [] []) =
      some (⟨2, 7, 0, .commit, [], []⟩, w') := by
    cases hw
    exact ⟨_, rfl⟩
  have hreach : Reachable w [⟨1, 7, 0, .begin, [], []⟩] := .append _ (.create 64) hw
  have hcrash : w.Crashed 12 (w'.cut ⟨2, 7, 0, .commit, [], []⟩ 12) := .torn hw' (by decide)
  obtain ⟨w'', d, hreopen, hreplay, -⟩ := (reopen_exact_or_refused hreach 64 hcrash).1 (by decide)
  exact ⟨_, w, _, w', hw, hw', w'', d, hreopen, hreplay⟩

end Sample

end Log

end Qihse.Wal
