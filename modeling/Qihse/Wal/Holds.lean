import Qihse.Wal.Log

/-!
# What a log contains

`Log.Holds` relates the bytes of a directory to the records in them: each segment is the
concatenation of the encodings of its records, and their numbers go up. A log that contains
records is scanned back to exactly those records, appending adds one at the end, and a checkpoint
drops only records that lie before it.
-/

namespace Qihse.Wal

open Bytes List Record Log
open scoped List

def encodeAll (rs : List Record) : List UInt8 := rs.flatMap encode

/-- Numbers that go up from `last`. -/
def Ascending (last : ℕ) (rs : List Record) : Prop :=
  (last :: rs.map lsn).Pairwise (· < ·)

lemma Ascending.cons {last : ℕ} {r : Record} {rs : List Record} (h : Ascending last (r :: rs)) :
    last < r.lsn ∧ Ascending r.lsn rs := by
  unfold Ascending at h
  rw [pairwise_cons] at h
  exact ⟨h.1 r.lsn (by simp), h.2⟩

lemma lastLsn_cons (last : ℕ) (r : Record) (rs : List Record) :
    lastLsn last (r :: rs) = lastLsn r.lsn rs := by
  unfold lastLsn
  rw [getLast?_cons]
  cases rs.getLast? <;> rfl

lemma lastLsn_append (last : ℕ) (rs rs' : List Record) :
    lastLsn last (rs ++ rs') = lastLsn (lastLsn last rs) rs' := by
  induction rs generalizing last with
  | nil => rfl
  | cons r rs ih => rw [cons_append, lastLsn_cons, lastLsn_cons, ih]

lemma Ascending.append {last : ℕ} {rs rs' : List Record} (h : Ascending last (rs ++ rs')) :
    Ascending last rs ∧ Ascending (lastLsn last rs) rs' := by
  induction rs generalizing last with
  | nil => exact ⟨pairwise_singleton _ _, h⟩
  | cons r rs ih =>
    obtain ⟨hlt, hrest⟩ := h.cons
    obtain ⟨h1, h2⟩ := ih hrest
    refine ⟨?_, by rwa [lastLsn_cons]⟩
    refine h.sublist (cons_sublist_cons.mpr ?_)
    exact (sublist_append_left (r :: rs) rs').map _

lemma Ascending.concat {last : ℕ} {r : Record} {rs : List Record} (h : Ascending last rs)
    (hlast : last < r.lsn) (hbelow : ∀ q ∈ rs, q.lsn < r.lsn) : Ascending last (rs ++ [r]) := by
  unfold Ascending
  rw [map_append, ← cons_append, pairwise_append]
  refine ⟨h, pairwise_singleton _ _, ?_⟩
  intro a ha b hb
  simp only [map_cons, map_nil, mem_singleton] at hb
  subst hb
  obtain rfl | ha := mem_cons.mp ha
  · exact hlast
  · obtain ⟨q, hq, rfl⟩ := mem_map.mp ha
    exact hbelow q hq

lemma encode_ne_nil (r : Record) : r.encode ≠ [] := by
  intro h
  have := congrArg List.length h
  rw [length_encode] at this
  simp [size, headerSize] at this

namespace Log

/-- Induction over the records of a segment, with fuel for the bytes of each. -/
lemma segment_induction {motive : ℕ → ℕ → List Record → Prop}
    (nil : ∀ fuel last, motive fuel last []) (cons : ∀ {fuel last r rs}, r.Valid → last < r.lsn →
      motive fuel r.lsn rs → motive (fuel + 1) last (r :: rs)) {fuel last : ℕ} {rs : List Record}
    (hfuel : (encodeAll rs).length ≤ fuel) (hvalid : ∀ r ∈ rs, r.Valid)
    (hasc : Ascending last rs) : motive fuel last rs := by
  induction rs generalizing fuel last with
  | nil => exact nil fuel last
  | cons r rs ih =>
    have hlen : (encodeAll rs).length + headerSize ≤ (encodeAll (r :: rs)).length := by
      change _ ≤ (r.encode ++ encodeAll rs).length
      rw [length_append, length_encode, size]
      omega
    rw [headerSize] at hlen
    obtain ⟨fuel, rfl⟩ : ∃ k, fuel = k + 1 := ⟨fuel - 1, by omega⟩
    exact cons (hvalid r (by simp)) hasc.cons.1 (ih (by omega)
      (fun q hq => hvalid q (mem_cons_of_mem _ hq)) hasc.cons.2)

lemma scanSegment_encodeAll {repair : Bool} {fuel last : ℕ} {rs : List Record}
    (hfuel : (encodeAll rs).length ≤ fuel) (hvalid : ∀ r ∈ rs, r.Valid)
    (hasc : Ascending last rs) : scanSegment repair fuel last (encodeAll rs) = some (rs, []) := by
  refine segment_induction (motive := fun fuel last rs =>
    scanSegment repair fuel last (encodeAll rs) = some (rs, [])) ?_ ?_ hfuel hvalid hasc
  · intro fuel last
    cases fuel <;> rfl
  · intro fuel last r rs hr hlt ih
    have henc : encodeAll (r :: rs) = r.encode ++ encodeAll rs := rfl
    unfold scanSegment
    rw [henc, if_neg (by simp [encode_ne_nil r]), reads_record hr hlt,
      if_neg (by simp [length_encode, size, add_assoc])]
    simp [ih]

lemma scanClosed_encodeAll {segs : List (List Record)} {closed : List Segment} {last : ℕ}
    (hbytes : closed.map Segment.bytes = segs.map encodeAll)
    (hvalid : ∀ r ∈ segs.flatten, r.Valid) (hasc : Ascending last segs.flatten) :
    scanClosed last closed = some segs.flatten := by
  induction closed generalizing segs last with
  | nil =>
    have : segs = [] := by simpa using hbytes.symm
    subst this
    rfl
  | cons s ss ih =>
    cases segs with
    | nil => simp at hbytes
    | cons rs =>
      simp only [map_cons, List.cons.injEq] at hbytes
      obtain ⟨h1, h2⟩ := hasc.append
      have hseg : scanSegment false s.bytes.length last s.bytes = some (rs, []) := by
        rw [hbytes.1]
        exact scanSegment_encodeAll (le_refl _) (fun r hr => hvalid r (by simp [hr])) h1
      have hrest := ih hbytes.2 (fun r hr => hvalid r (mem_append_right _ hr)) h2
      simp [scanClosed, hseg, hrest]

/-- The segments of the log are the encodings of the given records. -/
structure Holds (w : Log) (segs : List (List Record)) (cur : List Record) : Prop where
  closed : w.closed.map Segment.bytes = segs.map encodeAll
  current : w.current.bytes = encodeAll cur
  valid : ∀ r ∈ segs.flatten ++ cur, r.Valid
  ascending : Ascending 0 (segs.flatten ++ cur)
  below : ∀ r ∈ segs.flatten ++ cur, r.lsn < w.nextLsn
  nextLsn : 0 < w.nextLsn ∧ w.nextLsn ≤ u64Max

/-- The log contains these records, in this order. -/
def Contains (w : Log) (rs : List Record) : Prop :=
  ∃ segs cur, w.Holds segs cur ∧ segs.flatten ++ cur = rs

variable {w w' : Log} {rs : List Record} {r : Record}

lemma contains_create (segmentSize : ℕ) : (create segmentSize).Contains [] :=
  ⟨[], [], ⟨rfl, rfl, by simp, pairwise_singleton _ _, by simp, Nat.one_pos,
    show 1 ≤ u64Max by decide⟩, rfl⟩

section

variable (h : w.Contains rs)
include h

lemma Contains.scan (recovering : Bool) : scan recovering w.closed w.current = some (rs, []) := by
  obtain ⟨segs, cur, hh, rfl⟩ := h
  obtain ⟨h1, h2⟩ := hh.ascending.append
  have hclosed := scanClosed_encodeAll hh.closed
    (fun r hr => hh.valid r (mem_append_left _ hr)) h1
  have hcur : scanSegment recovering w.current.bytes.length (lastLsn 0 segs.flatten)
      w.current.bytes = some (cur, []) := by
    rw [hh.current]
    exact scanSegment_encodeAll (le_refl _) (fun r hr => hh.valid r (mem_append_right _ hr)) h2
  simp [scan, hclosed, hcur]

/-- A replay delivers the records from the start number on. -/
lemma Contains.replay (start : ℕ) :
    w.replay start = some (rs.filter fun r => decide (start ≤ r.lsn)) := by
  simp [Log.replay, h.scan false]

lemma Contains.rotate : w.rotate.Contains rs := by
  obtain ⟨segs, cur, hh, rfl⟩ := h
  have hflat : (segs ++ [cur]).flatten ++ [] = segs.flatten ++ cur := by simp
  refine ⟨segs ++ [cur], [], ⟨?_, rfl, ?_, ?_, ?_, hh.nextLsn⟩, hflat⟩
  · simp [rotate, hh.closed, hh.current]
  · rw [hflat]
    exact hh.valid
  · rw [hflat]
    exact hh.ascending
  · rw [hflat]
    exact hh.below

/-- Writing adds a record with the next number at the end. -/
lemma Contains.write (hvalid : r.Valid) (hlsn : r.lsn = w.nextLsn)
    (hmax : w.nextLsn < u64Max) : (w.write r).Contains (rs ++ [r]) := by
  obtain ⟨segs, cur, hh, rfl⟩ := h
  have hflat : segs.flatten ++ (cur ++ [r]) = segs.flatten ++ cur ++ [r] := by simp
  refine ⟨segs, cur ++ [r], ⟨hh.closed, ?_, ?_, ?_, ?_, Nat.succ_pos _, hmax⟩, hflat⟩
  · simp [write, hh.current, encodeAll]
  · rw [hflat]
    exact forall_mem_append.mpr ⟨hh.valid, forall_mem_singleton.mpr hvalid⟩
  · rw [hflat]
    exact hh.ascending.concat (hlsn ▸ hh.nextLsn.1) (hlsn ▸ hh.below)
  · rw [hflat]
    exact forall_mem_append.mpr ⟨fun q hq => Nat.lt_succ_of_lt (hh.below q hq),
      forall_mem_singleton.mpr (hlsn.trans_lt (Nat.lt_succ_self _))⟩

lemma Contains.nextLsn_le : w.nextLsn ≤ u64Max := by
  obtain ⟨segs, cur, hh, -⟩ := h
  exact hh.nextLsn.2

lemma Contains.nextLsn_pos : 0 < w.nextLsn := by
  obtain ⟨segs, cur, hh, -⟩ := h
  exact hh.nextLsn.1

lemma Contains.below (hr : r ∈ rs) : r.lsn < w.nextLsn := by
  obtain ⟨segs, cur, hh, rfl⟩ := h
  exact hh.below r hr

end

/-- What a successful append does. -/
structure Appended (w w' : Log) (r : Record) : Prop where
  nextLsn : w'.nextLsn = w.nextLsn + 1
  lastCheckpointLsn : w'.lastCheckpointLsn = w.lastCheckpointLsn
  marker : r.op = .checkpoint → w'.markerLsn = r.lsn ∧ w'.markerTarget = ofLe r.key

section

variable (h : w.Contains rs) {txnId : ℕ} {engineId : UInt8} {op : OpType} {key value : List UInt8}
  (hid : txnId < 2 ^ 64) (htarget : op = .checkpoint → ofLe key ≠ 0 ∧ ofLe key ≤ w.nextLsn)
  (ha : w.appendRaw txnId engineId op key value = some (r, w'))
include h hid htarget ha

/-- A record is written to the current segment, or to the next one. -/
lemma Contains.appendRaw_write :
    r = ⟨w.nextLsn, txnId, engineId, op, key, value⟩ ∧ r.Valid ∧ w.nextLsn < u64Max ∧
      ∃ w0 : Log, (w0 = w ∨ w0 = w.rotate) ∧ w0.Contains rs ∧ w' = w0.write r := by
  unfold appendRaw at ha
  split_ifs at ha with hbad
  simp only [Bool.or_eq_true, Bool.not_eq_true', decide_eq_true_eq, not_or,
    Bool.not_eq_false] at hbad
  obtain ⟨rfl, rfl⟩ := ha
  have hmax : w.nextLsn < u64Max := lt_of_le_of_ne h.nextLsn_le hbad.2
  refine ⟨rfl, ⟨lt_of_lt_of_le hmax (by decide), hid, hbad.1, ?_⟩, hmax, ?_⟩
  · by_cases hop : op = .checkpoint
    · have := htarget hop
      simp [targetValid, this]
    · simp [targetValid, hop]
  · split_ifs with hrot
    · exact ⟨w.rotate, .inr rfl, h.rotate, rfl⟩
    · exact ⟨w, .inl rfl, h, rfl⟩

lemma Contains.appendRaw :
    r = ⟨w.nextLsn, txnId, engineId, op, key, value⟩ ∧ w'.Contains (rs ++ [r]) ∧
      Appended w w' r := by
  obtain ⟨hr, hvalid, hmax, w0, hw0, hcontains, rfl⟩ := h.appendRaw_write hid htarget ha
  have hlsn : r.lsn = w.nextLsn := by rw [hr]
  have hmarker : r.op = .checkpoint →
      (w0.write r).markerLsn = r.lsn ∧ (w0.write r).markerTarget = ofLe r.key := fun hop =>
    ⟨if_pos hop, if_pos hop⟩
  refine ⟨hr, ?_⟩
  rcases hw0 with rfl | rfl <;> exact ⟨hcontains.write hvalid hlsn hmax, rfl, rfl, hmarker⟩

end

/-! ### Checkpoints -/

lemma reads_skipRecord {last : ℕ} (hvalid : r.Valid) (hlast : last < r.lsn) :
    Reads (skipRecord last) r.encode r.lsn := by
  have hkey : r.key.length < 256 ^ 4 := lt_of_le_of_lt hvalid.lengths.1 (by decide)
  have hvalue : r.value.length < 256 ^ 4 := lt_of_le_of_lt hvalid.lengths.2 (by decide)
  have hshape : r.encode = le 8 r.lsn ++ ((le 8 r.txnId ++ [r.engineId] ++ [r.op.code]) ++
      (le 4 r.key.length ++ (le 4 r.value.length ++ (le 4 r.checksum ++ (r.key ++ r.value))))) := by
    simp [encode, header]
  rw [hshape]
  refine (reads_word (lt_of_lt_of_eq hvalid.lsn rfl)).bind ?_
  refine (reads_take_of_length (by simp)).bind ?_
  refine (reads_word hkey).bind ?_
  refine (reads_word hvalue).bind ?_
  refine (reads_take_of_length (length_le _ _)).bind ?_
  refine Reads.check (by simp [hlast, hvalid.lengths.1, hvalid.lengths.2]) ?_
  exact (reads_take_of_length (by simp)).map (reads_pure _)

lemma segmentLastLsn_encodeAll {fuel last : ℕ} (hfuel : (encodeAll rs).length ≤ fuel)
    (hvalid : ∀ r ∈ rs, r.Valid) (hasc : Ascending last rs) :
    segmentLastLsn fuel last (encodeAll rs) = some (lastLsn last rs) := by
  refine segment_induction (motive := fun fuel last rs =>
    segmentLastLsn fuel last (encodeAll rs) = some (lastLsn last rs)) ?_ ?_ hfuel hvalid hasc
  · intro fuel last
    cases fuel <;> rfl
  · intro fuel last r rs hr hlt ih
    have henc : encodeAll (r :: rs) = r.encode ++ encodeAll rs := rfl
    unfold segmentLastLsn
    rw [henc, if_neg (by simp [encode_ne_nil r]), reads_skipRecord hr hlt]
    simp [ih, lastLsn_cons]

lemma le_lastLsn {last : ℕ} (hasc : Ascending last rs) : last ≤ lastLsn last rs := by
  induction rs generalizing last with
  | nil => exact le_refl _
  | cons q rs ih =>
    rw [lastLsn_cons]
    exact hasc.cons.1.le.trans (ih hasc.cons.2)

lemma lsn_le_lastLsn {last : ℕ} (hasc : Ascending last rs) (hr : r ∈ rs) :
    r.lsn ≤ lastLsn last rs := by
  induction rs generalizing last with
  | nil => cases hr
  | cons q rs ih =>
    rw [lastLsn_cons]
    obtain rfl | hr := mem_cons.mp hr
    · exact le_lastLsn hasc.cons.2
    · exact ih hasc.cons.2 hr

/-- Dropping segments keeps every record at or past the checkpoint, and the order of the rest. -/
lemma keepSegments_encodeAll {segs : List (List Record)} {closed : List Segment} (lsn : ℕ)
    (hbytes : closed.map Segment.bytes = segs.map encodeAll)
    (hvalid : ∀ r ∈ segs.flatten, r.Valid) (hasc : ∀ rs ∈ segs, Ascending 0 rs) :
    ∃ kept, ∃ segs' : List (List Record), keepSegments lsn closed = some kept ∧
      kept.map Segment.bytes = segs'.map encodeAll ∧ segs'.flatten <+ segs.flatten ∧
      ∀ r ∈ segs.flatten, lsn ≤ r.lsn → r ∈ segs'.flatten := by
  induction closed generalizing segs with
  | nil =>
    have : segs = [] := by simpa using hbytes.symm
    subst this
    exact ⟨[], [], rfl, rfl, List.Sublist.refl _, by simp⟩
  | cons s ss ih =>
    cases segs with
    | nil => simp at hbytes
    | cons rs =>
      simp only [map_cons, List.cons.injEq] at hbytes
      have hlast : segmentLastLsn s.bytes.length 0 s.bytes = some (lastLsn 0 rs) := by
        rw [hbytes.1]
        exact segmentLastLsn_encodeAll (le_refl _) (fun r hr => hvalid r (by simp [hr]))
          (hasc rs (by simp))
      obtain ⟨kept, segs', hkept, hb, hsub, hmem⟩ := ih hbytes.2
        (fun r hr => hvalid r (mem_append_right _ hr))
        (fun q hq => hasc q (mem_cons_of_mem _ hq))
      by_cases hdrop : lastLsn 0 rs < lsn
      · refine ⟨kept, segs', by simp [keepSegments, hlast, hkept, hdrop], hb, ?_, ?_⟩
        · exact hsub.trans (sublist_append_right _ _)
        · intro r hr hle
          obtain hr | hr := mem_append.mp hr
          · have := lsn_le_lastLsn (hasc rs (by simp)) hr
            omega
          · exact hmem r hr hle
      · refine ⟨s :: kept, rs :: segs', by simp [keepSegments, hlast, hkept, hdrop],
          by simp [hbytes.1, hb], ?_, ?_⟩
        · exact List.Sublist.append (List.Sublist.refl _) hsub
        · intro r hr hle
          exact mem_append.mpr ((mem_append.mp hr).imp_right fun hr => hmem r hr hle)

/-- A checkpoint at the marker that was just written succeeds, and keeps every record from it
on. -/
lemma Contains.checkpoint (h : w.Contains rs) {lsn : ℕ} (hpos : lsn ≠ 0)
    (htarget : w.markerTarget = lsn) (hmarker : lsn ≤ w.markerLsn) (hnext : lsn < w.nextLsn)
    (hlast : w.lastCheckpointLsn ≤ lsn) :
    ∃ w', ∃ rs' : List Record, w.checkpoint lsn = some w' ∧ w'.Contains rs' ∧ rs' <+ rs ∧
      (∀ r ∈ rs, lsn ≤ r.lsn → r ∈ rs') ∧ w'.lastCheckpointLsn = lsn ∧ w'.nextLsn = w.nextLsn := by
  have hreplay := h.replay 0
  obtain ⟨segs, cur, hh, rfl⟩ := h
  have hseg : ∀ rs ∈ segs, Ascending 0 rs := by
    intro rs hrs
    refine List.Pairwise.sublist (cons_sublist_cons.mpr (List.Sublist.map _ ?_)) hh.ascending
    exact (sublist_flatten_of_mem hrs).trans (sublist_append_left _ _)
  obtain ⟨kept, segs', hkept, hb, hsub, hmem⟩ := keepSegments_encodeAll lsn hh.closed
    (fun r hr => hh.valid r (mem_append_left _ hr)) hseg
  have hsub' : segs'.flatten ++ cur <+ segs.flatten ++ cur :=
    List.Sublist.append hsub (List.Sublist.refl _)
  refine ⟨{ w with closed := kept, lastCheckpointLsn := lsn }, segs'.flatten ++ cur, ?_, ?_, hsub',
    ?_, rfl, rfl⟩
  · unfold checkpoint
    rw [if_neg hpos, hreplay]
    rw [if_neg (by push Not; exact ⟨htarget, hmarker, hnext, hlast⟩), hkept]
    rfl
  · exact ⟨segs', cur, ⟨hb, hh.current, fun r hr => hh.valid r (hsub'.subset hr),
      hh.ascending.sublist (cons_sublist_cons.mpr (hsub'.map _)),
      fun r hr => hh.below r (hsub'.subset hr), hh.nextLsn⟩, rfl⟩
  · intro r hr hle
    exact mem_append.mpr ((mem_append.mp hr).imp_left fun hr => hmem r hr hle)

/-! ### Reopening -/

/-- The target of the last checkpoint among the records. -/
def lastTarget (rs : List Record) : ℕ :=
  rs.foldl (fun target r => if r.op = .checkpoint then ofLe r.key else target) 0

lemma lastTarget_concat (rs : List Record) (r : Record) :
    lastTarget (rs ++ [r]) = if r.op = .checkpoint then ofLe r.key else lastTarget rs := by
  simp [lastTarget]

lemma foldl_noteMarker (w : Log) (rs : List Record) :
    (rs.foldl noteMarker w).closed = w.closed ∧ (rs.foldl noteMarker w).current = w.current ∧
      (rs.foldl noteMarker w).lastCheckpointLsn =
        rs.foldl (fun target r => if r.op = .checkpoint then ofLe r.key else target)
          w.lastCheckpointLsn := by
  induction rs generalizing w with
  | nil => exact ⟨rfl, rfl, rfl⟩
  | cons r rs ih =>
    obtain ⟨h1, h2, h3⟩ := ih (noteMarker w r)
    rw [foldl_cons, foldl_cons, h1, h2, h3]
    unfold noteMarker
    split_ifs <;> exact ⟨rfl, rfl, rfl⟩

lemma Contains.lastLsn_lt (h : w.Contains rs) : lastLsn 0 rs < w.nextLsn := by
  cases hl : rs.getLast? with
  | none => simpa [lastLsn, hl] using h.nextLsn_pos
  | some => simpa [lastLsn, hl] using h.below (mem_of_getLast? hl)

/-- Reopening a directory gives a log with the same records, checkpointed where the last of their
markers says. -/
lemma Contains.openDirectory (h : w.Contains rs) (segmentSize : ℕ) :
    ∃ w', openDirectory segmentSize w.closed w.current = some w' ∧ w'.Contains rs ∧
      w'.lastCheckpointLsn = lastTarget rs := by
  have hlast : lastLsn 0 rs < u64Max := lt_of_lt_of_le h.lastLsn_lt h.nextLsn_le
  let fresh : Log :=
    { segmentSize := segmentSize, nextLsn := 1, lastCheckpointLsn := 0, markerLsn := 0,
      markerTarget := 0, closed := w.closed, current := w.current }
  refine ⟨{ rs.foldl noteMarker fresh with nextLsn := lastLsn 0 rs + 1 }, ?_, ?_, ?_⟩
  · unfold Log.openDirectory
    rw [h.scan true, Option.bind_some]
    dsimp only
    rw [if_neg hlast.ne]
    simp [fresh]
  · obtain ⟨hclosed, hcurrent, -⟩ := foldl_noteMarker fresh rs
    obtain ⟨segs, cur, hh, rfl⟩ := h
    refine ⟨segs, cur, ⟨?_, ?_, hh.valid, hh.ascending, ?_, Nat.succ_pos _, hlast⟩, rfl⟩
    · exact (congrArg _ hclosed).trans hh.closed
    · exact (congrArg _ hcurrent).trans hh.current
    · intro r hr
      exact Nat.lt_succ_of_le (lsn_le_lastLsn hh.ascending hr)
  · exact (foldl_noteMarker fresh rs).2.2

end Log

end Qihse.Wal
