import Qihse.Bytes.Codec

/-!
# The index log of the blob store

The records of `index.log` in `qihse_blob.c`, and the replay that builds the index from them. A log
of whole records, the last of them possibly cut, is replayed to what its whole records say.
-/

open Bytes List

namespace Qihse.Blob

abbrev Hash : Type := Block 48

def maxSize : ℕ := 64 * 1024 * 1024

def artifactMaxSize : ℕ := 4 * 1024 * 1024 * 1024

def tagCommonsSnapshot : UInt16 := 4

def tagReplTransaction : UInt16 := 5

def tagDumpArtifact : UInt16 := 7

def tenantSystem : UInt32 := 0

/-- `blob_size_limit`. -/
def sizeLimit (tag : UInt16) : ℕ := if tag = tagDumpArtifact then artifactMaxSize else maxSize

/-- `qihse_blob_info_t`. -/
structure Info where
  hash : Hash
  size : UInt64
  tenantId : UInt32
  tag : UInt16
  classification : UInt16
  sciCompartment : UInt16
  refcount : UInt32

/-- What the replay demands of a record. -/
def Info.valid (info : Info) : Bool :=
  info.refcount ≠ 0 && info.tag ≠ 0 && info.tag ≤ tagDumpArtifact &&
    info.size.toNat ≤ sizeLimit info.tag &&
    (info.tag ≠ tagReplTransaction || info.tenantId = tenantSystem)

/-- `blob_entry_t`. -/
structure Entry where
  info : Info
  pinCount : UInt32

/-- The entries, found by their hash. -/
abbrev Index : Type := Hash → Option Entry

def Index.empty : Index := fun _ => none

/-! ### Records -/

/-- The records that carry the whole new state of an entry: of a put, a reference and an
unreference. -/
inductive InfoOp
  | put | ref | unref

/-- A record of the log. -/
inductive LogRecord
  | info (op : InfoOp) (info : Info)
  | del (hash : Hash)
  | pin (hash : Hash)
  | unpin (hash : Hash)

/-- The letters `P`, `R` and `U`. -/
def InfoOp.letter : InfoOp → UInt8
  | .put => 80
  | .ref => 82
  | .unref => 85

def LogRecord.valid : LogRecord → Bool
  | .info _ i => i.valid
  | _ => true

/-- The structure as it lies in memory, with two bytes of padding before the last field. -/
def Info.encode (i : Info) : List UInt8 :=
  i.hash.val ++ (le 8 i.size.toNat ++ (le 4 i.tenantId.toNat ++ (le 2 i.tag.toNat ++
    (le 2 i.classification.toNat ++ (le 2 i.sciCompartment.toNat ++ (le 2 0 ++
      le 4 i.refcount.toNat))))))

def indexMagic : UInt8 := 81

def indexVersion : UInt8 := 2

/-- The record that `blob_log_append` writes. -/
def LogRecord.encode : LogRecord → List UInt8
  | .info op i => indexMagic :: indexVersion :: op.letter :: i.encode
  | .del h => indexMagic :: indexVersion :: 68 :: h.val
  | .pin h => indexMagic :: indexVersion :: 73 :: h.val
  | .unpin h => indexMagic :: indexVersion :: 79 :: h.val

def readInfo : Reader Info := do
  let hash ← block 48
  let size ← word 8
  let tenantId ← word 4
  let tag ← word 2
  let classification ← word 2
  let sciCompartment ← word 2
  let _ ← take 2
  let refcount ← word 4
  return ⟨hash, UInt64.ofNat size, UInt32.ofNat tenantId, UInt16.ofNat tag,
    UInt16.ofNat classification, UInt16.ofNat sciCompartment, UInt32.ofNat refcount⟩

/-- What stands at the front of the log. -/
inductive Scan
  | done
  | torn
  | bad
  | record (r : LogRecord) (rest : List UInt8)

def scanHash (f : Hash → LogRecord) (rest : List UInt8) : Scan :=
  match (block 48).run rest with
  | none => .torn
  | some (h, rest') => .record (f h) rest'

def scanInfo (op : InfoOp) (rest : List UInt8) : Scan :=
  match readInfo.run rest with
  | none => .torn
  | some (i, rest') => if i.valid then .record (.info op i) rest' else .bad

/-- One round of the loop of `blob_log_replay`. -/
def scan : List UInt8 → Scan
  | [] => .done
  | [_] => .torn
  | [_, _] => .torn
  | m :: v :: op :: rest =>
    if m ≠ indexMagic || v ≠ indexVersion then .bad
    else if op = 68 then scanHash .del rest
    else if op = 73 then scanHash .pin rest
    else if op = 79 then scanHash .unpin rest
    else if op = 80 then scanInfo .put rest
    else if op = 82 then scanInfo .ref rest
    else if op = 85 then scanInfo .unref rest
    else .bad

/-- What a record does to the index. -/
def Index.apply (idx : Index) : LogRecord → Index
  | .info _ i =>
    Function.update idx i.hash (some ⟨i, (idx i.hash).elim 0 Entry.pinCount⟩)
  | .del h => Function.update idx h none
  | .pin h => Function.update idx h ((idx h).map fun e => { e with pinCount := e.pinCount + 1 })
  | .unpin h =>
    Function.update idx h ((idx h).map fun e =>
      if e.pinCount > 0 then { e with pinCount := e.pinCount - 1 } else e)

/-- The loop of `blob_log_replay`: the index, the end of the last whole record, and whether the log
is torn behind it. -/
def replayLoop : ℕ → List UInt8 → ℕ → Index → Option (Index × ℕ × Bool)
  | 0, _, _, _ => none
  | fuel + 1, bs, validEnd, idx =>
    match scan bs with
    | .done => some (idx, validEnd, false)
    | .torn => some (idx, validEnd, true)
    | .bad => none
    | .record r rest => replayLoop fuel rest (validEnd + (bs.length - rest.length)) (idx.apply r)

/-- `blob_log_replay`: the index and the log without a torn tail. -/
def logReplay (log : List UInt8) : Option (Index × List UInt8) :=
  (replayLoop (log.length + 1) log 0 .empty).map fun (idx, validEnd, torn) =>
    (idx, if torn then log.take validEnd else log)

/-! ### Reading back -/

@[simp]
lemma Info.length_encode (i : Info) : i.encode.length = 72 := by
  simp [encode, i.hash.property]

lemma reads_readInfo (i : Info) : Reads readInfo i.encode i := by
  have hsize : Reads (word 8) (le 8 i.size.toNat) i.size.toNat := reads_word i.size.toNat_lt
  have htenant : Reads (word 4) (le 4 i.tenantId.toNat) i.tenantId.toNat :=
    reads_word i.tenantId.toNat_lt
  have hword (n : UInt16) : Reads (word 2) (le 2 n.toNat) n.toNat := reads_word n.toNat_lt
  have hpad : Reads (take 2) (le 2 0) (le 2 0) := reads_take_of_length (length_le 2 0)
  have href : Reads (word 4) (le 4 i.refcount.toNat) i.refcount.toNat :=
    reads_word i.refcount.toNat_lt
  refine (reads_block i.hash).bind (hsize.bind (htenant.bind ((hword i.tag).bind
    ((hword i.classification).bind ((hword i.sciCompartment).bind (hpad.bind (href.map ?_)))))))
  simp only [UInt64.ofNat_toNat, UInt32.ofNat_toNat, UInt16.ofNat_toNat]
  exact reads_pure i

lemma stable_readInfo : Stable readInfo := by
  refine (stable_block 48).bind fun _ => (stable_word 8).bind fun _ => (stable_word 4).bind fun _ =>
    (stable_word 2).bind fun _ => (stable_word 2).bind fun _ => (stable_word 2).bind fun _ =>
    (stable_take 2).bind fun _ => (stable_word 4).bind fun _ => stable_pure _

lemma scanHash_append (f : Hash → LogRecord) (h : Hash) (rest : List UInt8) :
    scanHash f (h.val ++ rest) = .record (f h) rest := by
  rw [scanHash, reads_block h rest]

lemma scanInfo_append (op : InfoOp) {i : Info} (hi : i.valid = true) (rest : List UInt8) :
    scanInfo op (i.encode ++ rest) = .record (.info op i) rest := by
  rw [scanInfo, reads_readInfo i rest]
  simp [hi]

lemma scan_encode {r : LogRecord} (hr : r.valid = true) (rest : List UInt8) :
    scan (r.encode ++ rest) = .record r rest := by
  cases r with
  | info op i =>
    have hscan := scanInfo_append op (i := i) hr rest
    cases op <;> exact hscan
  | del h => exact scanHash_append .del h rest
  | pin h => exact scanHash_append .pin h rest
  | unpin h => exact scanHash_append .unpin h rest

lemma scanHash_torn (f : Hash → LogRecord) (h : Hash) {n : ℕ} (hn : n < 48) :
    scanHash f (h.val.take n) = .torn := by
  rw [scanHash, (stable_block 48).torn (reads_block h) (by rwa [h.property])]

lemma scanInfo_torn (op : InfoOp) (i : Info) {n : ℕ} (hn : n < 72) :
    scanInfo op (i.encode.take n) = .torn := by
  rw [scanInfo, stable_readInfo.torn (reads_readInfo i) (by rwa [i.length_encode])]

/-- A part of a record. -/
def Cut (tail : List UInt8) : Prop := ∃ (r : LogRecord) (n : ℕ), n < r.encode.length ∧
  tail = r.encode.take n

lemma cut_nil : Cut [] := ⟨.del ⟨List.replicate 48 0, rfl⟩, 0, by decide, rfl⟩

/-- A log that ends in a part of a record is at its end, or torn. -/
lemma scan_cut {tail : List UInt8} (h : Cut tail) :
    scan tail = if tail = [] then .done else .torn := by
  obtain ⟨r, n, hn, rfl⟩ := h
  match n with
  | 0 => simp [scan]
  | 1 => cases r <;> rfl
  | 2 => cases r <;> rfl
  | n + 3 =>
    cases r with
    | info op i =>
      have hn' : n + 3 < 75 := by simpa [LogRecord.encode] using hn
      have htorn := scanInfo_torn op i (Nat.lt_of_add_lt_add_right hn')
      cases op <;> exact htorn
    | del h | pin h | unpin h =>
      have hn' : n + 3 < 51 := by simpa [LogRecord.encode, h.property] using hn
      exact scanHash_torn _ h (Nat.lt_of_add_lt_add_right hn')

lemma LogRecord.length_encode_pos (r : LogRecord) : 0 < r.encode.length := by
  cases r <;> simp [encode]

/-! ### Replay -/

/-- The log of some records. -/
def logOf (rs : List LogRecord) : List UInt8 := rs.flatMap LogRecord.encode

/-- The index that records build. -/
def indexOf (rs : List LogRecord) : Index := rs.foldl Index.apply .empty

@[simp]
lemma logOf_concat (rs : List LogRecord) (r : LogRecord) :
    logOf (rs ++ [r]) = logOf rs ++ r.encode := by
  simp [logOf]

@[simp]
lemma indexOf_concat (rs : List LogRecord) (r : LogRecord) :
    indexOf (rs ++ [r]) = (indexOf rs).apply r := by
  simp [indexOf]

lemma length_le_logOf (rs : List LogRecord) : rs.length ≤ (logOf rs).length := by
  induction rs with
  | nil => exact le_refl 0
  | cons r rs ih =>
    have hpos := r.length_encode_pos
    simp only [logOf, flatMap_cons, length_append, length_cons] at ih ⊢
    omega

section

variable {rs : List LogRecord} (hrs : ∀ r ∈ rs, r.valid = true) {tail : List UInt8}
  (htail : Cut tail)
include hrs htail

lemma replayLoop_logOf {fuel : ℕ} (hfuel : rs.length < fuel) (validEnd : ℕ) (idx : Index) :
    replayLoop fuel (logOf rs ++ tail) validEnd idx =
      some (rs.foldl Index.apply idx, validEnd + (logOf rs).length, decide (tail ≠ [])) := by
  induction rs generalizing fuel validEnd idx with
  | nil =>
    obtain ⟨fuel, rfl⟩ := Nat.exists_eq_add_of_lt hfuel
    rw [logOf, flatMap_nil, nil_append, replayLoop, scan_cut htail]
    by_cases hnil : tail = [] <;> simp [hnil]
  | cons r rs ih =>
    obtain ⟨fuel, rfl⟩ := Nat.exists_eq_add_of_le' (Nat.one_le_of_lt hfuel)
    have hlog : logOf (r :: rs) ++ tail = r.encode ++ (logOf rs ++ tail) := by
      simp [logOf]
    have hlen : (logOf (r :: rs)).length = r.encode.length + (logOf rs).length := by
      simp [logOf]
    have hscan := scan_encode (hrs r (by simp)) (logOf rs ++ tail)
    rw [hlog, replayLoop, hscan]
    dsimp only
    rw [ih (fun r' hr' => hrs r' (by simp [hr'])) (by simpa using hfuel), hlen, foldl_cons]
    simp [add_assoc]

/-- Whole records and a part of one more are replayed to what the whole ones say. -/
lemma logReplay_logOf : logReplay (logOf rs ++ tail) = some (indexOf rs, logOf rs) := by
  have hfuel : rs.length < (logOf rs ++ tail).length + 1 := by
    have := length_le_logOf rs
    rw [length_append]
    omega
  rw [logReplay, replayLoop_logOf hrs htail hfuel, Option.map_some]
  by_cases hnil : tail = [] <;> simp [hnil, indexOf]

end

end Qihse.Blob
