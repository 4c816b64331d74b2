import Qihse.Bytes.Codec
import Qihse.Bytes.Text

/-!
# The journal of slot ownership

`qihse_cluster_ownership_journal.c`: entries are appended to a file as frames of 65 bytes with a
checksum, and a replay reads frame after frame up to the first one that is short or wrong. Nothing
repairs a torn frame, so that the frames behind it are read out of step.
-/

namespace Qihse.Cluster

open Bytes List

/-- `qihse_cluster_ownership_entry_t`; the owner is a C string. -/
structure OwnershipEntry where
  start : UInt16
  last : UInt16
  ownerId : Text
  configEpoch : UInt64
  noNul : 0 ∉ ownerId
deriving DecidableEq

namespace OwnershipEntry

def magic : ℕ := 0x4A534F51

/-- `QIHSE_CLUSTER_NODE_ID_LEN`. -/
def idLen : ℕ := 40

def frameLen : ℕ := 65

/-- `fnv1a64`. -/
def fnv1a64 (bs : List UInt8) : UInt64 :=
  bs.foldl (fun h b => (h ^^^ b.toUInt64) * 1099511628211) 14695981039346656037

/-- The owner in its field of 41 bytes. -/
def ownerField (e : OwnershipEntry) : List UInt8 :=
  e.ownerId.take idLen ++ List.replicate (idLen + 1 - (e.ownerId.take idLen).length) 0

/-- The frame up to the checksum. -/
def body (e : OwnershipEntry) : List UInt8 :=
  le 4 magic ++ (le 2 e.start.toNat ++ (le 2 e.last.toNat ++ (e.ownerField ++
    le 8 e.configEpoch.toNat)))

def frame (e : OwnershipEntry) : List UInt8 := e.body ++ le 8 (fnv1a64 e.body).toNat

/-- The entry of a frame whose checksum is right. -/
def readBody : Reader OwnershipEntry := do
  let m ← word 4
  check (m == magic)
  let start ← word 2
  let last ← word 2
  let owner ← take (idLen + 1)
  let configEpoch ← word 8
  return ⟨.ofNat start, .ofNat last, cString (owner.take idLen), .ofNat configEpoch,
    zero_notMem_cString _⟩

def readFrame : Reader OwnershipEntry := do
  let body ← take (frameLen - 8)
  let stored ← word 8
  check (UInt64.ofNat stored == fnv1a64 body)
  StateT.lift ((readBody.run body).map Prod.fst)

/-- The loop of `qihse_cluster_ownership_journal_replay`. -/
def replayFrames : ℕ → List UInt8 → List OwnershipEntry
  | 0, _ => []
  | fuel + 1, bs =>
    match readFrame.run bs with
    | none => []
    | some (e, rest) => e :: replayFrames fuel rest

/-- `qihse_cluster_ownership_journal_replay`. -/
def replay (file : List UInt8) : List OwnershipEntry := replayFrames file.length file

/-- What `qihse_cluster_ownership_journal_append` writes. -/
def written (e : OwnershipEntry) : List UInt8 := if e.ownerId = [] then [] else e.frame

/-- A call of `qihse_cluster_ownership_journal_append`, which comes to its end or, by a crash or an
error, is cut off when so many bytes have reached the file. -/
inductive Append
  | whole (e : OwnershipEntry)
  | cut (e : OwnershipEntry) (n : ℕ)

def Append.bytes : Append → List UInt8
  | .whole e => e.written
  | .cut e n => e.written.take n

/-- The entries whose append returned 0. -/
def acknowledged : List Append → List OwnershipEntry
  | [] => []
  | .whole e :: calls => if e.ownerId = [] then acknowledged calls else e :: acknowledged calls
  | .cut _ _ :: calls => acknowledged calls

/-- The acknowledged entries have owners that fit, and no append that is cut inside its frame comes
before one of them. -/
def sound : List Append → Bool
  | [] => true
  | .whole e :: calls => decide (e.ownerId.length ≤ idLen) && sound calls
  | .cut _ n :: calls =>
    if n = 0 ∨ frameLen ≤ n then sound calls else (acknowledged calls).isEmpty

/-! ### Frames -/

variable {e : OwnershipEntry}

lemma length_ownerField (e : OwnershipEntry) : e.ownerField.length = idLen + 1 := by
  have := length_take_le idLen e.ownerId
  rw [ownerField, length_append, length_replicate]
  omega

lemma length_frame (e : OwnershipEntry) : e.frame.length = frameLen := by
  simp [frame, body, length_ownerField, idLen, frameLen]

/-- The owner as a replay delivers it. -/
def stored (e : OwnershipEntry) : OwnershipEntry :=
  { e with
    ownerId := e.ownerId.take idLen
    noNul := fun h => e.noNul (List.mem_of_mem_take h) }

lemma cString_ownerField (e : OwnershipEntry) :
    cString (e.ownerField.take idLen) = e.ownerId.take idLen := by
  have hne : ∀ b ∈ e.ownerId.take idLen, decide (b ≠ 0) = true := fun b hb =>
    decide_eq_true fun h => e.noNul (h ▸ mem_of_mem_take hb)
  rw [cString, ownerField, take_append, take_take, Nat.min_self,
    takeWhile_append_of_pos hne, take_replicate]
  cases min (idLen - (e.ownerId.take idLen).length)
      (idLen + 1 - (e.ownerId.take idLen).length) with
  | zero => simp
  | succ => simp [replicate_succ]

lemma reads_body (e : OwnershipEntry) : Reads readBody e.body e.stored := by
  refine (reads_word (by decide)).bind (.check (beq_self_eq_true _) ?_)
  refine (reads_word e.start.toNat_lt).bind ((reads_word e.last.toNat_lt).bind ?_)
  refine (reads_take_of_length e.length_ownerField).bind ?_
  refine (reads_word e.configEpoch.toNat_lt).map fun rest => ?_
  simp only [cString_ownerField, UInt16.ofNat_toNat, UInt64.ofNat_toNat]
  rfl

lemma reads_frame (e : OwnershipEntry) : Reads readFrame e.frame e.stored := by
  have hlen : e.body.length = frameLen - 8 := by
    have := e.length_frame
    rw [frame, length_append, length_le] at this
    omega
  have hbody : readBody.run e.body = some (e.stored, []) := by
    have := e.reads_body []
    rwa [append_nil] at this
  refine (reads_take_of_length hlen).bind ((reads_word (fnv1a64 _).toNat_lt).map ?_)
  refine .check (by simp) fun rest => ?_
  rw [hbody]
  rfl

/-! ### Replays -/

/-- A frame in front of what a replay goes through. -/
lemma sublist_replayFrames {es : List OwnershipEntry} {bs : List UInt8} {fuel : ℕ}
    (hes : ∀ fuel, bs.length ≤ fuel → es.Sublist (replayFrames fuel bs))
    (hfuel : (e.frame ++ bs).length ≤ fuel) :
    (e.stored :: es).Sublist (replayFrames fuel (e.frame ++ bs)) := by
  rw [length_append, length_frame, frameLen] at hfuel
  obtain ⟨k, rfl⟩ : ∃ k, fuel = k + 1 := ⟨fuel - 1, by omega⟩
  rw [replayFrames, e.reads_frame]
  exact (hes k (by omega)).cons_cons _

/-- A replay delivers every acknowledged entry, in order and unchanged, if no append that is cut
inside its frame comes before an acknowledged one and the owners fit into their field. -/
theorem acknowledged_sublist_replay (calls : List Append) (h : sound calls = true) :
    (acknowledged calls).Sublist (replay (calls.flatMap Append.bytes)) := by
  suffices hall : ∀ fuel, (calls.flatMap Append.bytes).length ≤ fuel →
      (acknowledged calls).Sublist (replayFrames fuel (calls.flatMap Append.bytes)) from
    hall _ le_rfl
  induction calls with
  | nil => exact fun _ _ => nil_sublist _
  | cons call calls ih =>
    cases call with
    | whole =>
      rw [sound, Bool.and_eq_true, decide_eq_true_eq] at h
      simp only [flatMap_cons, Append.bytes, written, acknowledged]
      split_ifs with hnil
      · exact ih h.2
      · intro fuel hfuel
        simpa [stored, take_of_length_le h.1] using sublist_replayFrames (ih h.2) hfuel
    | cut e =>
      rw [sound] at h
      simp only [flatMap_cons, Append.bytes, written, acknowledged]
      split_ifs at h with hn
      · split_ifs with hnil
        · rw [take_nil]
          exact ih h
        · obtain rfl | hn := hn
          · rw [take_zero]
            exact ih h
          · -- a whole frame that was not acknowledged is delivered too
            rw [take_of_length_le (e.length_frame.trans_le hn)]
            exact fun fuel hfuel =>
              (sublist_cons_self _ _).trans (sublist_replayFrames (ih h) hfuel)
      · rw [List.isEmpty_iff.mp h]
        exact fun _ _ => nil_sublist _

namespace Sample

def first : OwnershipEntry := ⟨0, 0, [97], 1, by decide⟩

def second : OwnershipEntry := ⟨0, 0, [98], 2, by decide⟩

theorem acknowledged_sublist_replay_torn : sound [.whole first, .cut second 30] = true ∧
    [first].Sublist (replay (first.frame ++ second.frame.take 30)) :=
  ⟨rfl, acknowledged_sublist_replay [.whole first, .cut second 30] rfl⟩

/-- One byte of an append that was cut off hides the entry that is acknowledged after it. -/
theorem torn_hides_acknowledged : acknowledged [.cut first 1, .whole second] = [second] ∧
    replay ([Append.cut first 1, .whole second].flatMap Append.bytes) = [] := by
  decide +kernel

end Sample

end OwnershipEntry

end Qihse.Cluster
