import Qihse.Consensus.Handlers

/-!
# The log of a node as one list

The compacted prefix and the active log together are the list `Node.entries`, with index `k + 1` at
position `k`. The accessors and the updates of a node are read off it.
-/

namespace Qihse.Consensus

open List

/-- `b` may stand behind `a` in a log. -/
def Entry.Before (a b : Entry) : Prop :=
  a.term ≤ b.term ∧ a.journalGeneration < b.journalGeneration

lemma Entry.identical_refl (e : Entry) : e.identical e := by
  simp [identical]

lemma logEntryAt_succ (snap log : List Entry) (k : ℕ) :
    logEntryAt snap log (k + 1) = (snap ++ log)[k]? := by
  simp only [logEntryAt, getElem?_append]
  by_cases hk : snap.length + log.length < k + 1
  · rw [if_pos (.inr hk), if_neg (by omega), getElem?_eq_none (by omega)]
  · rw [if_neg (by omega)]
    by_cases hs : k + 1 ≤ snap.length
    · rw [if_pos hs, if_pos (by omega)]
      rfl
    · rw [if_neg hs, if_neg (by omega)]
      congr 1
      omega

namespace Node

variable (n : Node)

@[simp]
lemma entries_length : n.entries.length = n.absLastIndex := by
  simp [entries, absLastIndex]

@[simp]
lemma entryAt_zero : n.entryAt 0 = none := by
  simp [entryAt, logEntryAt]

@[simp]
lemma entryAt_succ (k : ℕ) : n.entryAt (k + 1) = n.entries[k]? :=
  logEntryAt_succ _ _ k

lemma termAt_succ (k : ℕ) : n.termAt (k + 1) = n.entries[k]?.elim 0 (·.term) := by
  simp [termAt]

@[simp]
lemma entries_push (e : Entry) : (n.push e).entries = n.entries ++ [e] := by
  simp [entries, push]

@[simp]
lemma absLastIndex_push (e : Entry) : (n.push e).absLastIndex = n.absLastIndex + 1 := by
  simp [absLastIndex, push, add_assoc]

lemma getLast?_entries {n : Node} (hlog : n.log ≠ []) : n.entries.getLast? = n.log.getLast? := by
  rw [entries, getLast?_append_of_ne_nil _ hlog]

lemma lastGen_eq : n.lastGen = n.entries.getLast?.elim 0 (·.journalGeneration) := by
  by_cases hlog : n.log = []
  · rw [lastGen, hlog, entries, hlog, append_nil]
    rfl
  · rw [getLast?_entries hlog, lastGen]
    cases hlast : n.log.getLast? with
    | none => exact absurd (getLast?_eq_none_iff.mp hlast) hlog
    | some => rfl

lemma entries_truncateFrom {k : ℕ} (hk : n.snap.entries.length ≤ k) :
    (n.truncateFrom (k + 1)).entries = n.entries.take k := by
  simp only [entries, truncateFrom, Nat.add_sub_cancel, take_append]
  rw [take_of_length_le hk]

section

variable {n : Node} {s : Snapshot} (h : n.compaction = some s)
include h

/-- What `qcs_try_compact` builds, and when. -/
lemma compaction_snapshot : ∃ target,
    n.cfg.snapshotThreshold ≠ 0 ∧ n.role = .leader ∧ n.snap.entries.length < target ∧
      target ≤ n.commit ∧ target ≤ snapshotStreamMaxEntries ∧
      s = ⟨n.entries.take target, target, (n.entries.take target).getLast?.elim 0 (·.term), n.epoch,
        (n.entries.take target).getLast?.elim 0 (·.journalGeneration),
        snapshotEntriesDigest (n.entries.take target)⟩ := by
  unfold compaction at h
  simp only [Option.ite_none_left_eq_some, Option.some.injEq] at h
  obtain ⟨hthreshold, hrole, hcommit, -, hroom, rfl⟩ := h
  exact ⟨min n.commit snapshotStreamMaxEntries, hthreshold, not_not.mp hrole, by omega, by omega,
    by omega, rfl⟩

/-- Compaction moves entries from the log to the prefix. -/
lemma entries_of_compaction :
    (n.compacted s).entries = n.entries := by
  obtain ⟨target, -, -, hlt, -, -, rfl⟩ := compaction_snapshot h
  simp only [entries, compacted, take_append, length_append, length_take]
  rw [take_of_length_le (Nat.le_of_lt hlt), append_assoc, append_cancel_left_eq,
    show min target n.snap.entries.length = n.snap.entries.length by omega, Nat.add_sub_cancel_left]
  rcases Nat.le_total (target - n.snap.entries.length) n.log.length with hle | hle
  · rw [min_eq_left hle, take_append_drop]
  · rw [min_eq_right hle, drop_length, take_of_length_le hle, append_nil]

end

/-- The member at the slot of an identifier has that identifier. -/
lemma memberIndex_id {n : Node} {id : Uuid} {i : ℕ} {m : Member} (hi : n.memberIndex id = some i)
    (hm : n.members[i]? = some m) : m.id = id := by
  obtain ⟨hlt, hid, -⟩ := findIdx?_eq_some_iff_getElem.mp hi
  rw [getElem?_eq_getElem hlt] at hm
  cases hm
  simpa using hid

/-- Two nodes with the same compacted prefix and the same active log. -/
structure SameLog (n n' : Node) : Prop where
  snap : n'.snap = n.snap
  log : n'.log = n.log

/-- Two nodes with the same log, commit index and effective members. -/
structure Intact (n n' : Node) : Prop extends SameLog n n' where
  commit : n'.commit = n.commit
  members : n'.members = n.members

variable {n} {n' : Node}

lemma Intact.refl (n : Node) : Intact n n := ⟨⟨rfl, rfl⟩, rfl, rfl⟩

lemma SameLog.entries (h : SameLog n n') : n'.entries = n.entries := by
  simp [Node.entries, h.snap, h.log]

lemma SameLog.absLastIndex (h : SameLog n n') : n'.absLastIndex = n.absLastIndex := by
  simp [Node.absLastIndex, h.snap, h.log]

/-- What a change of the effective members leaves alone. -/
structure Refolded (n n' : Node) : Prop where
  cfg : n'.cfg = n.cfg
  recQuarantined : n'.recQuarantined = n.recQuarantined
  term : n'.term = n.term
  epoch : n'.epoch = n.epoch
  votedFor : n'.votedFor = n.votedFor
  commit : n'.commit = n.commit
  sameLog : SameLog n n'
  role : n'.role = n.role ∨ n'.role = .follower

lemma refolded_setMembership (n : Node) (ms : List Member) : Refolded n (n.setMembership ms) := by
  unfold setMembership
  simp only
  split_ifs
  · exact ⟨rfl, rfl, rfl, rfl, rfl, rfl, ⟨rfl, rfl⟩, .inr rfl⟩
  · exact ⟨rfl, rfl, rfl, rfl, rfl, rfl, ⟨rfl, rfl⟩, .inl rfl⟩

/-- `recompute` on the node. -/
def recomputed (n : Node) : Node := n.recomputeMembership.getD n

lemma recomputed_cases (n : Node) : n.recomputed = n ∨
    ∃ ms, n.foldMembership none = some ms ∧ ms ≠ n.members ∧ n.recomputed = n.setMembership ms := by
  unfold recomputed recomputeMembership
  cases hms : n.foldMembership none with
  | none => exact .inl rfl
  | some ms =>
    by_cases hne : ms = n.members
    · exact .inl (by simp [hne])
    · exact .inr ⟨ms, rfl, hne, by simp [hne]⟩

lemma refolded_recomputed (n : Node) : n.Refolded n.recomputed := by
  rcases n.recomputed_cases with h | ⟨ms, -, -, h⟩ <;> rw [h]
  · exact ⟨rfl, rfl, rfl, rfl, rfl, rfl, ⟨rfl, rfl⟩, .inl rfl⟩
  · exact n.refolded_setMembership ms

end Node

end Qihse.Consensus
