import Qihse.Consensus.Overcommit

/-!
# Compaction is invisible

`qcs_try_compact` moves the committed entries from the active log to the snapshot. Every accessor
reads the two as one list, so that nobody who reads through them can tell, `qcs_read_committed`
included.
-/

namespace Qihse.Consensus

open Crash Crash.Prog

/-! ### Reading committed entries -/

namespace Node

/-- The loop of `qcs_read_committed` over the indices that are left. `strict` is the flag `exact` of
the source: an entry that is missing or out of reach fails the whole read. -/
def readLoop (cs : Node) (user : User) (outCap : ℕ) (strict : Bool) :
    List ℕ → List Entry → Option (List Entry)
  | [], out => some out
  | idx :: rest, out =>
    if outCap ≤ out.length then some out
    else
      match cs.entryAt idx with
      | none => if strict then none else cs.readLoop user outCap strict rest out
      | some e =>
        if user.canAccess e.classif e.sci then cs.readLoop user outCap strict rest (out ++ [e])
        else if strict then none
        else cs.readLoop user outCap strict rest out

/-- `qcs_read_committed`; `none` is the result `false`, with nothing handed out. -/
def readCommitted (cs : Node) (user : Option User) (fromIndex outCap : ℕ) (strict : Bool) :
    Option (List Entry) :=
  user.bind fun user =>
    let start := if fromIndex ≠ 0 then fromIndex else 1
    cs.readLoop user outCap strict (List.range' start (cs.commit + 1 - start)) []

variable {n n' : Node}

section

variable (h : n'.entries = n.entries)
include h

lemma entryAt_of_entries (i : ℕ) : n'.entryAt i = n.entryAt i := by
  cases i with
  | zero => rw [entryAt_zero, entryAt_zero]
  | succ => rw [entryAt_succ, entryAt_succ, h]

lemma readLoop_congr (user : User) (outCap : ℕ) (strict : Bool) (idxs : List ℕ) (out : List Entry) :
    n'.readLoop user outCap strict idxs out = n.readLoop user outCap strict idxs out := by
  induction idxs generalizing out with
  | nil => rfl
  | cons idx rest ih => simp only [readLoop, entryAt_of_entries h, ih]

lemma readCommitted_congr (hcommit : n'.commit = n.commit)
    (user : Option User) (fromIndex outCap : ℕ) (strict : Bool) :
    n'.readCommitted user fromIndex outCap strict =
      n.readCommitted user fromIndex outCap strict := by
  unfold readCommitted
  simp [readLoop_congr h, hcommit]

end

/-! ### The representation of the log -/

/-- The snapshot is a committed prefix of the log, and its header describes its last entry. -/
structure Represented (n : Node) : Prop where
  boundary : n.snap.entries.length ≤ n.commit
  commit_le : n.commit ≤ n.absLastIndex
  index : n.snap.lastIncludedIndex = n.snap.entries.length
  term : n.snap.lastIncludedTerm = n.snap.entries.getLast?.elim 0 (·.term)
  generation : n.snap.journalGeneration = n.snap.entries.getLast?.elim 0 (·.journalGeneration)

/-- The accessors of the log, the commit index, the membership fold and the reads of `n'` are those
of `n`. -/
structure SameLook (n n' : Node) : Prop where
  entryAt : ∀ i, n'.entryAt i = n.entryAt i
  last : n'.absLastIndex = n.absLastIndex
  lastTerm : n'.lastLogTerm = n.lastLogTerm
  lastGen : n'.lastGen = n.lastGen
  commit : n'.commit = n.commit
  fold : ∀ extra, n'.foldMembership extra = n.foldMembership extra
  foldAtCommit : n'.foldAtCommit = n.foldAtCommit
  members : n'.members = n.members
  read : ∀ user fromIndex outCap strict,
    n'.readCommitted user fromIndex outCap strict = n.readCommitted user fromIndex outCap strict

lemma SameLook.refl (n : Node) : n.SameLook n :=
  ⟨fun _ => rfl, rfl, rfl, rfl, rfl, fun _ => rfl, rfl, rfl, fun _ _ _ _ => rfl⟩

lemma lastLogTerm_of_log (hlog : n.log ≠ []) :
    n.lastLogTerm = n.entries.getLast?.elim 0 (·.term) := by
  rw [getLast?_entries hlog, lastLogTerm]
  cases hlast : n.log.getLast? with
  | none => exact absurd (List.getLast?_eq_none_iff.mp hlast) hlog
  | some => rfl

/-- The header of the snapshot stands in for its last entry. -/
lemma lastLogTerm_entries
    (hterm : n.snap.lastIncludedTerm = n.snap.entries.getLast?.elim 0 (·.term)) :
    n.lastLogTerm = n.entries.getLast?.elim 0 (·.term) := by
  by_cases hlog : n.log = []
  · rw [lastLogTerm, hlog, entries, hlog, List.append_nil, hterm]
    by_cases hsnap : n.snap.entries = [] <;> simp [hsnap]
  · exact lastLogTerm_of_log hlog

/-- Compaction changes no accessor. -/
lemma sameLook_compacted {s : Snapshot} (h : n.Represented) (hs : n.compaction = some s) :
    n.SameLook (n.compacted s) := by
  have hentries := entries_of_compaction hs
  obtain ⟨target, -, -, -, -, -, hsnap⟩ := compaction_snapshot hs
  have hterm : (n.compacted s).lastLogTerm = n.lastLogTerm := by
    rw [lastLogTerm_entries h.term, lastLogTerm_entries (n := n.compacted s) ?_, hentries]
    rw [compacted, hsnap]
  refine ⟨entryAt_of_entries hentries, ?_, hterm, ?_, rfl, fun extra => ?_, ?_, rfl,
    readCommitted_congr hentries rfl⟩
  · rw [← entries_length, hentries, entries_length]
  · rw [lastGen_eq, hentries, lastGen_eq]
  · unfold foldMembership
    rw [hentries]
    rfl
  · unfold foldAtCommit
    rw [hentries]
    rfl

lemma sameLook_quarantine (n : Node) : n.SameLook n.quarantine :=
  ⟨fun _ => rfl, rfl, rfl, rfl, rfl, fun _ => rfl, rfl, rfl, readCommitted_congr rfl rfl⟩

end Node

/-! ### The call -/

variable {p : Proc}

/-- A snapshot transaction leaves the node alone, or quarantines its file. -/
lemma sat_persistSnapshot_node (version2 : Bool) (s : Snapshot) (p : Proc) :
    Sat (persistSnapshot version2 s) p
      (fun b p' => p'.node = if b then p.node else p.node.quarantine) (fun _ => True) := by
  have hlines : Sat (persistSnapshotLines version2 s) p (fun _ p' => p'.node = p.node)
      (fun _ => True) :=
    sat_persistSnapshotLines (fun r q hq => (sat_recordAppend_iff q r).imp
      fun _ _ hq' => hq'.1.trans hq) rfl
  simp only [persistSnapshot, sat_bind, sat_ite, sat_pure, sat_modifyNode]
  refine hlines.imp fun b q hq => ⟨fun _ => hq, fun _ => ?_⟩
  simp [hq]

/-- Compaction is invisible: whatever the threshold and whatever became of the record writes, the
node that `qcs_try_compact` leaves looks like the one it found. -/
theorem tryCompact_sameLook (p : Proc) (h : p.node.Represented) :
    Sat tryCompact p (fun _ p' => p.node.SameLook p'.node) (fun _ => True) := by
  simp only [tryCompact, sat_read]
  cases hs : p.node.compaction with
  | none => exact .refl _
  | some s =>
    simp only [sat_bind, sat_ite, sat_pure, sat_modifyNode]
    refine (sat_persistSnapshot_node _ s p).imp fun b q hq => ⟨fun hb => ?_, fun hb => ?_⟩
    · rw [hq, if_pos hb]
      exact Node.sameLook_compacted h hs
    · rw [hq, if_neg hb]
      exact p.node.sameLook_quarantine

namespace Sample

/-- A leader of three with two committed entries and a third one, one entry past its threshold. -/
def compacting : Proc where
  node := { Node.blank (config trio 2 (peer 1)) with
    role := .leader
    term := 1
    epoch := 1
    commit := 2
    log := [⟨1, 1, 1, ⟨0, 0⟩, 0, 0, .data, [7]⟩, ⟨2, 1, 2, ⟨0, 0⟩, 0, 0, .data, [8]⟩,
      ⟨3, 1, 3, ⟨0, 0⟩, 0, 0, .data, [9]⟩] }
  disk := []
  out := []
  io := []
  failed := false

theorem tryCompact_sameLook_compacting : (tryCompact compacting).1 = some () ∧
      (tryCompact compacting).2.node.snap.entries.length = 2 ∧
      (tryCompact compacting).2.node.log.length = 1 ∧
      compacting.node.SameLook (tryCompact compacting).2.node := by
  refine ⟨by decide +kernel, by decide +kernel, by decide +kernel, ?_⟩
  exact tryCompact_sameLook compacting ⟨by decide, by decide, rfl, rfl, rfl⟩

end Sample

end Qihse.Consensus
