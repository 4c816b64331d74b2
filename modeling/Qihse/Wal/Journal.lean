import Qihse.Mvcc.Reference
import Qihse.Wal.Recovery

/-!
# Transactions on a log and a store

Any interleaving of transactions that write their `BEGIN`, their mutations and their `COMMIT` or
`ABORT` to the log, and apply each mutation to the store in the same order, with checkpoints in
between. `Journal.history` remembers every record that was ever written, and `Logged` relates it to
the log after its checkpoints.
-/

namespace Qihse.Wal

open Bytes List Option Log
open Mvcc (Mutation Change Store)
open Txn (Manager)
open scoped List

structure Journal where
  log : Log
  store : Store
  running : List ℕ
  history : List Record

inductive Act
  | begin (t : ℕ)
  | mutate (t : ℕ) (m : Mutation)
  | commit (t : ℕ)
  | abort (t : ℕ)
  | checkpoint
deriving DecidableEq

def opOf : Change → OpType
  | .insert _ => .insert
  | .update _ => .update
  | .delete => .delete

def valueOf : Change → List UInt8
  | .insert value => value
  | .update value => value
  | .delete => []

namespace Journal

def create (segmentSize : ℕ) : Journal := ⟨Log.create segmentSize, Store.empty, [], []⟩

/-- Append a record to the log. -/
def write (j : Journal) (t : ℕ) (e : UInt8) (op : OpType) (key value : List UInt8) :
    Option Journal :=
  (j.log.append t e op key value).map fun (r, w) =>
    { j with log := w, history := j.history ++ [r] }

/-- Some record of the log is one of the transaction. -/
def known (j : Journal) (t : ℕ) : Bool := j.history.any fun r => decide (r.txnId = t)

def stop (j : Journal) (t : ℕ) : Journal :=
  { j with running := j.running.filter fun u => decide (u ≠ t) }

/-- One act, all calls of which succeed. A transaction has a 64-bit id of its own. -/
def step (j : Journal) : Act → Option Journal
  | .begin t =>
    if t = 0 ∨ 2 ^ 64 ≤ t ∨ j.known t then none
    else (j.write t 0 .begin [] []).map fun j' => { j' with running := t :: j.running }
  | .mutate t m =>
    if t ∈ j.running then
      (j.write t m.engineId (opOf m.change) m.key (valueOf m.change)).bind fun j' =>
        (j.store.mutate t m).map fun s => { j' with store := s }
    else none
  | .commit t => if t ∈ j.running then (j.write t 0 .commit [] []).map fun j' => j'.stop t else none
  | .abort t => if t ∈ j.running then (j.write t 0 .abort [] []).map fun j' => j'.stop t else none
  | .checkpoint =>
    j.log.recoveryCheckpoint.map fun (r, w) => { j with log := w, history := j.history ++ [r] }

def run (j : Journal) : List Act → Option Journal
  | [] => some j
  | a :: acts => (j.step a).bind fun j' => j'.run acts

/-- A crash: the directory is reopened and recovered into a new manager and an empty store. -/
def recover (j : Journal) (segmentSize : ℕ) : Option (Manager × Store) :=
  (openDirectory segmentSize j.log.closed j.log.current).bind fun w =>
    w.recoveryReplay Manager.create Store.empty

/-- The transactions with a `COMMIT` record. -/
def committed (j : Journal) (t : ℕ) : Bool :=
  j.history.any fun r => decide (r.op = .commit ∧ r.txnId = t)

/-- The condition holds of every act in the state in which it is made. -/
def meets (cond : Journal → Act → Bool) (j : Journal) : List Act → Bool
  | [] => true
  | a :: acts => cond j a && (j.step a).all fun j' => j'.meets cond acts

end Journal

/-- The mutations of a log with their transactions. -/
def mutations (rs : List Record) : List (ℕ × Mutation) :=
  rs.filterMap fun r => r.mutation.map (r.txnId, ·)

/-! ### The log and the history -/

/-- The log contains every record from its checkpoint on, and perhaps some from before. -/
structure Logged (w : Log) (history : List Record) : Prop where
  kept : ∃ kept, w.Contains kept ∧ kept <+ history ∧
    (∀ r ∈ history, w.lastCheckpointLsn ≤ r.lsn → r ∈ kept) ∧
    lastTarget kept = w.lastCheckpointLsn
  ascending : Ascending 0 history
  below : ∀ r ∈ history, r.lsn < w.nextLsn
  checkpoint : w.lastCheckpointLsn ≤ w.nextLsn

section Logged

variable {w w' : Log} {history : List Record} {r : Record}

lemma logged_create (segmentSize : ℕ) : Logged (create segmentSize) [] where
  kept := ⟨[], contains_create segmentSize, List.Sublist.refl _, by simp, rfl⟩
  ascending := pairwise_singleton _ _
  below := by simp
  checkpoint := Nat.zero_le _

lemma Logged.nextLsn_pos (h : Logged w history) : 0 < w.nextLsn := by
  obtain ⟨kept, hkept, -⟩ := h.kept
  exact hkept.nextLsn_pos

/-- The parts of `Logged` that any record with the next number keeps. -/
lemma Logged.extend (h : Logged w history) (hlsn : r.lsn = w.nextLsn)
    (hnext : w'.nextLsn = w.nextLsn + 1) :
    Ascending 0 (history ++ [r]) ∧ ∀ q ∈ history ++ [r], q.lsn < w'.nextLsn := by
  refine ⟨h.ascending.concat ?_ fun q hq => ?_, ?_⟩
  · rw [hlsn]
    exact h.nextLsn_pos
  · rw [hlsn]
    exact h.below q hq
  · rw [hnext]
    exact forall_mem_append.mpr ⟨fun q hq => Nat.lt_succ_of_lt (h.below q hq),
      forall_mem_singleton.mpr (hlsn.trans_lt (Nat.lt_succ_self _))⟩

lemma Logged.append (h : Logged w history) {t : ℕ} {e : UInt8} {op : OpType}
    {key value : List UInt8} (ht : t < 2 ^ 64) (ha : w.append t e op key value = some (r, w')) :
    r = ⟨w.nextLsn, t, e, op, key, value⟩ ∧ op ≠ .checkpoint ∧ Logged w' (history ++ [r]) ∧
      w'.lastCheckpointLsn = w.lastCheckpointLsn := by
  obtain ⟨kept, hkept, hsub, hmem, htarget⟩ := h.kept
  unfold Log.append at ha
  split_ifs at ha with hop
  obtain ⟨rfl, hcontains, happ⟩ := hkept.appendRaw ht (fun hc => absurd hc hop) ha
  obtain ⟨hasc, hbelow⟩ := h.extend (r := ⟨w.nextLsn, t, e, op, key, value⟩) rfl happ.nextLsn
  refine ⟨rfl, hop, ⟨⟨kept ++ [_], hcontains, List.Sublist.append hsub (List.Sublist.refl _), ?_,
    ?_⟩, hasc, hbelow, ?_⟩, happ.lastCheckpointLsn⟩
  · intro q hq hle
    rw [happ.lastCheckpointLsn] at hle
    exact mem_append.mpr ((mem_append.mp hq).imp_left fun hq => hmem q hq hle)
  · rw [lastTarget_concat, if_neg hop, htarget, happ.lastCheckpointLsn]
  · rw [happ.lastCheckpointLsn, happ.nextLsn]
    exact Nat.le_succ_of_le h.checkpoint

/-- A sublist that still has the last element ends in it. -/
lemma exists_concat_of_sublist {rs kept : List Record} (hsub : rs <+ kept ++ [r]) (hr : r ∈ rs)
    (hnot : r ∉ kept) : ∃ front, rs = front ++ [r] := by
  obtain ⟨front, back, rfl, hfront, hback⟩ := sublist_append_iff.mp hsub
  obtain hnil | hone := sublist_singleton.mp hback
  · subst hnil
    rw [append_nil] at hr
    exact absurd (hfront.subset hr) hnot
  · exact ⟨front, by rw [hone]⟩

/-- A checkpoint writes its marker and moves the start of the next replay to it. -/
lemma Logged.recoveryCheckpoint (h : Logged w history) (hc : w.recoveryCheckpoint = some (r, w')) :
    r.op = .checkpoint ∧ Logged w' (history ++ [r]) ∧ w'.lastCheckpointLsn = w.nextLsn ∧
      r.lsn = w.nextLsn ∧ r.txnId = 0 := by
  obtain ⟨kept, hkept, hsub, hmem, htarget⟩ := h.kept
  simp only [Log.recoveryCheckpoint, bind_eq_some_iff, map_eq_some_iff,
    Prod.exists, Prod.mk.injEq] at hc
  obtain ⟨m, w1, happend, w2, hcheck, rfl, rfl⟩ := hc
  have hpos := hkept.nextLsn_pos
  unfold appendCheckpoint at happend
  split_ifs at happend with hbad
  have hkey : ofLe (le 8 w.nextLsn) = w.nextLsn :=
    ofLe_le (lt_of_le_of_lt hkept.nextLsn_le (by decide))
  obtain ⟨rfl, hcontains, happ⟩ := hkept.appendRaw (by decide)
    (fun _ => by rw [hkey]; exact ⟨hpos.ne', le_refl _⟩) happend
  obtain ⟨hmarker, htarget'⟩ := happ.marker rfl
  obtain ⟨w'', rs, hw'', hrs, hrsub, hrmem, hlast, hnext⟩ := hcontains.checkpoint hpos.ne'
    (htarget'.trans hkey) hmarker.ge (by rw [happ.nextLsn]; exact Nat.lt_succ_self _)
    (by rw [happ.lastCheckpointLsn]; exact h.checkpoint)
  obtain rfl : w'' = w2 := Option.some.inj (hw''.symm.trans hcheck)
  obtain ⟨hasc, hbelow⟩ := h.extend (r := ⟨w.nextLsn, 0, 0, .checkpoint, le 8 w.nextLsn, []⟩) rfl
    (hnext.trans happ.nextLsn)
  refine ⟨rfl, ⟨⟨rs, hrs, hrsub.trans (List.Sublist.append hsub (List.Sublist.refl _)), ?_, ?_⟩,
    hasc, hbelow, ?_⟩, hlast, rfl, rfl⟩
  · intro q hq hle
    rw [hlast] at hle
    obtain hq | hq := mem_append.mp hq
    · exact absurd (h.below q hq) (not_lt.mpr hle)
    · exact hrmem q (mem_append_right _ hq) hle
  · obtain ⟨front, rfl⟩ := exists_concat_of_sublist hrsub (hrmem _ (by simp) (le_refl _))
      fun hin => (hkept.below hin).ne rfl
    rw [lastTarget_concat, if_pos rfl, hlast]
    exact hkey
  · rw [hlast, hnext, happ.nextLsn]
    exact Nat.le_succ _

/-- Records that only lack some from before a number are the same from that number on. -/
lemma filter_eq_of_sublist {rs kept : List Record} {start : ℕ} (hsub : kept <+ rs)
    (hnodup : rs.Nodup) (hmem : ∀ r ∈ rs, start ≤ r.lsn → r ∈ kept) :
    kept.filter (fun r => decide (start ≤ r.lsn)) = rs.filter fun r => decide (start ≤ r.lsn) := by
  refine (hsub.filter _).eq_of_length_le ?_
  refine (hnodup.filter _).length_le_of_subset ?_
  intro r hr
  rw [mem_filter, decide_eq_true_eq] at hr ⊢
  exact ⟨hmem r hr.1 hr.2, hr.2⟩

lemma Ascending.nodup {last : ℕ} {rs : List Record} (h : Ascending last rs) : rs.Nodup := by
  have hmap : (rs.map Record.lsn).Nodup :=
    (pairwise_cons.mp h).2.imp fun hlt => hlt.ne
  exact hmap.of_map _

/-- After a crash the analysis runs over the records from the last checkpoint on. -/
lemma Logged.analysis (h : Logged w history) (segmentSize : ℕ) :
    ∃ w', openDirectory segmentSize w.closed w.current = some w' ∧ w'.analysis =
      some (analyse (history.filter fun r => decide (w.lastCheckpointLsn ≤ r.lsn))) := by
  obtain ⟨kept, hkept, hsub, hmem, htarget⟩ := h.kept
  obtain ⟨w', hopen, hcontains, hlast⟩ := hkept.openDirectory segmentSize
  refine ⟨w', hopen, ?_⟩
  unfold Log.analysis
  rw [hcontains.replay, hlast, htarget, filter_eq_of_sublist hsub h.ascending.nodup hmem]
  rfl

end Logged

/-! ### Steps -/

/-- What an act does to the log: one record more. -/
structure Journal.Extends (j j' : Journal) (r : Record) : Prop where
  history : j'.history = j.history ++ [r]
  logged : Logged j'.log j'.history
  lsn : r.lsn = j.log.nextLsn

/-- What an act does, seen from before and after it. -/
inductive Journal.Step (j j' : Journal) : Act → Prop
  | begin (t : ℕ) (r : Record) (ext : j.Extends j' r) (op : r.op = .begin) (id : r.txnId = t)
      (lt : t < 2 ^ 64) (fresh : ∀ q ∈ j.history, q.txnId ≠ t)
      (running : j'.running = t :: j.running) (store : j'.store = j.store)
      (checkpoint : j'.log.lastCheckpointLsn = j.log.lastCheckpointLsn) : Step j j' (.begin t)
  | mutate (t : ℕ) (m : Mutation) (r : Record) (ext : j.Extends j' r)
      (mutation : r.mutation = some m) (id : r.txnId = t) (run : t ∈ j.running)
      (running : j'.running = j.running) (store : j.store.mutate t m = some j'.store)
      (checkpoint : j'.log.lastCheckpointLsn = j.log.lastCheckpointLsn) : Step j j' (.mutate t m)
  | commit (t : ℕ) (r : Record) (ext : j.Extends j' r) (op : r.op = .commit) (id : r.txnId = t)
      (run : t ∈ j.running) (running : j'.running = j.running.filter fun u => decide (u ≠ t))
      (store : j'.store = j.store)
      (checkpoint : j'.log.lastCheckpointLsn = j.log.lastCheckpointLsn) : Step j j' (.commit t)
  | abort (t : ℕ) (r : Record) (ext : j.Extends j' r) (op : r.op = .abort) (id : r.txnId = t)
      (run : t ∈ j.running) (running : j'.running = j.running.filter fun u => decide (u ≠ t))
      (store : j'.store = j.store)
      (checkpoint : j'.log.lastCheckpointLsn = j.log.lastCheckpointLsn) : Step j j' (.abort t)
  | checkpoint (r : Record) (ext : j.Extends j' r) (op : r.op = .checkpoint) (id : r.txnId = 0)
      (running : j'.running = j.running) (store : j'.store = j.store)
      (checkpoint : j'.log.lastCheckpointLsn = j.log.nextLsn) : Step j j' .checkpoint

namespace Journal

variable {j j' : Journal} {a : Act}

lemma write_cases (h : Logged j.log j.history) {t : ℕ} (ht : t < 2 ^ 64) {e : UInt8} {op : OpType}
    {key value : List UInt8} (hw : j.write t e op key value = some j') :
    ∃ r, r = ⟨j.log.nextLsn, t, e, op, key, value⟩ ∧
      j' = { j with log := j'.log, history := j.history ++ [r] } ∧ j.Extends j' r ∧
      j'.log.lastCheckpointLsn = j.log.lastCheckpointLsn := by
  simp only [write, map_eq_some_iff, Prod.exists] at hw
  obtain ⟨r, w, ha, rfl⟩ := hw
  obtain ⟨rfl, -, hlogged, hlast⟩ := h.append ht ha
  exact ⟨_, rfl, rfl, ⟨rfl, hlogged, rfl⟩, hlast⟩

lemma mutation_opOf (lsn t : ℕ) (m : Mutation) :
    (Record.mk lsn t m.engineId (opOf m.change) m.key (valueOf m.change)).mutation = some m := by
  obtain ⟨e, k, c⟩ := m
  cases c <;> rfl

lemma step_cases (h : Logged j.log j.history) (hids : ∀ t ∈ j.running, t < 2 ^ 64)
    (hs : j.step a = some j') : j.Step j' a := by
  cases a with
  | begin t =>
    simp only [step] at hs
    split_ifs at hs with hbad
    push Not at hbad
    obtain ⟨j1, hw, rfl⟩ := map_eq_some_iff.mp hs
    obtain ⟨r, rfl, hj, ext, hlast⟩ := write_cases h hbad.2.1 hw
    refine .begin t _ { ext with } rfl rfl hbad.2.1 ?_ rfl ?_ hlast
    · intro q hq hqt
      exact hbad.2.2 (List.any_eq_true.mpr ⟨q, hq, by simpa using hqt⟩)
    · rw [hj]
  | mutate t m =>
    simp only [step] at hs
    split_ifs at hs with hrun
    simp only [bind_eq_some_iff, map_eq_some_iff] at hs
    obtain ⟨j1, hw, s, hm, rfl⟩ := hs
    obtain ⟨r, rfl, hj, ext, hlast⟩ := write_cases h (hids t hrun) hw
    exact .mutate t m _ { ext with } (mutation_opOf _ _ m) rfl hrun
      (by rw [hj]) hm hlast
  | commit t | abort t =>
    simp only [step] at hs
    split_ifs at hs with hrun
    obtain ⟨j1, hw, rfl⟩ := map_eq_some_iff.mp hs
    obtain ⟨r, rfl, hj, ext, hlast⟩ := write_cases h (hids t hrun) hw
    constructor
    · exact { ext with }
    · rfl
    · rfl
    · exact hrun
    · rw [stop, hj]
    · rw [stop, hj]
    · exact hlast
  | checkpoint =>
    simp only [step, map_eq_some_iff, Prod.exists] at hs
    obtain ⟨r, w, hc, rfl⟩ := hs
    obtain ⟨hop, hlogged, hlast, hlsn, hid⟩ := h.recoveryCheckpoint hc
    exact .checkpoint r ⟨rfl, hlogged, hlsn⟩ hop hid rfl rfl hlast

end Journal

end Qihse.Wal
