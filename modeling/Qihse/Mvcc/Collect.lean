import Qihse.Mvcc.Isolation

/-!
# Collecting dead versions

`qihse_mvcc_gc` takes a version for dead when its `xmax` is below the cutoff, whoever wrote it
there. Readers are more careful: a mark left by an aborted transaction deletes nothing. The two
agree on every row where each version that goes was never committed, was superseded by a committed
transaction, or is hidden anyway by a newer write of the row.
-/

namespace Qihse.Mvcc

open List Bool Version

open Txn (Env)

/-- The test of `qihse_mvcc_gc`. A delete intent is never dead. -/
def Version.dead (m : ℕ) (v : Version) : Bool :=
  !v.isDelete && decide (v.xmax ≠ 0) && decide (v.xmax < m)

/-- `qihse_mvcc_gc`, which `qihse_mvcc_vacuum` calls; the number is that of the versions removed. -/
def Store.gc (s : Store) (m : ℕ) : ℕ × Store :=
  ((s.rows.map fun r => r.chain.countP (dead m)).sum,
    ⟨s.rows.map fun r => { r with chain := r.chain.filter fun v => !v.dead m }⟩)

/-- Seen from every snapshot that is not below the cutoff and sees `v`, the newer node `w` hides
`v`: it is a committed write or delete that is not older than `v`. -/
def Version.hides (committed : ℕ → Bool) (m : ℕ) (w v : Version) : Bool :=
  committed w.xmin && decide (w.xmin ≤ max m v.xmin) && decide (v.xmin ≤ w.xmin) &&
    (w.isDelete || decide (w.xmax = 0) || !committed w.xmax)

/-- Every dead version of a chain is of no use to a reader, where `above` are the nodes before. -/
def collectable (committed : ℕ → Bool) (m : ℕ) : List Version → List Version → Bool
  | _, [] => true
  | above, v :: below =>
    (!v.dead m || !committed v.xmin || committed v.xmax ||
      above.any fun w => w.hides committed m v) &&
      collectable committed m (above ++ [v]) below

/-! ### One chain -/

section Chain

variable {committed : ℕ → Bool} {m snapshot : ℕ} {above chain : List Version} {v w : Version}

/-- Whatever `above` shows a reader is deleted there. -/
def Exhausted (committed : ℕ → Bool) (snapshot : ℕ) (above : List Version) : Prop :=
  ∀ w ∈ above, w.isDelete = false → w.visible committed snapshot = true →
    (intentsSeen committed snapshot above).any (fun d => decide (w.xmin ≤ d)) = true

lemma exhausted_concat (h : Exhausted committed snapshot above)
    (hv : v.isDelete = false → v.visible committed snapshot = true →
      (intentsSeen committed snapshot above).any (fun d => decide (v.xmin ≤ d)) = true) :
    Exhausted committed snapshot (above ++ [v]) := by
  intro w hw hdel hvis
  rw [intentsSeen_concat, any_append, or_eq_true]
  left
  rcases mem_append.mp hw with hw | hw
  · exact h w hw hdel hvis
  · obtain rfl := mem_singleton.mp hw
    exact hv hdel hvis

/-- A reader that sees a dead version knows that its superseder has not committed. -/
lemma Version.visible_dead (hdead : v.dead m = true) (hs : m ≤ snapshot)
    (hvis : v.visible committed snapshot = true) :
    v.xmin ≤ snapshot ∧ committed v.xmin = true ∧ committed v.xmax = false := by
  simp only [dead, and_eq_true, decide_eq_true_eq] at hdead
  obtain ⟨⟨-, hmax⟩, hlt⟩ := hdead
  unfold visible at hvis
  grind

/-- A node that hides `v` either deletes it or is deleted together with it. -/
lemma Version.hides_deletes (hown : IntentsOwn above) (hex : Exhausted committed snapshot above)
    (hw : w ∈ above) (hhides : w.hides committed m v = true) (hs : m ≤ snapshot)
    (hv : v.xmin ≤ snapshot) :
    (intentsSeen committed snapshot above).any (fun d => decide (v.xmin ≤ d)) = true := by
  simp only [hides, and_eq_true, or_eq_true, decide_eq_true_eq,
    not_eq_true'] at hhides
  obtain ⟨⟨⟨hcommitted, hle⟩, hge⟩, hfresh⟩ := hhides
  have hold : w.xmin ≤ snapshot := by omega
  cases hdel : w.isDelete with
  | true =>
    refine any_eq_true.mpr ⟨w.deleteSnapshot, ?_, ?_⟩
    · refine mem_map.mpr ⟨w, mem_filter.mpr ⟨hw, ?_⟩, rfl⟩
      simp [hdel, settled, hold, hcommitted]
    · rw [hown w hw hdel]
      exact decide_eq_true hge
  | false =>
    have hvis : w.visible committed snapshot = true := by
      rw [hdel] at hfresh
      unfold visible
      grind
    obtain ⟨d, hd, hwd⟩ := any_eq_true.mp (hex w hw hdel hvis)
    exact any_eq_true.mpr ⟨d, hd, decide_eq_true (hge.trans (of_decide_eq_true hwd))⟩

lemma view_cons (v : Version) (below : List Version) : view committed snapshot (v :: below) =
      (v.see committed snapshot).toList ++ view committed snapshot below := by
  unfold view
  rw [filterMap_cons]
  cases v.see committed snapshot <;> rfl

/-- The reader's walk over a chain and over what the collector leaves of it. -/
lemma answer_filter_dead (hs : m ≤ snapshot) (hown : IntentsOwn (above ++ chain))
    (hok : collectable committed m above chain = true) (hex : Exhausted committed snapshot above) :
    answer (intentsSeen committed snapshot above)
        (view committed snapshot (chain.filter fun v => !v.dead m)) =
      answer (intentsSeen committed snapshot above) (view committed snapshot chain) := by
  induction chain generalizing above with
  | nil => rfl
  | cons v below ih =>
    rw [collectable, and_eq_true] at hok
    have ih := @ih (above ++ [v]) (by simpa using hown) hok.2
    rw [intentsSeen_concat] at ih
    cases hdead : v.dead m with
    | true =>
      have hdel : v.isDelete = false := by
        simp only [dead, and_eq_true] at hdead
        simpa using hdead.1.1
      rw [filter_cons_of_neg (by simp [hdead]), view_cons]
      rw [hdel, Bool.false_and, if_neg (by simp), append_nil] at ih
      cases hvis : v.visible committed snapshot with
      | false =>
        rw [ih (exhausted_concat hex fun _ hc => by simp [hvis] at hc)]
        simp [see, hdel, hvis]
      | true =>
        obtain ⟨hv, hmin, hmax⟩ := visible_dead hdead hs hvis
        obtain ⟨w, hw, hhides⟩ : ∃ w ∈ above, w.hides committed m v = true := by
          simpa [hdead, hmin, hmax] using hok.1
        have hgone := hides_deletes (fun p hp => hown p (mem_append_left _ hp)) hex hw
          hhides hs hv
        rw [ih (exhausted_concat hex fun _ _ => hgone)]
        simp [see, hdel, hvis, answer, hgone]
    | false =>
      rw [filter_cons_of_pos (by simp [hdead]), view_cons, view_cons]
      cases hdel : v.isDelete with
      | true =>
        have ih := ih (exhausted_concat hex fun hc => by simp [hdel] at hc)
        rw [hdel, Bool.true_and] at ih
        cases hset : v.settled committed snapshot with
        | true => simpa [see, hdel, hset, answer] using ih
        | false => simpa [see, hdel, hset] using ih
      | false =>
        rw [hdel, Bool.false_and, if_neg (by simp), append_nil] at ih
        cases hvis : v.visible committed snapshot with
        | false =>
          have ih := ih (exhausted_concat hex fun _ hc => by simp [hvis] at hc)
          simpa [see, hdel, hvis] using ih
        | true =>
          cases hgone : (intentsSeen committed snapshot above).any
              (fun d => decide (v.xmin ≤ d)) with
          | true =>
            have ih := ih (exhausted_concat hex fun _ _ => hgone)
            simpa [see, hdel, hvis, answer, hgone] using ih
          | false => simp [see, hdel, hvis, answer, hgone]

end Chain

/-! ### The store -/

section Rows

variable {s : Store} {m : ℕ} {e : UInt8} {k : Key}

lemma Store.chain_gc (s : Store) (m : ℕ) (e : UInt8) (k : Key) :
    (s.gc m).2.chain e k = (s.chain e k).filter fun v => !v.dead m := by
  have hfind : (s.gc m).2.rowLookup e k = (s.rowLookup e k).map fun r =>
      { r with chain := r.chain.filter fun v => !v.dead m } := by
    unfold rowLookup gc
    rw [find?_map]
    rfl
  unfold chain
  rw [hfind]
  cases s.rowLookup e k <;> rfl

lemma Store.Own.gc (h : s.Own) (m : ℕ) : (s.gc m).2.Own := by
  intro e k v hv
  rw [chain_gc] at hv
  exact h e k v (mem_of_mem_filter hv)

/-- The condition on every row of a store. -/
def Store.collectable (s : Store) (committed : ℕ → Bool) (m : ℕ) : Bool :=
  s.rows.all fun r => Mvcc.collectable committed m [] r.chain

lemma Store.collectable_chain {committed : ℕ → Bool} (h : s.collectable committed m = true) :
    Mvcc.collectable committed m [] (s.chain e k) = true := by
  unfold chain
  cases hr : s.rowLookup e k with
  | none => rfl
  | some r => exact all_eq_true.mp h r (mem_of_find?_eq_some hr)

end Rows

/-! ### Sessions with a collector -/

/-- A call on the manager or the store, or a run of the collector. -/
inductive Act
  | op (op : Op)
  | gc (m : ℕ)

namespace Session

/-- `qihse_mvcc_gc` in a session: the manager is not asked. -/
def gc (s : Session) (m : ℕ) : Session := { s with store := (s.store.gc m).2 }

def act (s : Session) : Act → Session
  | .op op => s.step op
  | .gc m => s.gc m

def acts (s : Session) (as : List Act) : Session := as.foldl act s

/-- Each version that a collection at `m` would remove is of no use to a reader. -/
def collectable (s : Session) (m : ℕ) : Bool := s.store.collectable s.manager.isCommitted m

variable {s : Session}

lemma Wf.act (w : s.Wf) (a : Act) : (s.act a).Wf := by
  cases a with
  | op op => exact w.step op
  | gc m => exact ⟨w.manager, w.own.gc m⟩

lemma Wf.acts (w : s.Wf) (as : List Act) : (s.acts as).Wf := by
  induction as generalizing s with
  | nil => exact w
  | cons a as ih => exact ih (w.act a)

/-- A collection that meets the condition is invisible, in every state that calls, writes and other
collections lead to. -/
theorem read_gc (as : List Act) (m : ℕ) (hok : (create.acts as).collectable m = true) (e : UInt8)
    (k : Key) (snapshot : ℕ) (hs : m ≤ snapshot) :
    ((create.acts as).gc m).read e k snapshot = (create.acts as).read e k snapshot := by
  have hown : (create.acts as).store.Own := (wf_create.acts as).own
  have hread := (hown.gc m).read_eq e k snapshot (create.acts as).manager.isCommitted
  rw [Store.chain_gc] at hread
  refine hread.trans ((@answer_filter_dead _ m snapshot [] _ hs (hown e k) ?_ ?_).trans ?_)
  · exact Store.collectable_chain hok
  · intro w hw
    cases hw
  · exact (hown.read_eq e k snapshot _).symm

end Session

namespace Sample

def written (t : ℕ) (change : Change) : Act := .op (.mutate t ⟨0, [107], change⟩)

/-- A committed value, an update of it that is rolled back, and a reader that begins later. -/
def rolledBackUpdate : List Act :=
  [.op (.call (.begin .readCommitted true true)), written 1 (.insert [1]),
    .op (.call (.commit 1 Env.good)),
    .op (.call (.begin .readCommitted true true)), written 2 (.update [2]),
    .op (.call (.rollback 2 true)),
    .op (.call (.begin .readCommitted true true)), .op (.call (.rollback 3 true)),
    .op (.call (.begin .repeatableRead true true))]

/-- The reader has snapshot 3, and a collection at 3 takes the committed value from it. -/
theorem gc_loses_committed :
    let s := Session.create.acts rolledBackUpdate
    s.manager.active = [4] ∧ (s.manager.txns 4).map Txn.Handle.snapshot = some 3 ∧
      s.read 0 [107] 3 = some [1] ∧ (s.gc 3).read 0 [107] 3 = none := by
  decide +kernel

/-- A committed value, an update that is rolled back, and one that is committed. -/
def updatedTwice : List Act :=
  rolledBackUpdate ++ [written 4 (.update [3]), .op (.call (.commit 4 Env.good))]

theorem read_gc_updated : (Session.create.acts updatedTwice).collectable 5 = true ∧
      ((Session.create.acts updatedTwice).gc 5).read 0 [107] 5 =
        (Session.create.acts updatedTwice).read 0 [107] 5 :=
  ⟨by decide +kernel, Session.read_gc updatedTwice 5 (by decide +kernel) 0 [107] 5 (le_refl 5)⟩

end Sample

end Qihse.Mvcc
