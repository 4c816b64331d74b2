import Mathlib

/-!
# The hybrid logical clock

The clock of `qihse_federation.c` has 64 bits of milliseconds and a counter of 32 bits for events in
the same millisecond. The counter wraps: a stamp with the largest counter, which any peer may send,
is followed by one with the counter zero. As long as no counter does, the stamps of a node go up and
exceed everything the node has observed.
-/

namespace Qihse.Federation

open Bool UInt32

structure Hlc where
  physicalMs : UInt64
  logical : UInt32
  deriving DecidableEq

namespace Hlc

def init : Hlc := ⟨0, 0⟩

/-- The clock after a local event, which is also the stamp of the event. -/
def tick (clock : Hlc) (now : UInt64) : Hlc :=
  if clock.physicalMs < now then ⟨now, 0⟩ else ⟨clock.physicalMs, clock.logical + 1⟩

/-- The latest of the clock, the wall clock and the remote stamp, in milliseconds. -/
def latest (clock remote : Hlc) (now : UInt64) : UInt64 :=
  let physical := if clock.physicalMs < now then now else clock.physicalMs
  if physical < remote.physicalMs then remote.physicalMs else physical

def observe (clock remote : Hlc) (now : UInt64) : Hlc :=
  let physical := latest clock remote now
  if physical = clock.physicalMs ∧ physical = remote.physicalMs then
    ⟨physical, (if remote.logical < clock.logical then clock.logical else remote.logical) + 1⟩
  else if physical = clock.physicalMs then ⟨physical, clock.logical + 1⟩
  else if physical = remote.physicalMs then ⟨physical, remote.logical + 1⟩
  else ⟨physical, 0⟩

def compare (a b : Hlc) : ℤ :=
  if a.physicalMs < b.physicalMs then -1
  else if b.physicalMs < a.physicalMs then 1
  else if a.logical < b.logical then -1
  else if b.logical < a.logical then 1
  else 0

/-! ### The order of stamps -/

/-- The place of a stamp in the order of `compare`. -/
def rank (a : Hlc) : ℕ := a.physicalMs.toNat * 2 ^ 32 + a.logical.toNat

variable {a b clock remote : Hlc} {now : UInt64}

lemma rank_lt_rank : a.rank < b.rank ↔ a.physicalMs < b.physicalMs ∨
      a.physicalMs = b.physicalMs ∧ a.logical < b.logical := by
  have ha := a.logical.toNat_lt
  have hb := b.logical.toNat_lt
  rw [UInt64.lt_iff_toNat_lt, lt_iff_toNat_lt, ← UInt64.toNat_inj]
  unfold rank
  omega

lemma compare_pos : 0 < compare a b ↔ b.rank < a.rank := by
  rw [rank_lt_rank]
  simp only [UInt64.lt_iff_toNat_lt, lt_iff_toNat_lt, ← UInt64.toNat_inj, compare]
  split_ifs <;> omega

end Hlc

open Hlc

/-! ### Runs -/

inductive Event (ι : Type)
  | tick (node : ι) (now : UInt64)
  | observe (node : ι) (remote : Hlc) (now : UInt64)

namespace Event

variable {ι : Type}

def node : Event ι → ι
  | tick node _ => node
  | observe node _ _ => node

/-- The clock of the node after the event. -/
def apply (clock : Hlc) : Event ι → Hlc
  | tick _ now => clock.tick now
  | observe _ remote now => clock.observe remote now

/-- The event does not add one to the largest counter. -/
def countable (clock : Hlc) : Event ι → Bool
  | tick _ now => clock.physicalMs < now || clock.logical != 0xFFFFFFFF
  | observe _ remote now =>
    (clock.latest remote now != clock.physicalMs || clock.logical != 0xFFFFFFFF) &&
      (clock.latest remote now != remote.physicalMs || remote.logical != 0xFFFFFFFF)

variable {e : Event ι} {clock remote : Hlc} {node : ι} {now : UInt64}

lemma toNat_succ {n : UInt32} (h : n ≠ 0xFFFFFFFF) : (n + 1).toNat = n.toNat + 1 := by
  have hlt := n.toNat_lt
  have hne : n.toNat ≠ 0xFFFFFFFF := fun hn => h (UInt32.toNat_inj.mp hn)
  rw [UInt32.toNat_add, UInt32.toNat_one, Nat.mod_eq_of_lt]
  omega

lemma rank_tick (h : (tick node now).countable clock = true) :
    clock.rank < (clock.tick now).rank := by
  simp only [countable, or_eq_true, decide_eq_true_iff, bne_iff_ne] at h
  rw [Hlc.rank_lt_rank, Hlc.tick]
  split_ifs with hnow
  · exact .inl hnow
  · refine .inr ⟨rfl, ?_⟩
    rw [lt_iff_toNat_lt, toNat_succ (h.resolve_left hnow)]
    exact Nat.lt_succ_self _

lemma le_latest (clock remote : Hlc) (now : UInt64) :
    clock.physicalMs ≤ clock.latest remote now ∧ remote.physicalMs ≤ clock.latest remote now := by
  simp only [latest, UInt64.le_iff_toNat_le]
  split_ifs with h1 h2 h2 <;> rw [UInt64.lt_iff_toNat_lt] at h1 h2 <;> omega

/-- An observation moves the clock past where it was and past what is observed. -/
lemma rank_observe (h : (observe node remote now).countable clock = true) :
    clock.rank < (clock.observe remote now).rank ∧
      remote.rank < (clock.observe remote now).rank := by
  obtain ⟨hclock, hremote⟩ := le_latest clock remote now
  simp only [countable, and_eq_true, or_eq_true, bne_iff_ne] at h
  obtain ⟨hroom, hroom'⟩ := h
  simp only [Hlc.rank_lt_rank, Hlc.observe]
  generalize clock.latest remote now = physical at *
  have hlt : physical ≠ clock.physicalMs → clock.physicalMs < physical := fun hne =>
    UInt64.lt_of_le_of_ne hclock (Ne.symm hne)
  have hlt' : physical ≠ remote.physicalMs → remote.physicalMs < physical := fun hne =>
    UInt64.lt_of_le_of_ne hremote (Ne.symm hne)
  split_ifs with hboth hmax hown hother
  · have hsucc := toNat_succ (hroom.resolve_left (not_not_intro hboth.1))
    simp only [lt_iff_toNat_lt] at hmax ⊢
    exact ⟨.inr ⟨hboth.1.symm, by omega⟩, .inr ⟨hboth.2.symm, by omega⟩⟩
  · have hsucc := toNat_succ (hroom'.resolve_left (not_not_intro hboth.2))
    simp only [lt_iff_toNat_lt] at hmax ⊢
    exact ⟨.inr ⟨hboth.1.symm, by omega⟩, .inr ⟨hboth.2.symm, by omega⟩⟩
  · have hsucc := toNat_succ (hroom.resolve_left (not_not_intro hown))
    refine ⟨.inr ⟨hown.symm, ?_⟩, .inl (hlt' fun heq => hboth ⟨hown, heq⟩)⟩
    rw [lt_iff_toNat_lt, hsucc]
    exact Nat.lt_succ_self _
  · have hsucc := toNat_succ (hroom'.resolve_left (not_not_intro hother))
    refine ⟨.inl (hlt hown), .inr ⟨hother.symm, ?_⟩⟩
    rw [lt_iff_toNat_lt, hsucc]
    exact Nat.lt_succ_self _
  · exact ⟨.inl (hlt hown), .inl (hlt' hother)⟩

lemma rank_apply (h : e.countable clock = true) : clock.rank < (e.apply clock).rank := by
  cases e with
  | tick => exact rank_tick h
  | observe => exact (rank_observe h).1

end Event

open Federation.Event

/-- The clocks of all nodes. -/
abbrev Clocks (ι : Type) : Type := ι → Hlc

namespace Clocks

variable {ι : Type} [DecidableEq ι]

def step (clocks : Clocks ι) (e : Event ι) : Clocks ι :=
  Function.update clocks e.node (e.apply (clocks e.node))

def run (clocks : Clocks ι) (events : List (Event ι)) : Clocks ι := events.foldl step clocks

/-- No event of the run adds one to the largest counter. -/
def meets (clocks : Clocks ι) : List (Event ι) → Bool
  | [] => true
  | e :: events => e.countable (clocks e.node) && (clocks.step e).meets events

variable {clocks : Clocks ι} {a b : List (Event ι)} {e : Event ι} {i : ι}

lemma meets_append : clocks.meets (a ++ b) = (clocks.meets a && (clocks.run a).meets b) := by
  induction a generalizing clocks with
  | nil => rfl
  | cons e a ih =>
    rw [List.cons_append, meets, ih, meets, Bool.and_assoc]
    rfl

lemma run_append : clocks.run (a ++ b) = (clocks.run a).run b := List.foldl_append

lemma rank_step (h : e.countable (clocks e.node) = true) (i : ι) :
    (clocks i).rank ≤ (clocks.step e i).rank := by
  unfold step
  by_cases hi : i = e.node
  · cases hi
    rw [Function.update_self]
    exact (rank_apply h).le
  · rw [Function.update_of_ne hi]

lemma rank_run (h : clocks.meets a = true) (i : ι) : (clocks i).rank ≤ (clocks.run a i).rank := by
  induction a generalizing clocks with
  | nil => exact le_rfl
  | cons e a ih =>
    obtain ⟨he, ha⟩ := (and_eq_true _ _).mp h
    exact (rank_step he i).trans (ih ha)

/-- The event after `a` in a run that meets the condition. -/
lemma step_of_meets (h : clocks.meets (a ++ e :: b) = true) :
    clocks.meets a = true ∧ e.countable (clocks.run a e.node) = true ∧
      (clocks.run (a ++ [e])).meets b = true := by
  rw [meets_append, and_eq_true] at h
  obtain ⟨hafter, hb⟩ := (and_eq_true _ _).mp h.2
  refine ⟨h.1, hafter, ?_⟩
  rw [run_append]
  exact hb

lemma run_concat_self : clocks.run (a ++ [e]) e.node = e.apply (clocks.run a e.node) := by
  rw [run_append]
  exact Function.update_self ..

end Clocks

open Clocks in
/-- In every run without a wrap, a clock never goes back, a tick is after every earlier stamp of its
node, and it is after every stamp its node has observed. -/
theorem clock_respects_causality {ι : Type} [DecidableEq ι] (events : List (Event ι))
    (hmeets : Clocks.meets (fun _ => init) events = true) (i : ι) :
    let clocks := Clocks.run fun _ => init
    (∀ a b c : List (Event ι), events = a ++ b ++ c →
      compare (clocks a i) (clocks (a ++ b) i) ≤ 0) ∧
      (∀ (a b : List (Event ι)) now c, events = a ++ b ++ tick i now :: c →
        0 < compare (clocks (a ++ b ++ [tick i now]) i) (clocks a i)) ∧
      ∀ (a : List (Event ι)) remote seen b now c,
        events = a ++ observe i remote seen :: b ++ tick i now :: c →
          0 < compare (clocks (a ++ observe i remote seen :: b ++ [tick i now]) i) remote := by
  intro clocks
  have hmono : ∀ a b, Clocks.meets (fun _ => init) (a ++ b) = true →
      (clocks a i).rank ≤ (clocks (a ++ b) i).rank := by
    intro a b hab
    rw [meets_append, and_eq_true] at hab
    show (Clocks.run _ a i).rank ≤ (Clocks.run _ (a ++ b) i).rank
    rw [run_append]
    exact rank_run hab.2 i
  have htick : ∀ a now c, events = a ++ tick i now :: c →
      (clocks a i).rank < (clocks (a ++ [tick i now]) i).rank := by
    rintro a now c rfl
    obtain ⟨-, hcount, -⟩ := step_of_meets hmeets
    have happly : clocks (a ++ [tick i now]) i = (clocks a i).tick now := run_concat_self
    rw [happly]
    exact rank_tick hcount
  refine ⟨?_, ?_, ?_⟩
  · rintro a b c rfl
    rw [meets_append, and_eq_true] at hmeets
    rw [← not_lt, compare_pos, not_lt]
    exact hmono a b hmeets.1
  · rintro a b now c rfl
    have hab := (step_of_meets hmeets).1
    exact compare_pos.mpr ((hmono a b hab).trans_lt (htick _ now c rfl))
  · rintro a remote seen b now c rfl
    have hab := (step_of_meets hmeets).1
    obtain ⟨-, hcount, -⟩ := step_of_meets hab
    have happly : clocks (a ++ [observe i remote seen]) i = (clocks a i).observe remote seen :=
      run_concat_self
    have hafter := hmono (a ++ [observe i remote seen]) b (by rwa [List.append_assoc])
    rw [happly, List.append_assoc, List.singleton_append] at hafter
    refine compare_pos.mpr (lt_trans ?_ (htick _ now c rfl))
    exact (rank_observe hcount).2.trans_le hafter

namespace Sample

/-- A stamp with the largest counter, sent by a peer. -/
def fullStamp : Hlc := ⟨5, 0xFFFFFFFF⟩

/-- The tick after the observation of a stamp with the largest counter is before it. -/
theorem tick_before_observed : compare (Clocks.run (fun _ => init)
      [observe () fullStamp 0, .tick () 0] ()) fullStamp = -1 := by
  decide +kernel

def twoNodes : List (Event Bool) := [.tick true 7, .observe false ⟨7, 0⟩ 3, .tick false 3]

theorem clock_respects_causality_twoNodes : Clocks.meets (fun _ => init) twoNodes = true ∧
      0 < compare (Clocks.run (fun _ => init) twoNodes false) ⟨7, 0⟩ :=
  ⟨by decide +kernel,
    (clock_respects_causality twoNodes (by decide +kernel) false).2.2 [.tick true 7] ⟨7, 0⟩
      3 [] 3 [] rfl⟩

end Sample

end Qihse.Federation
