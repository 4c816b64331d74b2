import Qihse.Cluster.Route

/-!
# Migrations of slots

`qihse_cluster_migrate.c`: a migration begins while its source owns the slot, and its commit and its
abort then write the owner that was noted at the begin, whoever owns the slot by now.
-/

namespace Qihse.Cluster

open Option Function

/-- `qihse_cluster_migration_state_t`. -/
inductive MigrationState
  | preparing
  | streaming
  | committed
  | aborted
deriving DecidableEq

/-- `qihse_cluster_migration_status_t` without the epoch. -/
structure Migration where
  slot : ℕ
  source : ℕ
  target : ℕ
  state : MigrationState
  keysStreamed : ℕ
  bytesStreamed : ℕ

def Migration.ended (m : Migration) : Bool := m.state == .committed || m.state == .aborted

/-- A topology and the migrations that were begun on it. -/
structure Migrations where
  topology : Topology
  objects : List Migration

namespace Migrations

variable (s : Migrations)

/-- `qihse_cluster_migration_begin`; the flag says that the object can be made. -/
def begin (slot source target : ℕ) (made : Bool) : Option Migrations :=
  if slotCount ≤ slot ∨ source = target ∨ s.topology.slotToNode slot ≠ some source ∨
      made = false then none
  else
    (s.topology.setMigrating slot source target).map fun v =>
      ⟨v, s.objects ++ [⟨slot, source, target, .preparing, 0, 0⟩]⟩

/-- `qihse_cluster_migration_mark_streamed`. -/
def markStreamed (i bytes : ℕ) : Option Migrations := do
  let m ← s.objects[i]?
  if m.ended || m.keysStreamed == 2 ^ 64 - 1 || 2 ^ 64 - 1 - m.bytesStreamed < bytes then none
  else some { s with objects := s.objects.set i { m with
    state := .streaming
    keysStreamed := m.keysStreamed + 1
    bytesStreamed := m.bytesStreamed + bytes } }

/-- The end of a migration that gives the slot to `owner`. -/
def finish (i : ℕ) (owner : Migration → ℕ) (state : MigrationState) : Option Migrations := do
  let m ← s.objects[i]?
  if m.ended then none
  else (s.topology.setStable m.slot (owner m)).map fun v =>
    ⟨v, s.objects.set i { m with state := state }⟩

/-- `qihse_cluster_migration_commit`. -/
def commit (i : ℕ) : Option Migrations := s.finish i Migration.target .committed

/-- `qihse_cluster_migration_abort`. -/
def abort (i : ℕ) : Option Migrations := s.finish i Migration.source .aborted

inductive Call
  | begin (slot source target : ℕ) (made : Bool)
  | markStreamed (i bytes : ℕ)
  | commit (i : ℕ)
  | abort (i : ℕ)

/-- A call; a call that fails changes nothing. -/
def exec : Call → Option Migrations
  | .begin slot source target made => s.begin slot source target made
  | .markStreamed i bytes => s.markStreamed i bytes
  | .commit i => s.commit i
  | .abort i => s.abort i

def step (c : Call) : Migrations := (s.exec c).getD s

def run (calls : List Call) : Migrations := calls.foldl step s

/-- Who owns the slot after the call has ended this migration. -/
def Call.owner : Call → Migration → ℕ
  | .abort _, m => m.source
  | _, m => m.target

/-- The migration that a call ends, if it succeeds. -/
def ending : Call → Option Migration
  | .commit i | .abort i => s.objects[i]?
  | _ => none

/-- The migration of this slot that a call commits. -/
def commits (slot : ℕ) : Call → Option Migration
  | .commit i => if (s.commit i).isSome then s.objects[i]?.filter (·.slot = slot) else none
  | _ => none

/-- The committed migrations of a slot, in order. -/
def committed (s : Migrations) (slot : ℕ) : List Call → List Migration
  | [] => []
  | c :: calls => (s.commits slot c).toList ++ (s.step c).committed slot calls

/-- The owner `o` is followed by the targets of the migrations, each from the one before, up to
`o'`. -/
def Chain : Option ℕ → List Migration → Option ℕ → Prop
  | o, [], o' => o = o'
  | o, m :: ms, o' => o = some m.source ∧ Chain (some m.target) ms o'

/-- At every moment of the run the owner of a slot comes from its first owner along the committed
migrations, a migration begins only while its source owns the slot, and the end of a migration whose
source does not own the slot changes nothing. -/
structure Handed (calls : List Call) : Prop where
  chain : ∀ pre, pre <+: calls → ∀ slot, Chain (s.topology.slotToNode slot) (s.committed slot pre)
    ((s.run pre).topology.slotToNode slot)
  began : ∀ pre slot source target made, pre ++ [.begin slot source target made] <+: calls →
    ((s.run pre).begin slot source target made).isSome →
      (s.run pre).topology.slotToNode slot = some source
  late : ∀ pre c m, pre ++ [c] <+: calls → (s.run pre).ending c = some m →
    (s.run pre).topology.slotToNode m.slot ≠ some m.source → (s.run pre).step c = s.run pre

/-- A migration that the call would end, for a node that is present, is of a slot that its source
owns. -/
def inTurn (c : Call) : Bool :=
  (s.ending c).all fun m =>
    m.ended || !validSlotRange m.slot m.slot || !s.topology.validNode (c.owner m) ||
      s.topology.slotToNode m.slot == some m.source

/-! ### Calls -/

variable {s} {s' : Migrations} {c : Call} {calls pre : List Call} {slot i : ℕ}

lemma begin_eq_some {source target : ℕ} {made : Bool}
    (h : s.begin slot source target made = some s') :
    s.topology.slotToNode slot = some source ∧ s'.topology.slotToNode = s.topology.slotToNode := by
  unfold begin at h
  split_ifs at h with harg
  simp only [not_or, not_not] at harg
  obtain ⟨v, hv, rfl⟩ := map_eq_some_iff.mp h
  unfold Topology.setMigrating Topology.setTransition at hv
  split_ifs at hv
  cases hv
  exact ⟨harg.2.2.1, update_eq_self_iff.mpr harg.2.2.1.symm⟩

lemma finish_eq_some {owner : Migration → ℕ} {state : MigrationState}
    (h : s.finish i owner state = some s') : ∃ m, s.objects[i]? = some m ∧ m.ended = false ∧
      s'.objects = s.objects.set i { m with state := state } ∧
        s'.topology.slotToNode = update s.topology.slotToNode m.slot (some (owner m)) := by
  obtain ⟨m, hm, h⟩ := bind_eq_some_iff.mp h
  split_ifs at h with hended
  obtain ⟨v, hv, rfl⟩ := map_eq_some_iff.mp h
  unfold Topology.setStable Topology.assignRange at hv
  split_ifs at hv
  cases hv
  refine ⟨m, hm, Bool.eq_false_of_not_eq_true hended, rfl, funext fun slot => ?_⟩
  simp [Topology.own, Topology.modifyNode, Topology.setRange, update_apply, ← le_antisymm_iff,
    eq_comm]

lemma finish_ne_self {owner : Migration → ℕ} {state : MigrationState}
    (hstate : state = .committed ∨ state = .aborted) : s.finish i owner state ≠ some s := by
  intro h
  obtain ⟨m, hm, hopen, hobjects, -⟩ := finish_eq_some h
  have hset : s.objects[i]? = some { m with state := state } := by
    rw [hobjects, List.getElem?_set_self (List.getElem?_eq_some_iff.mp hm).1]
  rw [hm, some_inj] at hset
  rw [hset, Migration.ended] at hopen
  rcases hstate with rfl | rfl <;> cases hopen

/-- The calls that fail are in turn. -/
lemma inTurn_eq (s : Migrations) (c : Call) : s.inTurn c = ((s.exec c).isNone ||
    (s.ending c).all fun m => s.topology.slotToNode m.slot == some m.source) := by
  cases c with
  | begin | markStreamed => exact (Bool.or_true _).symm
  | commit i | abort i =>
    cases hm : s.objects[i]? with
    | none => simp [inTurn, ending, hm]
    | some m =>
      simp only [inTurn, ending, exec, commit, abort, finish, hm, all_some, Call.owner,
        Topology.setStable, Topology.assignRange, bind_eq_bind, bind_some]
      cases m.ended <;> cases validSlotRange m.slot m.slot <;>
        cases s.topology.validNode _ <;> rfl

lemma inTurn_iff (s : Migrations) (c : Call) : s.inTurn c = true ↔ ∀ m, s.ending c = some m →
    s.topology.slotToNode m.slot ≠ some m.source → s.step c = s := by
  rw [inTurn_eq, Bool.or_eq_true]
  constructor
  · rintro (h | h) m hm hne
    · rw [step, isNone_iff_eq_none.mp h, getD_none]
    · rw [hm] at h
      exact absurd (beq_iff_eq.mp h) hne
  · intro h
    by_contra hturn
    obtain ⟨hexec, hall⟩ := not_or.mp hturn
    rw [isNone_iff_eq_none] at hexec
    obtain ⟨s', hs'⟩ := ne_none_iff_exists'.mp hexec
    cases hm : s.ending c with
    | none => exact hall (by rw [hm]; rfl)
    | some m =>
      have hsame := h m hm fun heq => hall (by rw [hm]; exact beq_iff_eq.mpr heq)
      rw [step, hs', getD_some] at hsame
      subst hsame
      cases c with
      | begin | markStreamed => cases hm
      | commit => exact finish_ne_self (.inl rfl) hs'
      | abort => exact finish_ne_self (.inr rfl) hs'

/-! ### Runs -/

lemma Chain.append {o o' o'' : Option ℕ} {ms ms' : List Migration} (h : Chain o ms o')
    (h' : Chain o' ms' o'') : Chain o (ms ++ ms') o'' := by
  induction ms generalizing o with
  | nil => exact h ▸ h'
  | cons m ms ih => exact ⟨h.1, ih h.2⟩

lemma chain_step (h : s.inTurn c = true) (slot : ℕ) : Chain (s.topology.slotToNode slot)
    (s.commits slot c).toList ((s.step c).topology.slotToNode slot) := by
  rw [inTurn_eq, Bool.or_eq_true] at h
  cases hexec : s.exec c with
  | none =>
    rw [step, hexec, getD_none]
    cases c with
    | commit i =>
      have hfail : s.commit i = none := hexec
      simp [commits, hfail, Chain]
    | _ => rfl
  | some s' =>
    rw [step, hexec, getD_some]
    replace h := h.resolve_left (by simp [hexec])
    cases c with
    | begin => exact (congrFun (begin_eq_some hexec).2 slot).symm
    | markStreamed =>
      obtain ⟨m, -, hsome⟩ := bind_eq_some_iff.mp hexec
      split_ifs at hsome
      cases hsome
      rfl
    | commit i =>
      have hcommit : s.commit i = some s' := hexec
      obtain ⟨m, hm, -, -, howner⟩ := finish_eq_some hexec
      simp only [ending, hm, all_some, beq_iff_eq] at h
      rw [howner, commits, hcommit, hm]
      by_cases hslot : m.slot = slot
      · subst hslot
        simp [Option.filter, Chain, h]
      · simp [Option.filter, Chain, hslot, update_of_ne (Ne.symm hslot)]
    | abort =>
      obtain ⟨m, hm, -, -, howner⟩ := finish_eq_some hexec
      simp only [ending, hm, all_some, beq_iff_eq] at h
      rw [howner, ← h, update_eq_self]
      rfl

lemma committed_append (s : Migrations) (slot : ℕ) (calls : List Call) (c : Call) :
    s.committed slot (calls ++ [c]) =
      s.committed slot calls ++ ((s.run calls).commits slot c).toList := by
  induction calls generalizing s with
  | nil => simp [committed, run]
  | cons c' calls ih => simp [committed, ih, run]

lemma run_append (s : Migrations) (calls : List Call) (c : Call) :
    s.run (calls ++ [c]) = (s.run calls).step c := by
  simp [run]

/-- Slots are handed over along the committed migrations exactly if every commit and every abort
that succeeds finds the source of its migration in possession of the slot. -/
theorem handed_iff (v : Topology) (calls : List Call) : Handed ⟨v, []⟩ calls ↔
    ∀ pre c, pre ++ [c] <+: calls → (run ⟨v, []⟩ pre).inTurn c = true := by
  constructor
  · intro h pre c hpre
    exact (inTurn_iff _ c).mpr fun m => h.late pre c m hpre
  · intro h
    refine ⟨fun pre hpre slot => ?_, fun pre slot source target made _ hb => ?_,
      fun pre c m hpre => (inTurn_iff _ c).mp (h pre c hpre) m⟩
    swap
    · obtain ⟨s', hs'⟩ := isSome_iff_exists.mp hb
      exact (begin_eq_some hs').1
    induction pre using List.reverseRecOn with
    | nil => rfl
    | append_singleton pre c ih =>
      rw [committed_append, run_append]
      exact (ih ((List.prefix_append _ _).trans hpre)).append (chain_step (h pre c hpre) slot)

namespace Sample

open Cluster.Sample (node)

/-- Node 0 has slot 0, and two migrations of it begin, of which one is committed. -/
def overlapping : List Call := [.begin 0 0 1 true, .begin 0 0 2 true, .commit 0]

def threeNodes : Topology where
  __ := Topology.create
  nodes := [node 48, node 49, node 50]
  slotToNode := update (fun _ => none) 0 (some 0)
  ids := by decide
  named := by decide

/-- The abort of the other migration takes the slot from the node that it was handed to. -/
theorem late_abort_takes_slot :
    ((run ⟨threeNodes, []⟩ overlapping).topology.slotToNode 0 = some 1 ∧
      (run ⟨threeNodes, []⟩ (overlapping ++ [.abort 1])).topology.slotToNode 0 = some 0) ∧
        ¬ Handed ⟨threeNodes, []⟩ (overlapping ++ [.abort 1]) := by
  refine ⟨⟨rfl, rfl⟩, fun h => ?_⟩
  have hsame := h.late overlapping (.abort 1) ⟨0, 0, 2, .preparing, 0, 0⟩ (List.prefix_refl _) rfl
    (by decide)
  exact absurd (congrArg (·.topology.slotToNode 0) hsame) (by decide)

end Sample

end Migrations

end Qihse.Cluster
