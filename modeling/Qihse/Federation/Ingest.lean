import Qihse.Federation.Journal
import Qihse.Probing.Table

/-!
# Federation ingest

`qihse_federation_ingest.c`: a consumer that hands the events of the journal to a callback behind
two gates, a ring of request ids and a table of generations, both kept in its checkpoint. The table
is open-addressed and an accepted tombstone frees its slot, which can hide the gates behind it.
-/

open Bytes Qihse.Event List Probing Function Bool

namespace Qihse.Federation

def ingestDedupRing : ℕ := 64

def ingestResourcesMax : ℕ := 4096

/-- `qfi_checkpoint_t`. A slot of the resource table is empty if its id is. -/
structure Checkpoint where
  cursor : ℕ
  ring : List Uuid
  resources : Table Text UInt64

/-- `res_hash`. -/
def resHash (key : Text) : UInt32 :=
  key.foldl (fun h b => (h ^^^ b.toUInt32) * 16777619) 2166136261

/-- The slot at which `res_slot` begins. -/
def resHome (key : Text) : ℕ := (resHash key).toNat &&& (ingestResourcesMax - 1)

namespace Checkpoint

def fresh : Checkpoint := ⟨0, [], fun _ => none⟩

/-- `ring_seen`. -/
def ringSeen (ck : Checkpoint) (id : Uuid) : Bool := ck.ring.contains id

/-- `ring_push`. -/
def ringPush (ck : Checkpoint) (id : Uuid) : Checkpoint :=
  if ck.ring.length < ingestDedupRing then { ck with ring := ck.ring ++ [id] }
  else { ck with ring := ck.ring.tail ++ [id] }

/-- `res_slot`: the slot and whether it holds the key; `none` if the table is full. -/
def resSlot (ck : Checkpoint) (key : Text) : Option (ℕ × Bool) :=
  probe ingestResourcesMax ck.resources key ingestResourcesMax (resHome key)

def generation (ck : Checkpoint) (slot : ℕ) : UInt64 := (ck.resources slot).elim 0 Prod.snd

def setGate (ck : Checkpoint) (slot : ℕ) (key : Text) (generation : UInt64) : Checkpoint :=
  { ck with resources := update ck.resources slot (some (key, generation)) }

def freeGate (ck : Checkpoint) (slot : ℕ) : Checkpoint :=
  { ck with resources := update ck.resources slot none }

/-- `qihse_federation_ingest_seed_generation`. -/
def seedGeneration (ck : Checkpoint) (resourceId : Text) (generation : UInt64) :
    Checkpoint × Bool :=
  if resourceId = [] then (ck, false)
  else
    match ck.resSlot resourceId with
    | none => (ck, false)
    | some (slot, false) => (ck.setGate slot (fit 64 resourceId) generation, true)
    | some (slot, true) =>
      if generation > ck.generation slot then (ck.setGate slot resourceId generation, true)
      else (ck, true)

/-- The gate slot that `qfi_deliver` looks up. -/
def slotOf (ck : Checkpoint) (ev : JournalEvent) : Option (ℕ × Bool) :=
  if ev.resourceId = [] then none else ck.resSlot ev.resourceId

/-- Gate 2: the generation is not above that of the gate. -/
def stale (ck : Checkpoint) (ev : JournalEvent) : Bool :=
  match ck.slotOf ev with
  | some (slot, true) => ev.mutation.expectedGeneration ≤ ck.generation slot
  | _ => false

/-- What an applied event leaves in the checkpoint. The slot was looked up before the callback. -/
def record (ck : Checkpoint) (ev : JournalEvent) : Checkpoint :=
  let ck' := ck.ringPush ev.mutation.requestId
  match ck.slotOf ev with
  | none => ck'
  | some (slot, found) =>
    if ev.isTombstone then ck'.freeGate slot
    else if found then ck'.setGate slot ev.resourceId ev.mutation.expectedGeneration
    else ck'.setGate slot (fit 64 ev.resourceId) ev.mutation.expectedGeneration

end Checkpoint

open Checkpoint

/-! ### Runs -/

/-- What can be seen of a consumer: a seed that was taken, and a call of the apply callback with
its answer. -/
inductive Observation
  | seeded (resourceId : Text) (generation : UInt64)
  | called (ev : JournalEvent) (accepted : Bool)
deriving DecidableEq

/-- `qfi_run_ctx_t`, with the number of callback calls of the run and what has been seen. -/
structure IngestRun where
  ck : Checkpoint
  consumed : ℕ
  calls : ℕ
  stopped : Bool
  trace : List Observation

/-- `qfi_deliver`. The answers of the callback are given for each call of the run. -/
def qfiDeliver (answer : ℕ → Bool) (ev : JournalEvent) (_payload : List UInt8) (ctx : IngestRun) :
    IngestRun × Bool :=
  let ctx := { ctx with consumed := ctx.consumed + 1 }
  if ctx.ck.ringSeen ev.mutation.requestId then (ctx, true)
  else if ctx.ck.stale ev then (ctx, true)
  else if answer ctx.calls then
    ({ ctx with
        ck := ctx.ck.record ev
        calls := ctx.calls + 1
        trace := ctx.trace ++ [Observation.called ev true] }, true)
  else
    ({ ctx with
        calls := ctx.calls + 1
        stopped := true
        trace := ctx.trace ++ [Observation.called ev false] }, false)

/-- The loop of `qihse_federation_ingest_run`. Each round that comes back consumed one event of the
budget. -/
def ingestLoop (file : List UInt8) (answer : ℕ → Bool) : ℕ → IngestRun → IngestRun
  | 0, ctx => ctx
  | budget + 1, ctx =>
    let (n, ctx, advanced) := replayWindow file (qfiDeliver answer) ctx.ck.cursor 1 ctx
    if n = 0 then ctx
    else if ctx.stopped then ctx
    else ingestLoop file answer budget { ctx with ck := { ctx.ck with cursor := advanced } }

/-- A consumer: its checkpoint in memory and in its file, whether the last write of the file
succeeded, and what has been seen of it. -/
structure Ingest where
  ck : Checkpoint
  saved : Option Checkpoint
  written : Bool
  trace : List Observation

namespace Ingest

def fresh : Ingest := ⟨.fresh, none, true, []⟩

/-- `ck_save`, which may fail. -/
def ckSave (s : Ingest) (ok : Bool) : Ingest :=
  { s with saved := if ok then some s.ck else s.saved, written := ok }

def budgetOf (maxEvents : ℕ) : ℕ := if maxEvents = 0 then 2 ^ 64 - 1 else maxEvents

/-- Calls on a consumer of one journal, with the outcome of `ck_save` at their end. -/
inductive Act
  | seed (resourceId : Text) (generation : UInt64) (save : Bool)
  | run (maxEvents : ℕ) (answer : ℕ → Bool) (save : Bool)
  | reopen

def step (file : List UInt8) (s : Ingest) : Act → Ingest
  | .seed id g save =>
    let (ck, ok) := s.ck.seedGeneration id g
    if ok then { s with ck := ck, trace := s.trace ++ [Observation.seeded id g] }.ckSave save else s
  | .run maxEvents answer save =>
    let ctx := ingestLoop file answer (budgetOf maxEvents) ⟨s.ck, 0, 0, false, s.trace⟩
    { s with ck := ctx.ck, trace := ctx.trace }.ckSave save
  | .reopen => { s with ck := s.saved.getD .fresh, written := true }

def run (file : List UInt8) (s : Ingest) (acts : List Act) : Ingest := acts.foldl (step file) s

end Ingest

open Ingest

/-! ### What the gates promise -/

/-- The request ids of the accepted events. -/
def accepted (tr : List Observation) : List Uuid :=
  tr.filterMap fun
    | .called ev true => some ev.mutation.requestId
    | _ => none

def floorStep (id : Text) (fl : List UInt64) : Observation → List UInt64
  | .seeded id' g => if id' = id then fl ++ [g] else fl
  | .called ev true =>
    if ev.resourceId = id then
      if ev.isTombstone then [] else fl ++ [ev.mutation.expectedGeneration]
    else fl
  | .called _ false => fl

/-- The generations that were seeded or accepted for a resource since its last accepted
tombstone. -/
def floor (id : Text) (tr : List Observation) : List UInt64 := tr.foldl (floorStep id) []

/-- Every call of the callback is for a request id that is not among the last accepted ones, and
every accepted event of a resource is above all that came since the tombstone. -/
def Ordered (tr : List Observation) : Prop :=
  ∀ pre ev ok post, tr = pre ++ Observation.called ev ok :: post →
    ev.mutation.requestId ∉ (accepted pre).rtake ingestDedupRing ∧
      (ok = true → ev.resourceId ≠ [] →
        ∀ g ∈ floor ev.resourceId pre, g < ev.mutation.expectedGeneration)

@[simp]
lemma floor_concat (id : Text) (tr : List Observation) (o : Observation) :
    floor id (tr ++ [o]) = floorStep id (floor id tr) o := by
  simp [floor]

@[simp]
lemma accepted_concat_true (tr : List Observation) (ev : JournalEvent) :
    accepted (tr ++ [Observation.called ev true]) = accepted tr ++ [ev.mutation.requestId] := by
  simp [accepted]

@[simp]
lemma accepted_concat_false (tr : List Observation) (ev : JournalEvent) :
    accepted (tr ++ [Observation.called ev false]) = accepted tr := by
  simp [accepted]

@[simp]
lemma accepted_concat_seeded (tr : List Observation) (id : Text) (g : UInt64) :
    accepted (tr ++ [Observation.seeded id g]) = accepted tr := by
  simp [accepted]

/-- One more observation. -/
lemma Ordered.concat {tr : List Observation} {o : Observation} (h : Ordered tr)
    (ho : ∀ ev ok, o = .called ev ok → ev.mutation.requestId ∉ (accepted tr).rtake ingestDedupRing ∧
        (ok = true → ev.resourceId ≠ [] →
          ∀ g ∈ floor ev.resourceId tr, g < ev.mutation.expectedGeneration)) :
    Ordered (tr ++ [o]) := by
  intro pre ev ok post heq
  rcases eq_nil_or_concat post with rfl | ⟨post', x, rfl⟩
  · obtain ⟨rfl, hlast⟩ := append_inj' heq rfl
    exact ho ev ok (by simpa using hlast)
  · rw [concat_eq_append, ← cons_append, ← append_assoc] at heq
    exact h pre ev ok post' (append_inj' heq rfl).1

/-! ### The conditions -/

/-- The resource ids of a journal. -/
def journalIds (file : List UInt8) : List Text :=
  (Cursor.items (journalNext file) file.length 0).map fun x =>
    (journalDeserialize x.2.1 x.2.2).1.resourceId

/-- The resource ids that occur in calls on a consumer of the journal. -/
def occurring (file : List UInt8) (acts : List Ingest.Act) : List Text :=
  (journalIds file ++ acts.filterMap fun
    | .seed id _ _ => some id
    | _ => none).filter (· ≠ [])

/-- What the delivery of an event needs: its resource id fits the table, and if it is a tombstone
that is accepted, then no gate is behind the slot that it frees. -/
def deliverOk (answer : ℕ → Bool) (ev : JournalEvent) (ctx : IngestRun) : Bool :=
  ev.resourceId.length < 64 &&
    (!ev.isTombstone || ctx.ck.ringSeen ev.mutation.requestId || ctx.ck.stale ev ||
      !answer ctx.calls ||
      (ctx.ck.slotOf ev).all fun x =>
        clear ingestResourcesMax resHome ctx.ck.resources x.1)

/-- Every delivery of a run meets its condition. -/
def loopOk (file : List UInt8) (answer : ℕ → Bool) : ℕ → IngestRun → Bool
  | 0, _ => true
  | budget + 1, ctx =>
    match journalNext file ctx.ck.cursor with
    | none => true
    | some (r, advanced) =>
      let ev := (journalDeserialize r.1 r.2).1
      let ctx' := (qfiDeliver answer ev (journalDeserialize r.1 r.2).2 ctx).1
      deliverOk answer ev ctx &&
        (ctx'.stopped ||
          loopOk file answer budget { ctx' with ck := { ctx'.ck with cursor := advanced } })

namespace Ingest

def actOk (file : List UInt8) (s : Ingest) : Act → Bool
  | .seed id _ _ => id.length < 64
  | .run maxEvents answer _ =>
    loopOk file answer (budgetOf maxEvents) ⟨s.ck, 0, 0, false, s.trace⟩
  | .reopen => s.written

/-- Every call of the run meets its condition. -/
def meets (file : List UInt8) : Ingest → List Act → Bool
  | _, [] => true
  | s, a :: acts => s.actOk file a && meets file (s.step file a) acts

end Ingest

/-! ### Gates -/

lemma resHome_lt (key : Text) : resHome key < ingestResourcesMax := by
  have hmod := Nat.and_two_pow_sub_one_eq_mod (resHash key).toNat 12
  rw [resHome, show ingestResourcesMax - 1 = 2 ^ 12 - 1 from rfl, hmod]
  exact Nat.mod_lt _ (by decide)

/-- The table holds a gate for every resource with a floor, at or above it. -/
structure Gates (K : Finset Text) (t : Table Text UInt64) (fl : Text → List UInt64) :
    Prop where
  reachable : Reachable ingestResourcesMax resHome t
  known : ∀ j k v, t j = some (k, v) → k ∈ K
  bound : ∀ id ≠ [], ∀ g ∈ fl id, ∃ j g', t j = some (id, g') ∧ g ≤ g'

namespace Gates

variable {K : Finset Text} {t : Table Text UInt64} {fl fl' : Text → List UInt64}
  {id : Text} {slot : ℕ} {found : Bool} {g : UInt64}

lemma congr (h : Gates K t fl) (hfl : ∀ id ≠ [], fl' id = fl id) : Gates K t fl' :=
  ⟨h.reachable, h.known, fun id hne g hg => h.bound id hne g (hfl id hne ▸ hg)⟩

/-- The slot of another resource. -/
lemma ne_slot (hslot : probe ingestResourcesMax t id ingestResourcesMax (resHome id) =
    some (slot, found)) {j : ℕ} {id' : Text} (hj : t j = some (id', g)) (hne : id' ≠ id) :
    j ≠ slot := by
  rintro rfl
  cases found with
  | true =>
    obtain ⟨v, hv⟩ := eq_some_of_probe hslot
    rw [hj] at hv
    cases hv
    exact hne rfl
  | false =>
    have hfree := (free_of_probe (resHome_lt id) hslot).1
    rw [hj] at hfree
    cases hfree

section

variable (h : Gates K t fl)
  (hslot : probe ingestResourcesMax t id ingestResourcesMax (resHome id) = some (slot, found))
include h hslot

/-- The slot of a resource changes, and every other resource can still be reached. -/
lemma update {x : Option (Text × UInt64)}
    (hreach : Reachable ingestResourcesMax resHome (update t slot x))
    (hknown : ∀ k v, x = some (k, v) → k ∈ K) (hothers : ∀ id', id' ≠ id → fl' id' = fl id')
    (hle : ∀ g' ∈ fl' id, ∃ g, x = some (id, g) ∧ g' ≤ g) : Gates K (update t slot x) fl' where
  reachable := hreach
  known := by
    intro j k v hj
    by_cases hjs : j = slot
    · subst hjs
      rw [update_self] at hj
      exact hknown k v hj
    · rw [update_of_ne hjs] at hj
      exact h.known j k v hj
  bound := by
    intro id' hne g' hg'
    by_cases hid' : id' = id
    · subst hid'
      obtain ⟨g, hx, hle⟩ := hle g' hg'
      exact ⟨slot, g, by rwa [update_self], hle⟩
    · rw [hothers id' hid'] at hg'
      obtain ⟨j, g1, hj, hle⟩ := h.bound id' hne g' hg'
      exact ⟨j, g1, by rwa [update_of_ne (ne_slot hslot hj hid')], hle⟩

/-- The gate of a resource is set. -/
lemma set (hid : id ∈ K) (hothers : ∀ id', id' ≠ id → fl' id' = fl id')
    (hle : ∀ g' ∈ fl' id, g' ≤ g) :
    Gates K (Function.update t slot (some (id, g))) fl' := by
  refine h.update hslot ?_ (by rintro _ _ ⟨⟩; exact hid) hothers fun g' hg' => ⟨g, rfl, hle g' hg'⟩
  cases found with
  | true =>
    obtain ⟨v, hv⟩ := eq_some_of_probe hslot
    exact h.reachable.overwrite hv
  | false => exact h.reachable.insert resHome_lt hslot

/-- The gate of a resource is freed, and no other one is behind it. -/
lemma free (hclear : clear ingestResourcesMax resHome t slot = true)
    (hothers : ∀ id', id' ≠ id → fl' id' = fl id') (hnil : fl' id = []) :
    Gates K (Function.update t slot none) fl' :=
  h.update hslot (h.reachable.free resHome_lt hclear) nofun hothers (by simp [hnil])

/-- What a lookup says of the floor. -/
lemma le_of_probe (hne : id ≠ []) {g : UInt64} (hg : g ∈ fl id) :
    found = true ∧ ∃ g', t slot = some (id, g') ∧ g ≤ g' := by
  obtain ⟨j, g', hj, hle⟩ := h.bound id hne g hg
  have heq := h.reachable.probe_eq resHome_lt hj
  rw [hslot] at heq
  cases heq
  exact ⟨rfl, g', hj, hle⟩

end

end Gates

/-- The state of a consumer between two events. -/
structure Gated (file : List UInt8) (K : Finset Text) (ck : Checkpoint)
    (tr : List Observation) : Prop where
  ordered : Ordered tr
  ring : ck.ring = (accepted tr).rtake ingestDedupRing
  gates : Gates K ck.resources fun id => floor id tr
  cursor : ∃ k, ck.cursor = Cursor.after (journalNext file) k 0

section

variable {file : List UInt8} {K : Finset Text} {ck : Checkpoint} {tr : List Observation}

lemma gated_fresh (file : List UInt8) (K : Finset Text) : Gated file K .fresh [] where
  ordered := by
    intro pre ev ok post heq
    simp at heq
  ring := rfl
  gates := ⟨reachable_empty, nofun, nofun⟩
  cursor := ⟨0, rfl⟩

/-- The floor of a resource stays below a generation that is let past its gate. -/
lemma Gates.lt_of_not_stale {ev : JournalEvent}
    (h : Gates K ck.resources fun id => floor id tr) (hcard : K.card < ingestResourcesMax)
    (hstale : ck.stale ev = false) (hne : ev.resourceId ≠ []) {g : UInt64}
    (hg : g ∈ floor ev.resourceId tr) : g < ev.mutation.expectedGeneration := by
  cases hslot : ck.resSlot ev.resourceId with
  | none => exact absurd hslot (h.reachable.probe_ne_none resHome_lt K h.known hcard _)
  | some x =>
    obtain ⟨slot, found⟩ := x
    obtain ⟨rfl, g', hat, hle⟩ := h.le_of_probe hslot hne hg
    have hgen : ck.generation slot = g' := by simp [generation, hat]
    simp only [stale, slotOf, if_neg hne, hslot, hgen,
      decide_eq_false_iff_not, UInt64.not_le] at hstale
    exact UInt64.lt_of_le_of_lt hle hstale

lemma Checkpoint.ringPush_ring (hring : ck.ring = (accepted tr).rtake ingestDedupRing) (id : Uuid) :
    (ck.ringPush id).ring = (accepted tr ++ [id]).rtake ingestDedupRing := by
  have hsucc : (accepted tr ++ [id]).rtake ingestDedupRing =
      (accepted tr).rtake 63 ++ [id] := rtake_concat_succ _ _ _
  have hlen : ck.ring.length = (accepted tr).length - ((accepted tr).length - 64) := by
    rw [hring, List.rtake, length_drop]
    rfl
  rw [hsucc, ringPush]
  split_ifs with hlt
  · have hshort : (accepted tr).length < 64 := by
      simp only [ingestDedupRing] at hlt
      omega
    simp [hring, List.rtake, ingestDedupRing, Nat.sub_eq_zero_of_le hshort.le,
      Nat.sub_eq_zero_of_le (Nat.le_of_lt_succ hshort)]
  · have hlong : 64 ≤ (accepted tr).length := by
      simp only [ingestDedupRing] at hlt
      omega
    have hdrop : (accepted tr).length - 64 + 1 = (accepted tr).length - 63 := by omega
    simp [hring, List.rtake, ingestDedupRing, hdrop]

lemma Checkpoint.resources_ringPush (ck : Checkpoint) (id : Uuid) :
    (ck.ringPush id).resources = ck.resources := by
  unfold ringPush
  split_ifs <;> rfl

lemma Checkpoint.ring_record (ck : Checkpoint) (ev : JournalEvent) :
    (ck.record ev).ring = (ck.ringPush ev.mutation.requestId).ring := by
  unfold record
  split
  · rfl
  · split_ifs <;> rfl

lemma Checkpoint.cursor_record (ck : Checkpoint) (ev : JournalEvent) :
    (ck.record ev).cursor = ck.cursor := by
  have hpush : (ck.ringPush ev.mutation.requestId).cursor = ck.cursor := by
    unfold ringPush
    split_ifs <;> rfl
  rw [← hpush]
  unfold record
  split
  · rfl
  · split_ifs <;> rfl

/-- The table after an accepted event. -/
lemma Gates.record {ev : JournalEvent} (h : Gates K ck.resources fun id => floor id tr)
    (hcard : K.card < ingestResourcesMax) (hstale : ck.stale ev = false)
    (hid : ev.resourceId ≠ [] → ev.resourceId ∈ K) (hshort : ev.resourceId.length < 64)
    (hclear : ev.isTombstone = true → ∀ x ∈ ck.slotOf ev,
      clear ingestResourcesMax resHome ck.resources x.1 = true) :
    Gates K (ck.record ev).resources fun id => floor id (tr ++ [Observation.called ev true]) := by
  have hothers : ∀ id, id ≠ ev.resourceId →
      floor id (tr ++ [Observation.called ev true]) = floor id tr := by
    intro id hne
    simp [floorStep, hne.symm]
  by_cases hne : ev.resourceId = []
  · have hrec : (ck.record ev).resources = ck.resources := by
      simp [Checkpoint.record, Checkpoint.slotOf, hne, Checkpoint.resources_ringPush]
    rw [hrec]
    exact h.congr fun id hid => hothers id (hne ▸ hid)
  · cases hslot : ck.resSlot ev.resourceId with
    | none => exact absurd hslot (h.reachable.probe_ne_none resHome_lt K h.known hcard _)
    | some x =>
      obtain ⟨slot, found⟩ := x
      have hof : ck.slotOf ev = some (slot, found) := by
        rw [slotOf, if_neg hne, hslot]
      by_cases htomb : ev.isTombstone = true
      · have hrec : (ck.record ev).resources = Function.update ck.resources slot none := by
          simp [Checkpoint.record, hof, htomb, Checkpoint.freeGate, Checkpoint.resources_ringPush]
        rw [hrec]
        refine h.free hslot (hclear htomb (slot, found) (by simp [hof])) hothers ?_
        simp [floorStep, htomb]
      · have hrec : (ck.record ev).resources = Function.update ck.resources slot
            (some (ev.resourceId, ev.mutation.expectedGeneration)) := by
          simp [Checkpoint.record, hof, htomb, Checkpoint.setGate, fit_eq hshort,
            Checkpoint.resources_ringPush]
        rw [hrec]
        refine h.set hslot (hid hne) hothers fun g hg => ?_
        simp only [floor_concat, floorStep, if_true, htomb, if_false, false_eq_true,
          mem_append, mem_singleton] at hg
        rcases hg with hg | rfl
        · exact UInt64.le_of_lt (h.lt_of_not_stale hcard hstale hne hg)
        · exact UInt64.le_refl _

/-- One event is delivered. -/
lemma Gated.deliver {ctx : IngestRun} {answer : ℕ → Bool} {ev : JournalEvent}
    (h : Gated file K ctx.ck ctx.trace) (hcard : K.card < ingestResourcesMax)
    (hid : ev.resourceId ≠ [] → ev.resourceId ∈ K) (hok : deliverOk answer ev ctx = true)
    (payload : List UInt8) : Gated file K (qfiDeliver answer ev payload ctx).1.ck
      (qfiDeliver answer ev payload ctx).1.trace := by
  have hnew (hseen : ¬ ctx.ck.ringSeen ev.mutation.requestId = true) :
      ev.mutation.requestId ∉ (accepted ctx.trace).rtake ingestDedupRing := by
    rw [← h.ring]
    simpa [ringSeen] using hseen
  unfold qfiDeliver
  dsimp only
  split_ifs with hseen hstale hanswer
  · exact h
  · exact h
  · have hnew := hnew hseen
    rw [Bool.not_eq_true] at hseen hstale
    simp only [deliverOk, hseen, hstale, hanswer, Bool.or_false, Bool.not_true, Bool.and_eq_true,
      decide_eq_true_eq, Bool.or_eq_true, Bool.not_eq_true'] at hok
    constructor
    · refine h.ordered.concat fun ev' ok heq => ?_
      cases heq
      exact ⟨hnew, fun _ hne g hg => h.gates.lt_of_not_stale hcard hstale hne hg⟩
    · rw [ring_record, accepted_concat_true]
      exact ringPush_ring h.ring _
    · refine h.gates.record hcard hstale hid hok.1 fun htomb x hx => ?_
      rcases hok.2 with hno | hclear
      · rw [htomb] at hno
        cases hno
      · exact Option.all_eq_true _ _ |>.mp hclear x hx
    · rw [cursor_record]
      exact h.cursor
  · constructor
    · refine h.ordered.concat fun ev' ok heq => ?_
      cases heq
      exact ⟨hnew hseen, nofun⟩
    · rw [accepted_concat_false]
      exact h.ring
    · exact h.gates.congr fun id _ => by simp [floorStep]
    · exact h.cursor

lemma ingestLoop_succ (file : List UInt8) (answer : ℕ → Bool) (budget : ℕ) (ctx : IngestRun) :
    ingestLoop file answer (budget + 1) ctx =
      match journalNext file ctx.ck.cursor with
      | none => ctx
      | some (r, advanced) =>
        let ctx' := (qfiDeliver answer (journalDeserialize r.1 r.2).1
          (journalDeserialize r.1 r.2).2 ctx).1
        if ctx'.stopped then ctx'
        else ingestLoop file answer budget
          { ctx' with ck := { ctx'.ck with cursor := advanced } } := by
  rw [ingestLoop, replayWindow, Cursor.window_one]
  cases journalNext file ctx.ck.cursor with
  | none | some => rfl

/-- A whole run. -/
lemma Gated.loop {ctx : IngestRun} {answer : ℕ → Bool} {budget : ℕ}
    (h : Gated file K ctx.ck ctx.trace) (hcard : K.card < ingestResourcesMax)
    (hK : ∀ id ∈ journalIds file, id ≠ [] → id ∈ K) (hok : loopOk file answer budget ctx = true) :
    Gated file K (ingestLoop file answer budget ctx).ck
      (ingestLoop file answer budget ctx).trace := by
  induction budget generalizing ctx with
  | zero => exact h
  | succ budget ih =>
    rw [ingestLoop_succ]
    unfold loopOk at hok
    obtain ⟨k, hk⟩ := h.cursor
    cases hn : journalNext file ctx.ck.cursor with
    | none => exact h
    | some x =>
      obtain ⟨r, advanced⟩ := x
      simp only [hn, and_eq_true, or_eq_true] at hok
      have hmem : (journalDeserialize r.1 r.2).1.resourceId ∈ journalIds file := by
        rw [hk] at hn
        exact mem_map.mpr ⟨_, (advances_journalNext file).mem_items_of_next hn, rfl⟩
      have hnext := h.deliver hcard (hK _ hmem) hok.1 (journalDeserialize r.1 r.2).2
      dsimp only
      split_ifs with hstop
      · exact hnext
      · refine ih ⟨hnext.ordered, hnext.ring, hnext.gates, k + 1, ?_⟩ (hok.2.resolve_left hstop)
        rw [hk] at hn
        rw [Cursor.after_add, Cursor.after_succ hn]
        rfl

/-- A seed that was taken. -/
lemma Gated.seed {id : Text} {g : UInt64} (h : Gated file K ck tr) (hid : id ≠ [] → id ∈ K)
    (hshort : id.length < 64) (hok : (ck.seedGeneration id g).2 = true) :
    Gated file K (ck.seedGeneration id g).1 (tr ++ [Observation.seeded id g]) := by
  have hothers : ∀ id', id' ≠ id → floor id' (tr ++ [Observation.seeded id g]) = floor id' tr := by
    intro id' hne
    simp [floorStep, hne.symm]
  have hordered : Ordered (tr ++ [Observation.seeded id g]) := h.ordered.concat nofun
  have hring : ck.ring = (accepted (tr ++ [Observation.seeded id g])).rtake ingestDedupRing := by
    rw [accepted_concat_seeded]
    exact h.ring
  have hmem : ∀ {g'}, g' ∈ floor id (tr ++ [Observation.seeded id g]) →
      g' ∈ floor id tr ∨ g' = g := by
    intro g' hg'
    simpa [floorStep] using hg'
  unfold seedGeneration at hok ⊢
  split_ifs at hok ⊢ with hne
  split at hok
  · cases hok
  · next slot hslot =>
    -- the resource has no gate, so it has no floor
    refine ⟨hordered, hring, ?_, h.cursor⟩
    rw [fit_eq hshort]
    refine h.gates.set hslot (hid hne) hothers fun g' hg' => ?_
    rcases hmem hg' with hg' | rfl
    · have := (h.gates.le_of_probe hslot hne hg').1
      cases this
    · exact UInt64.le_refl _
  · next slot hslot =>
    obtain ⟨v, hv⟩ := eq_some_of_probe hslot
    have hgen : ck.generation slot = v := by simp [generation, hv]
    have hfloor : ∀ g' ∈ floor id tr, g' ≤ v := by
      intro g' hg'
      obtain ⟨-, v', hv', hle⟩ := h.gates.le_of_probe hslot hne hg'
      rw [hv] at hv'
      cases hv'
      exact hle
    split_ifs with hgt
    · refine ⟨hordered, hring, ?_, h.cursor⟩
      refine h.gates.set hslot (hid hne) hothers fun g' hg' => ?_
      rcases hmem hg' with hg' | rfl
      · rw [hgen] at hgt
        exact UInt64.le_of_lt (UInt64.lt_of_le_of_lt (hfloor g' hg') hgt)
      · exact UInt64.le_refl _
    · refine ⟨hordered, hring, ⟨h.gates.reachable, h.gates.known, ?_⟩, h.cursor⟩
      intro id' hne' g' hg'
      by_cases hid' : id' = id
      · subst hid'
        rcases hmem hg' with hg' | rfl
        · exact ⟨slot, v, hv, hfloor g' hg'⟩
        · rw [hgen] at hgt
          exact ⟨slot, v, hv, UInt64.not_lt.mp hgt⟩
      · rw [hothers id' hid'] at hg'
        exact h.gates.bound id' hne' g' hg'

namespace Ingest

/-- The file of a consumer holds what is in memory if it was written. -/
structure Sound (file : List UInt8) (K : Finset Text) (s : Ingest) : Prop where
  gated : Gated file K s.ck s.trace
  saved : s.written = true → s.saved.getD .fresh = s.ck

lemma sound_ckSave {s : Ingest} (h : Gated file K s.ck s.trace) (ok : Bool) :
    (s.ckSave ok).Sound file K :=
  ⟨h, fun hok => by simp [ckSave, show ok = true from hok]⟩

section

variable {s : Ingest} (h : s.Sound file K) (hcard : K.card < ingestResourcesMax)
  (hK : ∀ id ∈ journalIds file, id ≠ [] → id ∈ K)
include h hcard hK

lemma Sound.step {a : Act}
    (ha : ∀ id g save, a = .seed id g save → id ≠ [] → id ∈ K) (hok : s.actOk file a = true) :
    (s.step file a).Sound file K := by
  cases a with
  | seed id g save =>
    unfold Ingest.step
    dsimp only
    split_ifs with htaken
    · exact sound_ckSave (h.gated.seed (ha id g save rfl) (by simpa [actOk] using hok) htaken) save
    · exact h
  | run =>
    let ctx : IngestRun := ⟨s.ck, 0, 0, false, s.trace⟩
    have hstart : Gated file K ctx.ck ctx.trace := h.gated
    exact sound_ckSave (hstart.loop hcard hK hok) _
  | reopen => exact ⟨by simpa [Ingest.step, h.saved hok] using h.gated, fun _ => rfl⟩

lemma Sound.run {acts : List Act}
    (hacts : ∀ id g save, .seed id g save ∈ acts → id ≠ [] → id ∈ K)
    (hok : s.meets file acts = true) :
    (s.run file acts).Sound file K := by
  induction acts generalizing s with
  | nil => exact h
  | cons a acts ih =>
    rw [meets, and_eq_true] at hok
    have hstep := h.step hcard hK (fun id g save ha => hacts id g save (by simp [ha])) hok.1
    exact ih hstep (fun id g save hmem => hacts id g save (mem_cons_of_mem _ hmem)) hok.2

end

/-- In every run with fewer resource ids than slots, whose ids fit the table, whose accepted
tombstones free no slot before a gate and which reopens only what was written, events are applied in
rising order of their generations and never twice. -/
theorem ordered_run (file : List UInt8) (acts : List Act)
    (hfew : (occurring file acts).toFinset.card < ingestResourcesMax)
    (hok : fresh.meets file acts = true) : Ordered (fresh.run file acts).trace := by
  have hmem : ∀ {id}, id ∈ journalIds file ∨ (∃ g save, .seed id g save ∈ acts) → id ≠ [] →
      id ∈ (occurring file acts).toFinset := by
    intro id hid hne
    rw [mem_toFinset, occurring, mem_filter, mem_append, mem_filterMap]
    refine ⟨?_, by simpa using hne⟩
    exact hid.imp_right fun ⟨g, save, hg⟩ => ⟨_, hg, rfl⟩
  have hfresh : fresh.Sound file (occurring file acts).toFinset :=
    ⟨gated_fresh file _, fun _ => rfl⟩
  have hsound := hfresh.run hfew (fun id hid hne => hmem (.inl hid) hne)
    (fun id g save hg hne => hmem (.inr ⟨g, save, hg⟩) hne) hok
  exact hsound.gated.ordered

end Ingest

end

namespace Sample

/-- The blob of an event that carries no more than what the gates read. -/
def eventBlob (id : Text) (request : UInt8) (generation flags : ℕ) : List UInt8 :=
  List.replicate 64 0 ++ id ++ List.replicate (64 - id.length) 0 ++ List.replicate 16 request ++
    List.replicate 48 0 ++ le 8 generation ++ List.replicate 12 0 ++ le 4 flags ++
    List.replicate 48 0

def eventRecord (blob : List UInt8) : Record := ⟨1, ⟨List.replicate 48 0, length_zeroHash⟩, blob⟩

/-- A journal of two events. -/
def eventJournal (blob blob' : List UInt8) : List UInt8 :=
  (eventRecord blob).image 0 0 committedFlags ++
    (eventRecord blob').image (eventRecord blob).size 0 committedFlags

/-- Two resource ids with the same home slot. -/
def idA : Text := ascii "d2"

def idB : Text := ascii "np"

/-- The tombstone of one resource at generation 6, then an event of the other at generation 3. -/
def twoEvents : List UInt8 := eventJournal (eventBlob idA 1 6 1) (eventBlob idB 2 3 0)

/-- The second resource was seeded behind the first one; the tombstone hides its gate. -/
def hidden : Ingest :=
  fresh.run twoEvents [.seed idA 5 true, .seed idB 7 true, .run 0 (fun _ => true) true]

theorem hidden_gate : resHome idA = resHome idB ∧ (occurring twoEvents
        [.seed idA 5 true, .seed idB 7 true, .run 0 (fun _ => true) true]).toFinset.card <
          ingestResourcesMax ∧
      (∃ pre ev, hidden.trace = pre ++ [Observation.called ev true] ∧ ev.resourceId = idB ∧
        ev.mutation.expectedGeneration = 3 ∧ 7 ∈ floor idB pre) ∧ ¬ Ordered hidden.trace := by
  have htrace : hidden.trace = [.seeded idA 5, .seeded idB 7,
      .called (journalDeserialize ((eventRecord (eventBlob idA 1 6 1)).header 0 0 committedFlags)
        (eventBlob idA 1 6 1)).1 true] ++
      [.called (journalDeserialize
        ((eventRecord (eventBlob idB 2 3 0)).header 352 0 committedFlags)
        (eventBlob idB 2 3 0)).1 true] := by
    decide +kernel
  refine ⟨by decide +kernel, by decide +kernel, ⟨_, _, htrace, by decide +kernel,
    by decide +kernel, by decide +kernel⟩, fun hordered => ?_⟩
  have hlt := (hordered _ _ _ _ htrace).2 rfl (by decide +kernel) 7 (by decide +kernel)
  revert hlt
  decide +kernel

/-- With the resources seeded in the other order the tombstone hides nothing. -/
theorem ordered_run_clear : Ordered (fresh.run twoEvents
      [.seed idB 7 false, .seed idA 5 true, .run 0 (fun _ => true) true, .reopen]).trace :=
  ordered_run _ _ (by decide +kernel) (by decide +kernel)

end Sample

end Qihse.Federation
