import Qihse.Consensus.Trace.Operation
import Qihse.Consensus.Open

/-!
# Runs as sequences of actions

Every event of a group is an open, a crash, a copy of a record file, or a call of one node, and a
call is a sequence of actions of that node. `Cluster.Invariant.run` is the rule that follows from
it: a property of groups that every action keeps, also in the middle of a call, holds after every
run.
-/

namespace Qihse.Consensus

open Crash Crash.Prog Option

/-! ### Calls -/

/-- The node that an event calls, and what it is called with. -/
def Op.call (w : Cluster) : Op → Option (Uuid × Input)
  | .tick u _ _ => some (u, .idle)
  | .deliver u k _ => w.sent[k]?.map fun m => (u, .msg m)
  | .propose u _ gen phys logical classif sci payload _ =>
    some (u, .entry gen.toNat ⟨phys.toNat, logical.toNat⟩ classif.toNat sci.toNat payload)
  | .proposeMembership u _ op member _ => some (u, .single op member .voter 1)
  | .proposeMembershipRole u _ op member role weight _ =>
    some (u, .single op member role weight.toNat)
  | .proposeJoint u _ add remove _ => some (u, .joint add remove)
  | .openNode _ _ | .crash _ | .copyRecord _ _ => none

/-- The outcomes of the appends that an event makes. -/
def Op.io : Op → List Io
  | .openNode _ io | .tick _ _ io | .deliver _ _ io | .propose _ _ _ _ _ _ _ _ io
  | .proposeMembership _ _ _ _ io | .proposeMembershipRole _ _ _ _ _ _ io
  | .proposeJoint _ _ _ _ io => io
  | .crash _ | .copyRecord _ _ => []

/-- An event in which appends fail only if that is allowed. -/
def Op.IoOk (F : Prop) (op : Op) : Prop := ∀ l, Io.fail l ∈ op.io → F

namespace Cluster

variable (w : Cluster)

/-- The group while node `u` is at `c` in a call. -/
def put (u : Uuid) (c : Conf) : Cluster :=
  { w.setSlot u ⟨some c.node, some c.disk⟩ with sent := w.sent ++ c.out }

/-- The group after node `u` went down with the file `disk` and the messages `out` sent. -/
def halt (u : Uuid) (disk : List Line) (out : List Msg) : Cluster :=
  { w.setSlot u ⟨none, some disk⟩ with sent := w.sent ++ out }

@[simp]
lemma put_slots_self (u : Uuid) (c : Conf) : (w.put u c).slots u = ⟨some c.node, some c.disk⟩ := by
  simp [put, setSlot]

lemma put_slots_ne {u v : Uuid} (c : Conf) (h : v ≠ u) : (w.put u c).slots v = w.slots v := by
  simp [put, setSlot, h]

@[simp]
lemma put_sent (u : Uuid) (c : Conf) : (w.put u c).sent = w.sent ++ c.out := rfl

@[simp]
lemma node_put_self (u : Uuid) (c : Conf) : (w.put u c).node u = some c.node := by
  simp [node]

lemma node_put_ne {u v : Uuid} (c : Conf) (h : v ≠ u) : (w.put u c).node v = w.node v := by
  simp [node, put_slots_ne w c h]

@[simp]
lemma halt_slots_self (u : Uuid) (d : List Line) (out : List Msg) :
    (w.halt u d out).slots u = ⟨none, some d⟩ := by
  simp [halt, setSlot]

lemma halt_slots_ne {u v : Uuid} (d : List Line) (out : List Msg) (h : v ≠ u) :
    (w.halt u d out).slots v = w.slots v := by
  simp [halt, setSlot, h]

@[simp]
lemma node_halt_self (u : Uuid) (d : List Line) (out : List Msg) :
    (w.halt u d out).node u = none := by
  simp [node]

@[simp]
lemma node_setSlot_self (u : Uuid) (s : Slot) : (w.setSlot u s).node u = s.node := by
  simp [node, setSlot]

lemma node_setSlot_ne {u v : Uuid} (s : Slot) (h : v ≠ u) : (w.setSlot u s).node v = w.node v := by
  simp [node, setSlot, h]

/-- A property of all slots, when one of them was set. -/
lemma forall_setSlot {w : Cluster} {u : Uuid} {s : Slot} {P : Uuid → Slot → Prop} :
    (∀ v, P v ((w.setSlot u s).slots v)) ↔ P u s ∧ ∀ v, v ≠ u → P v (w.slots v) := by
  constructor
  · intro h
    refine ⟨by simpa [setSlot] using h u, fun v hv => by simpa [setSlot, hv] using h v⟩
  · rintro ⟨hu, hv⟩ v
    by_cases hvu : v = u
    · subst hvu
      simpa [setSlot] using hu
    · simpa [setSlot, hvu] using hv v hvu

lemma forall_put {w : Cluster} {u : Uuid} {c : Conf} {P : Uuid → Slot → Prop} :
    (∀ v, P v ((w.put u c).slots v)) ↔
      P u ⟨some c.node, some c.disk⟩ ∧ ∀ v, v ≠ u → P v (w.slots v) :=
  forall_setSlot

lemma forall_halt {w : Cluster} {u : Uuid} {d : List Line} {out : List Msg}
    {P : Uuid → Slot → Prop} : (∀ v, P v ((w.halt u d out).slots v)) ↔
      P u ⟨none, some d⟩ ∧ ∀ v, v ≠ u → P v (w.slots v) :=
  forall_setSlot

/-- The state in which a call of node `u` starts. -/
def start (u : Uuid) (n : Node) : Conf := ⟨n, (w.slots u).disk.getD [], []⟩

/-- How a call of a node may end. -/
inductive Called (F : Prop) (u : Uuid) (n : Node) (inp : Input) : Cluster → Prop
  | returned (c : Conf) (b : Bool) (h : Acts F n inp (w.start u n) c) :
      Called F u n inp { w.put u c with failed := b }
  | crashed (disk : List Line) (out : List Msg) (b : Bool)
      (h : Crashed F n inp (w.start u n) disk out) :
      Called F u n inp { w.halt u disk out with failed := b }

variable {w} {F : Prop} {u : Uuid} {n : Node} {inp : Input}

lemma called_runAt {α : Type} {m : M α} {io : List Io} (hn : w.node u = some n)
    (hm : Traced F n inp (w.start u n) m ⟨n, (w.slots u).disk.getD [], [], io, false⟩) :
    w.Called F u n inp (w.runAt u io m) := by
  unfold runAt
  rw [show (w.slots u).node = some n from hn]
  unfold Traced Sat at hm
  rcases hr : m ⟨n, (w.slots u).disk.getD [], [], io, false⟩ with ⟨_ | a, p⟩
  · rw [hr] at hm
    simp only [hr]
    exact .crashed p.disk p.out _ hm
  · rw [hr] at hm
    simp only [hr]
    exact .returned p.conf _ hm.acts

section

variable (cfg : Uuid → Config) {op : Op} (hcall : op.call w = some (u, inp))
include hcall

/-- An event that calls a running node makes it act. -/
theorem called_step (hn : w.node u = some n) (hio : op.IoOk F) (hself : n.SelfIndexed)
    (hfold : n.JointFolded) :
    w.Called F u n inp (w.step cfg op) := by
  have hgood : ∀ io, (∀ l, Io.fail l ∈ io → F) →
      Good F n inp (w.start u n) ⟨n, (w.slots u).disk.getD [], [], io, false⟩ :=
    fun io hio => ⟨.refl, hio⟩
  cases op with
  | openNode | crash | copyRecord => simp [Op.call] at hcall
  | tick v now io =>
    cases hcall
    rw [step]
    exact called_runAt hn ((hgood io hio).tick _)
  | deliver v k io =>
    obtain ⟨m, hm, rfl, rfl⟩ : ∃ m, w.sent[k]? = some m ∧ v = u ∧ Input.msg m = inp := by
      simpa [Op.call] using hcall
    simp only [step, hm]
    exact called_runAt hn ((hgood io hio).receive hself hfold)
  | propose v user gen phys logical classif sci payload io =>
    cases hcall
    rw [step]
    exact called_runAt hn ((hgood io hio).propose user)
  | proposeMembership v user op member io | proposeMembershipRole v user op member role weight io =>
    cases hcall
    rw [step]
    exact called_runAt hn ((hgood io hio).proposeMembershipRole user)
  | proposeJoint v user add remove io =>
    cases hcall
    rw [step]
    exact called_runAt hn ((hgood io hio).proposeJoint user)

/-- An event that calls a node which is down does nothing. -/
lemma step_down (hn : w.node u = none) : w.step cfg op = w := by
  have hrun : ∀ {α : Type} (io : List Io) (m : M α), w.runAt u io m = w := by
    intro α io m
    unfold runAt
    rw [show (w.slots u).node = none from hn]
  cases op with
  | openNode | crash | copyRecord => simp [Op.call] at hcall
  | deliver v k =>
    obtain ⟨m, hm, rfl, rfl⟩ : ∃ m, w.sent[k]? = some m ∧ v = u ∧ Input.msg m = inp := by
      simpa [Op.call] using hcall
    simp [step, hm, hrun]
  | _ =>
    cases hcall
    simp [step, hrun]

end

/-! ### The invariant rule -/

lemma put_start {d : List Line} (hn : w.node u = some n) (hd : (w.slots u).disk = some d) :
    w.put u (w.start u n) = w := by
  have hslot : w.slots u = ⟨some n, some d⟩ := by
    rw [← hd, ← hn]
    rfl
  have hslots : (fun v => if v = u then ⟨some n, some d⟩ else w.slots v) = w.slots := by
    funext v
    split_ifs with hv
    · rw [hv, hslot]
    · rfl
  simp [put, setSlot, start, hd, hslots]

/-- Node `u` is up and leads term `t`. -/
def Leads (w : Cluster) (u : Uuid) (t : ℕ) : Prop :=
  (w.node u).any fun n => n.role = .leader && n.term = t

instance (w : Cluster) (u : Uuid) (t : ℕ) : Decidable (w.Leads u t) :=
  inferInstanceAs (Decidable (_ = true))

lemma Leads.exists {t : ℕ} (h : w.Leads u t) :
    ∃ n, w.node u = some n ∧ n.role = .leader ∧ n.term = t := by
  unfold Leads at h
  cases hn : w.node u with
  | none => simp [hn] at h
  | some n =>
    simp only [hn, any_some, Bool.and_eq_true, decide_eq_true_eq] at h
    exact ⟨n, rfl, h.1, h.2⟩

/-- The run from `w` meets the condition `ok` at each of its events. -/
def Meets (cfg : Uuid → Config) (ok : Cluster → Op → Prop) : Cluster → List Op → Prop
  | _, [] => True
  | w, op :: ops => ok w op ∧ Meets cfg ok (w.step cfg op) ops

lemma meets_of_forall {P : Op → Prop} (cfg : Uuid → Config) {ops : List Op}
    (h : ∀ op ∈ ops, P op) (w : Cluster) : Meets cfg (fun _ op => P op) w ops := by
  induction ops generalizing w with
  | nil => exact trivial
  | cons op ops ih => exact ⟨h op (by simp), ih (fun x hx => h x (by simp [hx])) _⟩

lemma run_append (w : Cluster) (cfg : Uuid → Config) (ops more : List Op) :
    w.run cfg (ops ++ more) = (w.run cfg ops).run cfg more :=
  List.foldl_append

/-- A property of groups that is kept by everything a run can do, when its events meet `ok`. `P` is
what is known throughout a call about the node at its start and about the input. -/
structure Invariant (F : Prop) (cfg : Uuid → Config) (ok : Cluster → Op → Prop)
    (P : Uuid → Node → Input → Prop) (I : Cluster → Prop) : Prop where
  failed : ∀ {w : Cluster} (b : Bool), I w → I { w with failed := b }
  ready : ∀ {w : Cluster} {op : Op} {u : Uuid} {inp : Input} {n : Node}, I w → ok w op →
    op.call w = some (u, inp) → w.node u = some n →
    (w.slots u).disk.isSome ∧ op.IoOk F ∧ n.SelfIndexed ∧ n.JointFolded ∧ P u n inp
  move : ∀ {w : Cluster} {u : Uuid} {n0 : Node} {inp : Input} {c c' : Conf}, I (w.put u c) →
    P u n0 inp → (∀ m, inp = .msg m → m ∈ w.sent) → Move F n0 inp c c' → I (w.put u c')
  halt : ∀ {w : Cluster} {u : Uuid} {c : Conf} {disk : List Line}, I (w.put u c) →
    (disk = c.disk ∨ disk = c.disk ++ [Line.torn]) → I (w.halt u disk c.out)
  crash : ∀ {w : Cluster} {u : Uuid}, I w → I (w.setSlot u ⟨none, (w.slots u).disk⟩)
  opened : ∀ {w : Cluster} {u : Uuid} {io : List Io} {s : Slot}, I w → ok w (.openNode u io) →
    w.node u = none → Opened (cfg u) (w.slots u).disk s → I (w.setSlot u s)
  copied : ∀ {w : Cluster} {source u : Uuid}, I w → ok w (.copyRecord source u) →
    I (w.step cfg (.copyRecord source u))

variable {cfg : Uuid → Config} {ok : Cluster → Op → Prop} {P : Uuid → Node → Input → Prop}
  {I : Cluster → Prop}

/-- A call keeps an invariant: by induction over its actions. -/
lemma Invariant.acts (h : Invariant F cfg ok P I) {c c' : Conf} (hI : I (w.put u c))
    (hP : P u n inp) (hin : ∀ m, inp = .msg m → m ∈ w.sent) (hacts : Acts F n inp c c') :
    I (w.put u c') := by
  induction hacts with
  | refl => exact hI
  | tail _ hmove ih => exact h.move ih hP hin hmove

lemma Op.call_msg {op : Op} {m : Msg} (hcall : op.call w = some (u, .msg m)) : m ∈ w.sent := by
  cases op with
  | deliver v k =>
    obtain ⟨m', hm, -, heq⟩ : ∃ m', w.sent[k]? = some m' ∧ v = u ∧ m' = m := by
      simpa [Op.call] using hcall
    exact heq ▸ List.mem_of_getElem? hm
  | _ => simp [Op.call] at hcall

lemma Invariant.step (h : Invariant F cfg ok P I) {op : Op} (hI : I w) (hok : ok w op) :
    I (w.step cfg op) := by
  cases hcall : op.call w with
  | some call =>
    obtain ⟨u, inp⟩ := call
    cases hn : w.node u with
    | none =>
      rw [step_down cfg hcall hn]
      exact hI
    | some n =>
      obtain ⟨hdisk, hio, hself, hfold, hP⟩ := h.ready hI hok hcall hn
      obtain ⟨d, hd⟩ := isSome_iff_exists.mp hdisk
      have hstart : I (w.put u (w.start u n)) := by rwa [put_start hn hd]
      have hin : ∀ m, inp = .msg m → m ∈ w.sent := by
        rintro m rfl
        exact Op.call_msg hcall
      have hcalled := called_step cfg hcall hn hio hself hfold
      generalize w.step cfg op = w' at hcalled
      cases hcalled with
      | returned c b hacts => exact h.failed b (h.acts hstart hP hin hacts)
      | crashed disk out b hcrash =>
        obtain ⟨c, hacts, rfl, hdisk⟩ := hcrash
        exact h.failed b (h.halt (h.acts hstart hP hin hacts) hdisk)
  | none =>
    cases op with
    | openNode u io =>
      cases hn : w.node u with
      | none =>
        have hopened := h.opened hI hok hn (opened_openSlot (cfg u) (w.slots u).disk io)
        simp only [Cluster.step, show (w.slots u).node = none from hn]
        exact h.failed _ hopened
      | some n =>
        have hsame : w.step cfg (.openNode u io) = w := by
          simp [Cluster.step, show (w.slots u).node = some n from hn]
        rwa [hsame]
    | crash => exact h.crash hI
    | copyRecord => exact h.copied hI hok
    | deliver u k io =>
      have hm : w.sent[k]? = none := by simpa [Op.call] using hcall
      have hsame : w.step cfg (.deliver u k io) = w := by simp [Cluster.step, hm]
      rwa [hsame]
    | _ => simp [Op.call] at hcall

/-- The rule for whole runs. -/
theorem Invariant.run (h : Invariant F cfg ok P I) {ops : List Op} (hI : I w)
    (hok : Meets cfg ok w ops) : I (w.run cfg ops) := by
  induction ops generalizing w with
  | nil => exact hI
  | cons op ops ih => exact ih (h.step hI hok.1) hok.2

end Cluster

end Qihse.Consensus
