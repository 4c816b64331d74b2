import Qihse.Cluster.Slot

/-!
# Routing in a cluster

The calls of `qihse_cluster_slot.c` that change a topology, and the route of a request by the owner
of its slot and the other side of a migration. A node that still owns a slot is not removed; one
that a slot migrates to is.
-/

namespace Qihse.Cluster

open List Option Function

def maxNodes : ℕ := 256

/-- `qihse_cluster_node_id_valid`. -/
def nodeIdValid (id : NodeId) : Bool :=
  id.length == nodeIdLen && id.all fun c => (48 ≤ c && c ≤ 57) || (97 ≤ c && c ≤ 102)

inductive Decision
  | unassigned
  | here
  | ask
  | moved
  | nodeDown
deriving DecidableEq

/-- `qihse_cluster_route_t`. -/
structure Route where
  decision : Decision
  ownerIndex : Option ℕ
  targetIndex : Option ℕ
  state : SlotState
deriving DecidableEq

namespace Topology

variable (t : Topology)

/-- `qihse_cluster_topology_create`. -/
def create : Topology :=
  ⟨[], fun _ => none, fun _ => none, fun _ => .stable, 1, none, nodup_nil, nofun⟩

/-- `qihse_cluster_topology_upsert_node`. -/
def upsertNode (node : Node) : Option Topology :=
  if hnode : nodeIdValid node.id ∧ node.host ≠ [] ∧ node.port ≠ 0 then
    match h : t.nodes.findIdx? fun n => decide (n.id = node.id) with
    | some index =>
      some (t.modifyNode index (fun _ => { node with removed := false }) fun n hn => by
        obtain ⟨hlt, hid, -⟩ := findIdx?_eq_some_iff_getElem.mp h
        rw [getElem?_eq_getElem hlt, mem_some] at hn
        exact hn ▸ (of_decide_eq_true hid).symm)
    | none =>
      if maxNodes ≤ t.nodes.length then none
      else some { t with
        nodes := t.nodes ++ [{ node with removed := false }]
        ids := by
          rw [map_append, map_singleton, ← concat_eq_append]
          refine t.ids.concat fun hmem => ?_
          obtain ⟨n, hn, hid⟩ := List.mem_map.mp hmem
          exact of_decide_eq_false (findIdx?_eq_none_iff.mp h n hn) hid
        named := forall_mem_append.mpr ⟨t.named, forall_mem_singleton.mpr
          (beq_iff_eq.mp (Bool.and_eq_true_iff.mp hnode.1).1)⟩ }
  else none

/-- `qihse_cluster_topology_remove_node`. -/
def removeNode (index : ℕ) : Option Topology :=
  if !t.validNode index || t.localNode == some index then none
  else if (List.range slotCount).any fun slot => t.slotToNode slot == some index then none
  else some ({ t with currentEpoch := t.nextEpoch }.modifyNode index
    (fun n => { n with removed := true }) fun _ _ => rfl)

/-- `qihse_cluster_topology_set_local_node`. -/
def setLocalNode (index : ℕ) : Option Topology :=
  if t.validNode index then
    some { t with localNode := some index, currentEpoch := t.nextEpoch }
  else none

/-- `qihse_cluster_topology_set_node_health`. -/
def setNodeHealth (index : ℕ) (healthy : Bool) : Option Topology :=
  if t.validNode index then
    some (t.modifyNode index (fun n => { n with healthy := healthy }) fun _ _ => rfl)
  else none

/-- `qihse_cluster_topology_set_transition`. -/
def setTransition (slot source target : ℕ) (state : SlotState) : Option Topology :=
  if slotCount ≤ slot ∨ source = target then none
  else if t.validNode source && t.validNode target then
    some { t with
      slotToNode := update t.slotToNode slot (some source)
      slotPeer := update t.slotPeer slot (some target)
      slotState := update t.slotState slot state
      currentEpoch := t.nextEpoch }
  else none

/-- `qihse_cluster_topology_set_migrating`. -/
def setMigrating (slot source target : ℕ) : Option Topology :=
  t.setTransition slot source target .migrating

/-- `qihse_cluster_topology_set_importing`. -/
def setImporting (slot source target : ℕ) : Option Topology :=
  t.setTransition slot source target .importing

/-- `qihse_cluster_topology_set_stable`. -/
def setStable (slot owner : ℕ) : Option Topology := t.assignRange slot slot owner

/-- `qihse_cluster_topology_route`. -/
def route (slot : ℕ) (asking localKeyExists : Bool) : Route :=
  if slotCount ≤ slot then ⟨.unassigned, none, none, .stable⟩
  else
    let state := t.slotState slot
    match t.slotToNode slot with
    | none =>
      if asking then ⟨.here, none, t.localNode, state⟩ else ⟨.unassigned, none, none, state⟩
    | some owner =>
      if asking && t.localNode != some owner then ⟨.here, some owner, t.localNode, state⟩
      else if t.localNode = some owner then
        if state ≠ .stable ∧ t.slotPeer slot ≠ none ∧ localKeyExists = false then
          ⟨.ask, some owner, t.slotPeer slot, state⟩
        else ⟨.here, some owner, t.localNode, state⟩
      else if state ≠ .stable ∧ t.slotPeer slot = t.localNode ∧ asking then
        ⟨.here, some owner, t.localNode, state⟩
      else if (t.nodes[owner]?).any fun n => !n.removed && n.healthy then
        ⟨.moved, some owner, some owner, state⟩
      else ⟨.nodeDown, some owner, some owner, state⟩

inductive Op
  | upsert (node : Node)
  | remove (index : ℕ)
  | assign (first last owner : ℕ)
  | adopt (first last owner epoch : ℕ)
  | unassign (first last : ℕ)
  | setMigrating (slot source target : ℕ)
  | setImporting (slot source target : ℕ)
  | setStable (slot owner : ℕ)
  | setHealth (index : ℕ) (healthy : Bool)
  | setLocal (index : ℕ)

/-- The view after a call, which stays as it was if the call fails. -/
def exec (op : Op) : Topology :=
  (match op with
  | .upsert node => t.upsertNode node
  | .remove index => t.removeNode index
  | .assign first last owner => t.assignRange first last owner
  | .adopt first last owner epoch => t.adoptRange first last owner epoch
  | .unassign first last => t.unassignRange first last
  | .setMigrating slot source target => t.setMigrating slot source target
  | .setImporting slot source target => t.setImporting slot source target
  | .setStable slot owner => t.setStable slot owner
  | .setHealth index healthy => t.setNodeHealth index healthy
  | .setLocal index => t.setLocalNode index).getD t

/-- The view after some calls. -/
def run (ops : List Op) : Topology := ops.foldl exec t

/-! ### Owners are present -/

/-- A node that the call removes is not the other side of a migration. -/
def Spares : Op → Prop
  | .remove index => ∀ slot, t.slotState slot ≠ .stable → t.slotPeer slot ≠ some index
  | _ => True

/-- Every owner of a slot and the local node are present, and under `P` the other sides of the
migrations. -/
structure Present (P : Prop) : Prop where
  owner : ∀ slot index, t.slotToNode slot = some index → slot < slotCount ∧ t.validNode index = true
  localNode : ∀ index, t.localNode = some index → t.validNode index = true
  peer : P → ∀ slot index, t.slotState slot ≠ .stable → t.slotPeer slot = some index →
    t.validNode index = true

variable {t} {t' : Topology} {P : Prop}

/-- A node that is not removed stays one under a change of the nodes that removes no other. -/
lemma any_modify {nodes : List Node} {index i : ℕ} {g : Node → Node}
    (hg : index = i → ∀ n, n.removed = false → (g n).removed = false)
    (h : (nodes[i]?).any (fun n => !n.removed) = true) :
    ((nodes.modify index g)[i]?).any (fun n => !n.removed) = true := by
  obtain ⟨n, hn, hr⟩ := (Option.any_eq_true _ _).mp h
  rw [getElem?_modify, hn]
  by_cases hi : index = i
  · simpa [hi] using hg hi n (by simpa using hr)
  · simpa [hi] using hr

section

variable (h : t.Present P)
include h

/-- A change of the nodes under which the nodes in use stay. -/
lemma Present.nodes {ns : List Node} {epoch : ℕ} {hids hnamed}
    (hns : ∀ index, t.validNode index = true →
      (∀ slot < slotCount, t.slotToNode slot ≠ some index) ∧ t.localNode ≠ some index ∧
        (P → t.Spares (.remove index)) ∨ (ns[index]?).any (fun n => !n.removed) = true) :
    Present ⟨ns, t.slotToNode, t.slotPeer, t.slotState, epoch, t.localNode, hids, hnamed⟩ P := by
  constructor
  · intro slot index hs
    obtain ⟨hlt, hv⟩ := h.owner slot index hs
    exact ⟨hlt, (hns index hv).resolve_left fun hno => hno.1 slot hlt hs⟩
  · intro index hl
    exact (hns index (h.localNode index hl)).resolve_left fun hno => hno.2.1 hl
  · intro hP slot index hstate hpeer
    exact (hns index (h.peer hP slot index hstate hpeer)).resolve_left fun hno =>
      hno.2.2 hP slot hstate hpeer

lemma Present.upsertNode {node : Node} (hs : t.upsertNode node = some t') : t'.Present P := by
  unfold Topology.upsertNode at hs
  split at hs
  · split at hs
    · cases hs
      exact h.nodes fun index hv => .inr (any_modify (fun _ _ _ => rfl) hv)
    · split_ifs at hs
      cases hs
      refine h.nodes fun index hv => .inr ?_
      rw [validNode, Option.any_eq_true] at hv
      obtain ⟨n, hn, hr⟩ := hv
      rw [getElem?_append_left (List.getElem?_eq_some_iff.mp hn).1, hn]
      exact hr
  · cases hs

lemma Present.removeNode {index : ℕ} (hspares : P → t.Spares (.remove index))
    (hs : t.removeNode index = some t') : t'.Present P := by
  unfold Topology.removeNode at hs
  split_ifs at hs with hvalid howns
  cases hs
  simp only [Bool.or_eq_true, beq_iff_eq, not_or] at hvalid
  refine h.nodes fun i hv => ?_
  by_cases hi : index = i
  · subst hi
    refine .inl ⟨fun slot hlt heq => howns ?_, hvalid.2, hspares⟩
    exact List.any_eq_true.mpr ⟨slot, List.mem_range.mpr hlt, beq_iff_eq.mpr heq⟩
  · exact .inr (any_modify (fun heq => absurd heq hi) hv)

lemma Present.setNodeHealth {index : ℕ} {healthy : Bool}
    (hs : t.setNodeHealth index healthy = some t') : t'.Present P := by
  unfold Topology.setNodeHealth at hs
  split_ifs at hs
  cases hs
  exact h.nodes fun i hv => .inr (any_modify (fun _ _ hr => hr) hv)

/-- A change of one range of slots. -/
lemma Present.setRange {first last current : ℕ} {owner : Option ℕ}
    (hrange : validSlotRange first last = true)
    (howner : ∀ index, owner = some index → t.validNode index = true) :
    (t.setRange first last owner current).Present P := by
  simp only [validSlotRange, decide_eq_true_eq] at hrange
  refine ⟨fun slot index hs => ?_, h.localNode, fun hP slot index hstate hpeer => ?_⟩
  · simp only [Topology.setRange] at hs
    split_ifs at hs with hin
    · exact ⟨by omega, howner index hs⟩
    · exact h.owner slot index hs
  · simp only [Topology.setRange] at hstate hpeer
    split_ifs at hstate hpeer
    exact h.peer hP slot index hstate hpeer

lemma Present.setTransition {slot source target : ℕ} {state : SlotState}
    (hs : t.setTransition slot source target state = some t') : t'.Present P := by
  unfold Topology.setTransition at hs
  split_ifs at hs with harg hvalid
  cases hs
  rw [Bool.and_eq_true] at hvalid
  refine ⟨fun slot' index hs => ?_, h.localNode, fun hP slot' index hstate hpeer => ?_⟩
  all_goals by_cases heq : slot' = slot
  · subst heq
    simp only [update_self, some.injEq] at hs
    exact ⟨by omega, hs ▸ hvalid.1⟩
  · simp only [update_of_ne heq] at hs
    exact h.owner slot' index hs
  · subst heq
    simp only [update_self, some.injEq] at hpeer
    exact hpeer ▸ hvalid.2
  · simp only [update_of_ne heq] at hstate hpeer
    exact h.peer hP slot' index hstate hpeer

lemma Present.own {first last owner epoch current : ℕ}
    (hvalid : (validSlotRange first last && t.validNode owner) = true) :
    (t.own first last owner epoch current).Present P := by
  rw [Bool.and_eq_true] at hvalid
  exact (h.setRange hvalid.1 fun index hi => some_inj.mp hi ▸ hvalid.2).nodes fun i hv =>
    .inr (any_modify (fun _ _ hr => hr) hv)

lemma Present.exec (op : Op) (hspares : P → t.Spares op) : (t.exec op).Present P := by
  have hget : ∀ o : Option Topology, (∀ t', o = some t' → t'.Present P) → (o.getD t).Present P := by
    intro o ho
    cases o with
    | none => exact h
    | some t' => exact ho t' rfl
  refine hget _ fun t' hs => ?_
  cases op with
  | upsert => exact h.upsertNode hs
  | remove => exact h.removeNode hspares hs
  | assign | adopt | setStable =>
    simp only [setStable, assignRange, adoptRange] at hs
    split_ifs at hs with hvalid
    cases hs
    exact h.own hvalid
  | unassign =>
    simp only [unassignRange] at hs
    split_ifs at hs with hrange
    cases hs
    exact h.setRange hrange (by simp)
  | setMigrating | setImporting => exact h.setTransition hs
  | setHealth => exact h.setNodeHealth hs
  | setLocal =>
    simp only [setLocalNode] at hs
    split_ifs at hs with hvalid
    cases hs
    exact ⟨h.owner, fun i hi => some_inj.mp hi ▸ hvalid, h.peer⟩

lemma Present.run (ops : List Op)
    (hspares : P → ∀ pre op, pre ++ [op] <+: ops → (t.run pre).Spares op) :
    (t.run ops).Present P := by
  induction ops using List.reverseRecOn with
  | nil => exact h
  | append_singleton ops op ih =>
    rw [Topology.run, foldl_append]
    exact (ih fun hP pre op' hpre => hspares hP pre op' (hpre.trans (prefix_append _ _))).exec op
      fun hP => hspares hP ops op (prefix_refl _)

end

lemma present_create : create.Present P := ⟨nofun, nofun, fun _ _ _ h => absurd rfl h⟩

/-! ### Routes -/

/-- A local node is set, and a slot of its own that migrates does so to a node that is present. -/
def Routable (t : Topology) : Prop :=
  t.localNode.isSome ∧ ∀ slot peer, t.slotToNode slot = t.localNode → t.slotState slot ≠ .stable →
    t.slotPeer slot = some peer → t.validNode peer = true

/-- A route that names a node to go to names one that is present. -/
def Route.Leads (t : Topology) (r : Route) : Prop :=
  r.decision = .here ∨ r.decision = .ask ∨ r.decision = .moved →
    ∃ index, r.targetIndex = some index ∧ t.validNode index = true

lemma Present.leads (h : t.Present P) (hr : t.Routable) (slot : ℕ) (asking localKeyExists : Bool) :
    Route.Leads t (t.route slot asking localKeyExists) := by
  obtain ⟨here, hhere⟩ := isSome_iff_exists.mp hr.1
  have hlocal : ∃ index, t.localNode = some index ∧ t.validNode index = true :=
    ⟨here, hhere, h.localNode here hhere⟩
  unfold route
  cases howner : t.slotToNode slot with
  | none =>
    split_ifs
    · exact fun hd => by simp at hd
    · exact fun _ => hlocal
    · exact fun hd => by simp at hd
  | some owner =>
    dsimp only
    split_ifs with _ h1 h2 h3
    · exact fun hd => by simp at hd
    · exact fun _ => hlocal
    · obtain ⟨peer, hpeer⟩ := ne_none_iff_exists'.mp h3.2.1
      exact fun _ => ⟨peer, hpeer, hr.2 slot peer (howner.trans h2.symm) h3.1 hpeer⟩
    · exact fun _ => hlocal
    · exact fun _ => hlocal
    · exact fun _ => ⟨owner, rfl, (h.owner slot owner howner).2⟩
    · exact fun hd => by simp at hd

/-- After every sequence of calls the owners of the slots are present, and every route leads to a
node that is present if and only if a local node is set and no slot of its own migrates to a node
that was removed. -/
theorem routes_lead_iff (ops : List Op) :
    (∀ slot index, (create.run ops).slotToNode slot = some index →
        (create.run ops).validNode index = true) ∧
      ((∀ slot asking localKeyExists,
          Route.Leads (create.run ops) ((create.run ops).route slot asking localKeyExists)) ↔
        (create.run ops).Routable) := by
  have hp := present_create.run (P := False) ops nofun
  generalize create.run ops = t at hp
  refine ⟨fun slot index hs => (hp.owner slot index hs).2, fun h => ?_, fun hr => hp.leads hr⟩
  -- without a local node a client that asks is told to stay
  have hsome : t.localNode.isSome := by
    by_contra hnone
    rw [Bool.not_eq_true, isSome_eq_false_iff, isNone_iff_eq_none] at hnone
    have hlead := h 0 true true
    cases howner : t.slotToNode 0 with
    | none | some => simp [route, slotCount, howner, hnone, Route.Leads] at hlead
  obtain ⟨here, hhere⟩ := isSome_iff_exists.mp hsome
  refine ⟨hsome, fun slot peer howner hstate hpeer => ?_⟩
  rw [hhere] at howner
  have hlead := h slot false false
  simpa [route, not_le.mpr (hp.owner slot here howner).1, howner, hhere, hstate, hpeer,
    Route.Leads] using hlead

/-- Every route leads to a node that is present, once a local node is set, if no node is removed to
which a slot migrates. -/
theorem routes_lead_of_spares (ops : List Op) (hlocal : (create.run ops).localNode.isSome)
    (hspares : ∀ pre op, pre ++ [op] <+: ops → (create.run pre).Spares op) (slot : ℕ)
    (asking localKeyExists : Bool) :
    Route.Leads (create.run ops) ((create.run ops).route slot asking localKeyExists) := by
  have hp := present_create.run (P := True) ops fun _ => hspares
  exact hp.leads ⟨hlocal, fun slot peer _ => hp.peer trivial slot peer⟩ slot asking localKeyExists

namespace Sample

open Cluster.Sample (node)

/-- Slot 0 of the local node migrates to the other node. -/
def leaving : Topology :=
  create.run [.upsert (node 48), .upsert (node 49), .setLocal 0, .setMigrating 0 0 1]

/-- The node that the slot migrates to is removed. -/
theorem route_to_removed : (leaving.exec (.remove 1)).validNode 1 = false ∧
    (leaving.exec (.remove 1)).route 0 false false = ⟨.ask, some 0, some 1, .migrating⟩ := by
  have hfree : ∀ slot, leaving.slotToNode slot ≠ some 1 := by
    intro slot
    show update (fun _ => none) 0 (some 0) slot ≠ some 1
    rw [update_apply]
    split_ifs <;> simp
  rw [exec, removeNode, if_neg (by decide), if_neg (by simp [hfree])]
  decide

end Sample

end Topology

end Qihse.Cluster
