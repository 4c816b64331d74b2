import Qihse.Stamped.Table

/-!
# Slot ownership in a cluster

The topology of `qihse_cluster_slot.c` and the slot updates of `qihse_cluster_bus.c`: a node assigns
a range of slots to an owner, with the next configuration epoch, and broadcasts the range; the other
nodes adopt it. Nodes are told apart by their index in the topology of a node and by their id
between nodes. Whether an update is stale is decided by the epoch that is kept for its owner, not
for its slots, so the owner of a slot is in general that of the update which came last.
-/

namespace Qihse.Cluster

open List Option

open Stamped (Update Table)

def slotCount : ℕ := 16384

def nodeIdLen : ℕ := 40

abbrev NodeId : Type := List UInt8

/-- `qihse_cluster_slot_state_t`. -/
inductive SlotState
  | stable
  | migrating
  | importing
deriving DecidableEq

/-- The part of `qihse_cluster_node_t` that ownership and routing depend on, with the flag
`node_removed`. -/
structure Node where
  id : NodeId
  host : List UInt8
  port : UInt16
  configEpoch : ℕ
  healthy : Bool
  removed : Bool

/-- `qihse_cluster_topology`; `none` is `QIHSE_CLUSTER_NODE_NONE`. The ids have their length, and an
id is that of one node. -/
structure Topology where
  nodes : List Node
  slotToNode : ℕ → Option ℕ
  slotPeer : ℕ → Option ℕ
  slotState : ℕ → SlotState
  currentEpoch : ℕ
  localNode : Option ℕ
  ids : (nodes.map Node.id).Nodup
  named : ∀ n ∈ nodes, n.id.length = nodeIdLen

/-- `qihse_cluster_bus_slot_update_t`. -/
structure SlotUpdate where
  first : ℕ
  last : ℕ
  ownerId : NodeId
  configEpoch : ℕ

def validSlotRange (first last : ℕ) : Bool := decide (first ≤ last ∧ last < slotCount)

namespace Topology

variable (t : Topology)

/-- `qihse_cluster_valid_node_locked`. -/
def validNode (index : ℕ) : Bool := (t.nodes[index]?).any fun n => !n.removed

/-- `qihse_cluster_topology_get_node`. -/
def getNode (index : ℕ) : Option Node := (t.nodes[index]?).filter fun n => !n.removed

/-- `qihse_cluster_topology_find_node`. -/
def findNode (id : NodeId) : Option ℕ :=
  t.nodes.findIdx? fun n => !n.removed && decide (n.id = id)

/-- `qihse_cluster_next_epoch`, in 64 bits. -/
def nextEpoch : ℕ := (t.currentEpoch + 1) % 2 ^ 64

/-- What a change of one node leaves as it is stays. -/
lemma map_modify {α : Type} {nodes : List Node} {index : ℕ} {g : Node → Node} {f : Node → α}
    (hf : ∀ n ∈ nodes[index]?, f (g n) = f n) : (nodes.modify index g).map f = nodes.map f := by
  refine ext_getElem? fun i => ?_
  rw [getElem?_map, getElem?_map, getElem?_modify]
  split_ifs with hi
  · subst hi
    cases h : nodes[index]? with
    | none => rfl
    | some n => exact congrArg some (hf n h)
  · simp

/-- Another record of a node, with its id. -/
def modifyNode (index : ℕ) (g : Node → Node) (hg : ∀ n ∈ t.nodes[index]?, (g n).id = n.id) :
    Topology where
  __ := t
  nodes := t.nodes.modify index g
  ids := by
    rw [map_modify hg]
    exact t.ids
  named n hn := by
    have hid : n.id ∈ (t.nodes.modify index g).map Node.id := List.mem_map_of_mem hn
    rw [map_modify hg] at hid
    obtain ⟨n', hn', heq⟩ := List.mem_map.mp hid
    exact heq ▸ t.named n' hn'

/-- The slots of a range get this owner, and no migration. -/
def setRange (first last : ℕ) (owner : Option ℕ) (current : ℕ) : Topology where
  __ := t
  slotToNode slot := if first ≤ slot ∧ slot ≤ last then owner else t.slotToNode slot
  slotPeer slot := if first ≤ slot ∧ slot ≤ last then none else t.slotPeer slot
  slotState slot := if first ≤ slot ∧ slot ≤ last then .stable else t.slotState slot
  currentEpoch := current

/-- The slots of a range and the epoch of their owner. -/
def own (first last owner epoch current : ℕ) : Topology :=
  (t.setRange first last (some owner) current).modifyNode owner
    (fun n => { n with configEpoch := epoch }) fun _ _ => rfl

/-- `qihse_cluster_topology_assign_range`. -/
def assignRange (first last owner : ℕ) : Option Topology :=
  if validSlotRange first last && t.validNode owner then
    some (t.own first last owner t.nextEpoch t.nextEpoch)
  else none

/-- `qihse_cluster_topology_adopt_range`. -/
def adoptRange (first last owner epoch : ℕ) : Option Topology :=
  if validSlotRange first last && t.validNode owner then
    some (t.own first last owner epoch (max t.currentEpoch epoch))
  else none

/-- `qihse_cluster_topology_unassign_range`. -/
def unassignRange (first last : ℕ) : Option Topology :=
  if validSlotRange first last then some (t.setRange first last none t.nextEpoch) else none

/-- The message of `qihse_cluster_bus_broadcast_slot_update`. -/
def broadcastSlotUpdate (first last owner : ℕ) : Option SlotUpdate :=
  (t.getNode owner).map fun n => ⟨first, last, n.id, n.configEpoch⟩

/-- `qihse_bus_handle_slot_update_unfenced`. -/
def handleSlotUpdate (u : SlotUpdate) : Topology :=
  (match if u.ownerId = [] then none else t.findNode u.ownerId with
  | none => t.unassignRange u.first u.last
  | some owner =>
    match t.getNode owner with
    | none => t.adoptRange u.first u.last owner u.configEpoch
    | some n =>
      if u.configEpoch ≠ 0 ∧ u.configEpoch < n.configEpoch then none
      else t.adoptRange u.first u.last owner u.configEpoch).getD t

/-- The id of the owner of a slot. -/
def owner (slot : ℕ) : Option NodeId :=
  (t.slotToNode slot).bind fun index => (t.nodes[index]?).map Node.id

/-- The epoch that is kept for a node. -/
def epochOf (id : NodeId) : Option ℕ :=
  ((t.findNode id).bind t.getNode).map Node.configEpoch

/-- The topology as a table of slots. -/
def table : Table ℕ NodeId := ⟨t.epochOf, t.owner⟩

/-- The topology after some slot updates. -/
def deliver (us : List SlotUpdate) : Topology := us.foldl handleSlotUpdate t

end Topology

def SlotUpdate.update (u : SlotUpdate) : Update ℕ NodeId where
  owner := u.ownerId
  stamp := u.configEpoch
  covers slot := decide (u.first ≤ slot ∧ slot ≤ u.last)

/-- An update that some node broadcasts after it assigned the range. -/
def SlotUpdate.Announced (u : SlotUpdate) : Prop :=
  ∃ (t t' : Topology) (first last owner : ℕ), t.assignRange first last owner = some t' ∧
    t'.broadcastSlotUpdate first last owner = some u

/-! ### Topologies as tables -/

namespace Topology

variable {t : Topology} {u : SlotUpdate} {id : NodeId} {index : ℕ}

lemma findNode_eq_some (h : t.findNode id = some index) :
    ∃ n, t.nodes[index]? = some n ∧ t.getNode index = some n ∧ n.id = id := by
  obtain ⟨hlt, hp, -⟩ := findIdx?_eq_some_iff_getElem.mp h
  rw [Bool.and_eq_true, decide_eq_true_eq] at hp
  refine ⟨t.nodes[index], getElem?_eq_getElem hlt, ?_, hp.2⟩
  rw [getNode, getElem?_eq_getElem hlt]
  exact filter_eq_some_iff.mpr ⟨rfl, hp.1⟩

lemma findNode_nil (t : Topology) : t.findNode [] = none := by
  refine findIdx?_eq_none_iff.mpr fun n hn => ?_
  have hne : n.id ≠ [] := fun hnil => absurd (t.named n hn) (by rw [hnil]; decide)
  rw [decide_eq_false hne, Bool.and_false]

lemma findNode_own (t : Topology) (first last owner epoch current : ℕ) (id : NodeId) :
    (t.own first last owner epoch current).findNode id = t.findNode id := by
  have hfind : ∀ nodes : List Node, (nodes.findIdx? fun n => !n.removed && decide (n.id = id)) =
      (nodes.map fun n => !n.removed && decide (n.id = id)).findIdx? fun b => b := by
    intro nodes
    rw [findIdx?_map]
    rfl
  rw [findNode, findNode, hfind, hfind]
  exact congrArg (findIdx? _) (map_modify fun _ _ => rfl)

lemma owner_own (t : Topology) (first last owner epoch current slot : ℕ) :
    (t.own first last owner epoch current).owner slot =
      if first ≤ slot ∧ slot ≤ last then (t.nodes[owner]?).map Node.id else t.owner slot := by
  have hid : ∀ i : ℕ, ((t.own first last owner epoch current).nodes[i]?).map Node.id =
      (t.nodes[i]?).map Node.id := by
    intro i
    rw [← getElem?_map, ← getElem?_map]
    exact congrArg (·[i]?) (map_modify fun _ _ => rfl)
  unfold Topology.owner
  simp only [hid]
  unfold own modifyNode setRange
  dsimp only
  split_ifs
  · rfl
  · rfl

lemma getNode_own (t : Topology) (first last owner epoch current index : ℕ) :
    (t.own first last owner epoch current).getNode index =
      (t.getNode index).map fun n =>
        if owner = index then { n with configEpoch := epoch } else n := by
  unfold getNode own modifyNode setRange
  rw [getElem?_modify]
  cases t.nodes[index]? with
  | none => rfl
  | some n =>
    split_ifs <;> cases hr : n.removed <;> simp [Option.filter, hr]

lemma epochOf_own (hfind : t.findNode id = some index) (first last epoch current : ℕ) :
    (t.own first last index epoch current).epochOf = Function.update t.epochOf id (some epoch) := by
  obtain ⟨n, hn, hget, hid⟩ := findNode_eq_some hfind
  funext id'
  by_cases heq : id' = id
  · subst heq
    rw [epochOf, findNode_own, hfind, bind_some, getNode_own, hget, Function.update_self]
    simp
  · rw [Function.update_of_ne heq, epochOf, epochOf, findNode_own]
    cases hf : t.findNode id' with
    | none => rfl
    | some index' =>
      obtain ⟨n', hn', hget, hid'⟩ := findNode_eq_some hf
      have hne : index ≠ index' := by
        rintro rfl
        rw [hn, some_inj] at hn'
        exact heq (by rw [← hid', ← hn', hid])
      rw [bind_some, bind_some, getNode_own, hget]
      simp [hne]

/-- An update with a valid range does to the table what it does to the topology. -/
lemma table_handleSlotUpdate (hvalid : validSlotRange u.first u.last = true) :
    (t.handleSlotUpdate u).table = t.table.apply u.update := by
  have hname : (if u.ownerId = [] then none else t.findNode u.ownerId) = t.findNode u.ownerId := by
    split_ifs with hnil
    · rw [hnil, findNode_nil]
    · rfl
  rw [handleSlotUpdate, hname]
  cases hf : t.findNode u.ownerId with
  | none =>
    have hstamp : t.table.stamp u.update.owner = none := by
      show t.epochOf u.ownerId = none
      rw [epochOf, hf]
      rfl
    rw [Table.apply, hstamp]
    dsimp only
    rw [unassignRange, if_pos hvalid]
    refine congrArg (Table.mk t.epochOf) (funext fun slot => ?_)
    show ((t.setRange u.first u.last none t.nextEpoch).slotToNode slot).bind _ =
      if decide (u.first ≤ slot ∧ slot ≤ u.last) then none else t.owner slot
    simp only [setRange, decide_eq_true_eq]
    split_ifs
    · rfl
    · rfl
  | some index =>
    obtain ⟨n, hn, hget, hid⟩ := findNode_eq_some hf
    have hstamp : t.table.stamp u.update.owner = some n.configEpoch := by
      show t.epochOf u.ownerId = some n.configEpoch
      rw [epochOf, hf, bind_some, hget]
      rfl
    rw [Table.apply, hstamp]
    dsimp only [SlotUpdate.update]
    rw [hget]
    dsimp only
    split_ifs with hstale
    · exact (if_pos hstale).symm
    · refine .trans ?_ (if_neg hstale).symm
      have hnode : t.validNode index = true := by
        rw [validNode, hn]
        exact (filter_eq_some_iff.mp hget).2
      rw [adoptRange, if_pos (Bool.and_eq_true_iff.mpr ⟨hvalid, hnode⟩), getD_some]
      refine congrArg₂ Table.mk (epochOf_own hf _ _ _ _) (funext fun slot => ?_)
      rw [owner_own, hn, map_some, hid]
      simp only [decide_eq_true_eq]
      rfl

lemma table_deliver {us : List SlotUpdate} (hus : ∀ u ∈ us, validSlotRange u.first u.last = true)
    (t : Topology) : (t.deliver us).table = t.table.deliver (us.map SlotUpdate.update) := by
  induction us generalizing t with
  | nil => rfl
  | cons u us ih =>
    have hhead := table_handleSlotUpdate (t := t) (hus u mem_cons_self)
    rw [deliver, foldl_cons, ← deliver, ih fun x hx => hus x (mem_cons_of_mem _ hx), hhead]
    rfl

end Topology

/-! ### Announcements -/

namespace SlotUpdate

variable {u u' : SlotUpdate}

lemma Announced.valid (h : u.Announced) : validSlotRange u.first u.last = true := by
  obtain ⟨t, t', first, last, owner, hassign, hbroadcast⟩ := h
  obtain ⟨n, -, rfl⟩ := map_eq_some_iff.mp hbroadcast
  unfold Topology.assignRange at hassign
  split_ifs at hassign with hrange
  exact (Bool.and_eq_true_iff.mp hrange).1

/-- Updates with valid ranges that do the same are the same. -/
lemma update_injective (hu : validSlotRange u.first u.last = true)
    (hu' : validSlotRange u'.first u'.last = true) (h : u.update = u'.update) : u = u' := by
  obtain ⟨first, last, ownerId, configEpoch⟩ := u
  obtain ⟨first', last', ownerId', configEpoch'⟩ := u'
  simp only [update, Update.mk.injEq] at h
  obtain ⟨rfl, rfl, hcovers⟩ := h
  simp only [validSlotRange, decide_eq_true_eq] at hu hu'
  have hmem : ∀ slot, (first ≤ slot ∧ slot ≤ last) ↔ (first' ≤ slot ∧ slot ≤ last') := fun slot =>
    decide_eq_decide.mp (congrFun hcovers slot)
  have h1 := (hmem first).mp ⟨le_rfl, hu.1⟩
  have h2 := (hmem first').mpr ⟨le_rfl, hu'.1⟩
  have h3 := (hmem last).mp ⟨hu.1, le_rfl⟩
  have h4 := (hmem last').mpr ⟨hu'.1, le_rfl⟩
  obtain rfl : first = first' := le_antisymm h2.1 h1.1
  obtain rfl : last = last' := le_antisymm h3.2 h4.2
  rfl

end SlotUpdate

open SlotUpdate

/-- The updates in any order and any number of times, but each at least once. -/
def Delivers (us ds : List SlotUpdate) : Prop := ∀ u, u ∈ ds ↔ u ∈ us

/-- A delivery of updates to the table is one of slot updates. -/
lemma exists_delivers {us : List SlotUpdate} (hus : ∀ u ∈ us, validSlotRange u.first u.last = true)
    {ds : List (Update ℕ NodeId)} (hds : Table.Delivers (us.map update) ds) :
    ∃ ds', Delivers us ds' ∧ ds'.map update = ds := by
  have hpre : ∀ {ds : List (Update ℕ NodeId)}, (∀ x ∈ ds, x ∈ us.map update) →
      ∃ ds' : List SlotUpdate, (∀ u ∈ ds', u ∈ us) ∧ ds'.map update = ds := by
    intro ds hsub
    induction ds with
    | nil => exact ⟨[], fun u hu => absurd hu not_mem_nil, rfl⟩
    | cons x ds ih =>
      obtain ⟨u, hu, rfl⟩ := List.mem_map.mp (hsub x mem_cons_self)
      obtain ⟨ds', hds', rfl⟩ := ih fun y hy => hsub y (mem_cons_of_mem _ hy)
      exact ⟨u :: ds', forall_mem_cons.mpr ⟨hu, hds'⟩, rfl⟩
  obtain ⟨ds', hds', rfl⟩ := hpre fun x hx => (hds x).mp hx
  refine ⟨ds', fun u => ⟨hds' u, fun hu => ?_⟩, rfl⟩
  obtain ⟨u', hu', heq⟩ := List.mem_map.mp ((hds u.update).mpr (List.mem_map_of_mem hu))
  rwa [← update_injective (hus u' (hds' u' hu')) (hus u hu) heq]

/-! ### Convergence -/

/-- Two nodes that know the same nodes with the same epochs and have the same slot table end with
the same owner of every slot, in whatever orders and however often announced updates come, if and
only if every slot is decided: all updates of it that can be taken are for one owner, who has it
already or has an update of it with the greatest epoch of all its updates. -/
theorem slots_converge_iff (t : Topology) (us : List SlotUpdate) (hus : ∀ u ∈ us, u.Announced) :
    (∀ t1 t2 : Topology, t1.table = t.table → t2.table = t.table →
        ∀ ds1 ds2, Delivers us ds1 → Delivers us ds2 →
          ∀ slot, (t1.deliver ds1).owner slot = (t2.deliver ds2).owner slot) ↔
      ∀ slot, t.table.Decided (us.map update) slot := by
  have hvalid : ∀ u ∈ us, validSlotRange u.first u.last = true := fun u hu => (hus u hu).valid
  have howner : ∀ {t' : Topology} {ds}, t'.table = t.table → Delivers us ds → ∀ slot,
      (t'.deliver ds).owner slot = (t.table.deliver (ds.map update)).owner slot := by
    intro t' ds ht' hds slot
    rw [← ht', ← Topology.table_deliver fun u hu => hvalid u ((hds u).mp hu)]
    rfl
  rw [← Table.converges_iff]
  constructor
  · intro h ds1 ds2 hds1 hds2 slot
    obtain ⟨ds1', hds1', rfl⟩ := exists_delivers hvalid hds1
    obtain ⟨ds2', hds2', rfl⟩ := exists_delivers hvalid hds2
    rw [← howner rfl hds1', ← howner rfl hds2']
    exact h t t rfl rfl ds1' ds2' hds1' hds2' slot
  · intro h t1 t2 ht1 ht2 ds1 ds2 hds1 hds2 slot
    rw [howner ht1 hds1, howner ht2 hds2]
    refine h _ _ ?_ ?_ slot
    · intro x
      simp [hds1 _]
    · intro x
      simp [hds2 _]

namespace Sample

/-- The node whose id has this character everywhere. -/
def node (c : UInt8) : Node := ⟨.replicate 40 c, [104], 1, 0, true, false⟩

/-- Two nodes that no slot belongs to. -/
def pair : Topology where
  nodes := [node 97, node 98]
  slotToNode _ := none
  slotPeer _ := none
  slotState _ := .stable
  currentEpoch := 1
  localNode := none
  ids := by decide
  named := by decide

/-- Slot 0 is assigned to the first node on one node of the cluster. -/
def toFirst : SlotUpdate := ⟨0, 0, (node 97).id, 2⟩

/-- Slot 0 is assigned to the second node on another one. -/
def toSecond : SlotUpdate := ⟨0, 0, (node 98).id, 2⟩

lemma announced_toFirst : toFirst.Announced := ⟨pair, _, 0, 0, 0, rfl, rfl⟩

/-- The node whose update comes last has the slot, also when it comes again. -/
theorem last_update_wins : (toFirst.Announced ∧ toSecond.Announced) ∧
      (pair.deliver [toFirst, toSecond]).owner 0 = some (node 98).id ∧
      (pair.deliver [toSecond, toFirst]).owner 0 = some (node 97).id ∧
      (pair.deliver [toFirst, toSecond, toFirst]).owner 0 = some (node 97).id :=
  ⟨⟨announced_toFirst, pair, _, 0, 0, 1, rfl, rfl⟩, by decide, by decide, by decide⟩

/-- Later the first node gets slot 1 as well. -/
def wider : SlotUpdate := ⟨0, 1, (node 97).id, 3⟩

lemma announced_wider : wider.Announced := ⟨{ pair with currentEpoch := 2 }, _, 0, 1, 0, rfl, rfl⟩

lemma decided_wider (slot : ℕ) : pair.table.Decided ([toFirst, wider].map update) slot := by
  have hmem : wider.update ∈ [toFirst, wider].map update := by simp
  have hall : ∀ u ∈ [toFirst, wider].map update, pair.table.target u = some (node 97).id ∧
      (u.covers slot → wider.update.covers slot) ∧ u.stamp ≤ 3 := by
    refine forall_mem_cons.mpr ⟨⟨rfl, fun h => ?_, by decide⟩,
      forall_mem_singleton.mpr ⟨rfl, id, le_rfl⟩⟩
    exact decide_eq_true ((of_decide_eq_true h).imp_right fun hle => hle.trans zero_le_one)
  intro u hu hc _
  obtain ⟨howner, hcovers, -⟩ := hall u hu
  refine ⟨fun u' hu' _ _ => (hall u' hu').1.trans howner.symm, .inr ⟨_, hmem, hcovers hc,
    (hall _ hmem).1.trans howner.symm, fun e he => .inr ⟨?_, fun z hz _ => (hall z hz).2.2⟩⟩⟩
  cases he
  exact Nat.zero_le _

theorem slots_converge_iff_wider : (toFirst.Announced ∧ wider.Announced) ∧
    ∀ ds1 ds2, Delivers [toFirst, wider] ds1 → Delivers [toFirst, wider] ds2 →
      ∀ slot, (pair.deliver ds1).owner slot = (pair.deliver ds2).owner slot :=
  ⟨⟨announced_toFirst, announced_wider⟩, (slots_converge_iff pair [toFirst, wider]
    (forall_mem_cons.mpr ⟨announced_toFirst, forall_mem_singleton.mpr announced_wider⟩)).mpr
    decided_wider pair pair rfl rfl⟩

end Sample

end Qihse.Cluster
