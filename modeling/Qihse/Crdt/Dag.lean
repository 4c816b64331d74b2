import Qihse.Bytes.Codec
import Qihse.Bytes.Order
import Qihse.Fence.Search

/-!
# The replicated set

The last-writer-wins set of `qihse_crdt.c`: the records are in a tree that branches three ways on
the first eight bytes of a vector id, sorted in its leaves, and every node has a hash over the
hashes of its children and over its records. `Dag.Canonical` trees are determined by their records.
-/

namespace Qihse.Crdt

open Bytes Fence List Option Function

abbrev VectorId : Type := { bytes : List UInt8 // bytes.length = 16 }

/-- A SHA-384 digest. -/
abbrev Digest : Type := { bytes : List UInt8 // bytes.length = 48 }

structure Record where
  vectorId : VectorId
  timestamp : UInt64
  isDeleted : Bool
  payloadHash : Digest
  deriving DecidableEq

inductive Trit
  | left
  | middle
  | right
  deriving DecidableEq

def Trit.ofByte (b : UInt8) : Trit := if b < 85 then left else if b ≤ 170 then middle else right

/-- The branches that lead to the leaf of a vector id. -/
def route (id : VectorId) : List Trit := (id.1.take 8).map Trit.ofByte

inductive Dag
  | null : Dag
  | node (hash : Digest) (child : Trit → Dag) (records : List Record) : Dag

/-- The bytes of a record that are hashed. -/
def Record.bytes (r : Record) : List UInt8 :=
  r.vectorId.1 ++ (Bytes.le 8 r.timestamp.toNat).reverse ++ [if r.isDeleted then 1 else 0] ++
    r.payloadHash.1

/-- The records of a leaf after an upsert; nothing changes when the record there is as new. -/
def place (records : List Record) (r : Record) : Option (List Record) :=
  match locateIn (fun x : Record => memcmp x.vectorId.1 r.vectorId.1) records with
  | (true, pos) =>
    if records[pos]?.any fun x => x.timestamp < r.timestamp then
      some (records.modify pos fun x =>
        { x with
          timestamp := r.timestamp
          isDeleted := r.isDeleted
          payloadHash := r.payloadHash })
    else none
  | (false, pos) => some (records.insertIdx pos r)

namespace Dag

def hashBytes : Dag → List UInt8
  | null => []
  | node hash _ _ => hash.1

def child : Dag → Trit → Dag
  | null, _ => null
  | node _ child _, t => child t

def records : Dag → List Record
  | null => []
  | node _ _ records => records

section

variable (sha384 : List UInt8 → Digest)

/-- A node with the hash that `compute_node_hash` gives it. -/
def hashed (child : Trit → Dag) (records : List Record) : Dag :=
  node (sha384 ((child .left).hashBytes ++ (child .middle).hashBytes ++ (child .right).hashBytes ++
    records.flatMap Record.bytes)) child records

/-- The nodes on the way to the leaf are made where they are missing, and hashed again from the leaf
upwards; `none` when the record in the leaf is as new. -/
def upsert (r : Record) : List Trit → Dag → Option Dag
  | [], dag => (place dag.records r).map (hashed sha384 dag.child)
  | t :: ts, dag =>
    (upsert r ts (dag.child t)).map fun c =>
      hashed sha384 (Function.update dag.child t c) dag.records

end

/-- All records of a tree. -/
def all : Dag → List Record
  | null => []
  | node _ child records =>
    (child .left).all ++ (child .middle).all ++ (child .right).all ++ records

lemma mem_all {dag : Dag} {x : Record} :
    x ∈ dag.all ↔ (∃ t, x ∈ (dag.child t).all) ∨ x ∈ dag.records := by
  cases dag with
  | null => simp [all, child, records]
  | node =>
    simp only [all, child, records, mem_append]
    constructor
    · rintro (((h | h) | h) | h)
      · exact .inl ⟨_, h⟩
      · exact .inl ⟨_, h⟩
      · exact .inl ⟨_, h⟩
      · exact .inr h
    · rintro (⟨t, h⟩ | h)
      · cases t with
        | left => exact .inl (.inl (.inl h))
        | middle => exact .inl (.inl (.inr h))
        | right => exact .inl (.inr h)
      · exact .inr h

end Dag

/-- `qihse_crdt_manager_t`. -/
structure Manager where
  dagRoot : Dag

namespace Manager

lemma length_zeroDigest : (List.replicate 48 (0 : UInt8)).length = 48 := rfl

def init : Manager := ⟨.node ⟨List.replicate 48 0, length_zeroDigest⟩ (fun _ => .null) []⟩

def upsert (sha384 : List UInt8 → Digest) (m : Manager) (r : Record) : Bool × Manager :=
  match m.dagRoot.upsert sha384 r (route r.vectorId) with
  | none => (false, m)
  | some root => (true, ⟨root⟩)

def rootHash (m : Manager) : List UInt8 := m.dagRoot.hashBytes

/-- The record of a vector id. -/
def record (m : Manager) (id : VectorId) : Option Record :=
  m.dagRoot.all.find? fun x => x.vectorId = id

/-- A fresh manager after upserts. -/
def applied (sha384 : List UInt8 → Digest) (upserts : List Record) : Manager :=
  upserts.foldl (fun m r => (m.upsert sha384 r).2) init

end Manager

/-! ### Leaves -/

/-- The records of a leaf are in the order of their ids. -/
def Sorted (records : List Record) : Prop := records.Pairwise fun x y => x.vectorId < y.vectorId

variable {records : List Record} {r : Record}

lemma Sorted.nodup_ids (h : Sorted records) : (records.map Record.vectorId).Nodup :=
  pairwise_map.mpr (h.imp fun hlt => hlt.ne)

/-- What an upsert does to a leaf: nothing when its record is as new, and otherwise the new record
takes the place of the one with its id. -/
lemma place_spec (h : Sorted records) :
    (place records r = none ∧ ∃ x ∈ records, x.vectorId = r.vectorId ∧ r.timestamp ≤ x.timestamp) ∨
      ∃ records', place records r = some records' ∧ Sorted records' ∧
        (∀ x, x ∈ records' ↔ x = r ∨ x ∈ records ∧ x.vectorId ≠ r.vectorId) ∧
        ∀ x ∈ records, x.vectorId = r.vectorId → x.timestamp < r.timestamp := by
  obtain ⟨a, o, b, rfl, ha, ho, hb⟩ := exists_place h r.vectorId
  have hlen : ∀ x : Record, x.vectorId.1.length = r.vectorId.1.length := fun x =>
    x.vectorId.2.trans r.vectorId.2.symm
  have hlocate : locateIn (fun x : Record => memcmp x.vectorId.1 r.vectorId.1)
      (a ++ o.toList ++ b) = (o.isSome, a.length) := by
    refine locateIn_append (fun x hx => ?_) (fun x hx => ?_) fun x hx => ?_
    · exact (memcmp_eq_order (hlen x)).trans (order_eq_lt.mpr (ha x hx))
    · exact (memcmp_eq_order (hlen x)).trans (order_eq_eq.mpr (congrArg Subtype.val (ho x hx)))
    · exact (memcmp_eq_order (hlen x)).trans (order_eq_gt.mpr (hb x hx))
  have hmem : ∀ x, x ∈ a ++ (some r).toList ++ b ↔
      x = r ∨ x ∈ a ++ o.toList ++ b ∧ x.vectorId ≠ r.vectorId := by
    intro x
    simp only [mem_append, mem_toList, some_inj]
    constructor
    · rintro ((hx | rfl) | hx)
      · exact .inr ⟨.inl (.inl hx), (ha x hx).ne⟩
      · exact .inl rfl
      · exact .inr ⟨.inr hx, (hb x hx).ne'⟩
    · rintro (rfl | ⟨(hx | hx) | hx, hne⟩)
      · exact .inl (.inr rfl)
      · exact .inl (.inl hx)
      · exact absurd (ho x hx) hne
      · exact .inr hx
  have hsorted : Sorted (a ++ (some r).toList ++ b) := pairwise_patch h ha (by simp) hb
  unfold place
  rw [hlocate]
  cases o with
  | none =>
    rw [toList_none, append_nil] at hmem ⊢
    rw [append_assoc] at hsorted hmem
    refine .inr ⟨a ++ r :: b, by simp [insertIdx_append_length], hsorted, hmem, fun x hx heq => ?_⟩
    rcases mem_append.mp hx with hx | hx
    · exact absurd heq (ha x hx).ne
    · exact absurd heq (hb x hx).ne'
  | some y =>
    have hy : y.vectorId = r.vectorId := ho y rfl
    have hget : (a ++ (some y).toList ++ b)[a.length]? = some y := by
      rw [append_assoc, getElem?_append_right le_rfl, Nat.sub_self]
      rfl
    have honly : ∀ x ∈ a ++ (some y).toList ++ b, x.vectorId = r.vectorId → x = y := by
      intro x hx heq
      simp only [mem_append, mem_toList, some_inj] at hx
      rcases hx with (hx | rfl) | hx
      · exact absurd heq (ha x hx).ne
      · rfl
      · exact absurd heq (hb x hx).ne'
    simp only [isSome_some, hget, any_some, decide_eq_true_iff]
    split_ifs with hts
    · simp only [append_assoc, toList_some, singleton_append] at hsorted hmem honly ⊢
      rw [modify_append_length, hy]
      refine .inr ⟨_, rfl, hsorted, hmem, fun x hx heq => ?_⟩
      rw [honly x hx heq]
      exact hts
    · exact .inl ⟨rfl, y, by simp, hy, UInt64.not_lt.mp hts⟩

/-! ### Trees -/

namespace Dag

/-- A tree below the branches `p`: all its leaves are `d` levels down and have records, which are in
order and where their ids lead to, and every hash is the one of the node. -/
def Canonical (sha384 : List UInt8 → Digest) : ℕ → List Trit → Dag → Prop
  | _, _, null => True
  | 0, p, node hash c rs =>
    (∀ t, c t = null) ∧ rs ≠ [] ∧ Sorted rs ∧ (∀ x ∈ rs, p <+: route x.vectorId) ∧
      node hash c rs = hashed sha384 c rs
  | d + 1, p, node hash c rs =>
    rs = [] ∧ (∃ t, c t ≠ null) ∧ (∀ t, Canonical sha384 d (p ++ [t]) (c t)) ∧
      node hash c rs = hashed sha384 c rs

variable {sha384 : List UInt8 → Digest} {d : ℕ} {p q : List Trit} {dag dag' : Dag} {x y r : Record}

@[simp]
lemma canonical_null : Canonical sha384 d p null := by
  cases d <;> trivial

lemma Canonical.child (h : Canonical sha384 (d + 1) p dag) (t : Trit) :
    Canonical sha384 d (p ++ [t]) (dag.child t) := by
  cases dag with
  | null => exact canonical_null
  | node => exact h.2.2.1 t

lemma Canonical.records_eq_nil (h : Canonical sha384 (d + 1) p dag) : dag.records = [] := by
  cases dag with
  | null => rfl
  | node => exact h.1

lemma Canonical.child_eq_null (h : Canonical sha384 0 p dag) (t : Trit) : dag.child t = null := by
  cases dag with
  | null => rfl
  | node => exact h.1 t

lemma Canonical.mem_all_zero (h : Canonical sha384 0 p dag) : x ∈ dag.all ↔ x ∈ dag.records := by
  rw [mem_all]
  refine or_iff_right ?_
  rintro ⟨t, ht⟩
  rw [h.child_eq_null t] at ht
  exact absurd ht not_mem_nil

lemma Canonical.mem_all_succ (h : Canonical sha384 (d + 1) p dag) :
    x ∈ dag.all ↔ ∃ t, x ∈ (dag.child t).all := by
  rw [mem_all, h.records_eq_nil]
  exact or_iff_left not_mem_nil

lemma Canonical.sorted (h : Canonical sha384 0 p dag) : Sorted dag.records := by
  cases dag with
  | null => exact List.Pairwise.nil
  | node => exact h.2.2.1

/-- Every record is where its id leads to. -/
lemma Canonical.isPrefix (h : Canonical sha384 d p dag) (hx : x ∈ dag.all) :
    p <+: route x.vectorId := by
  induction d generalizing p dag with
  | zero =>
    rw [h.mem_all_zero] at hx
    cases dag with
    | null => exact absurd hx not_mem_nil
    | node => exact h.2.2.2.1 x hx
  | succ d ih =>
    obtain ⟨t, ht⟩ := h.mem_all_succ.mp hx
    exact (prefix_append p [t]).trans (ih (h.child t) ht)

/-- The branch a record is in, from the branches its id leads along. -/
lemma Canonical.branch (h : Canonical sha384 (d + 1) p dag) {t t' : Trit}
    (ht : x ∈ (dag.child t).all) (hroute : p ++ [t'] <+: route x.vectorId) : t = t' := by
  have hprefix := (h.child t).isPrefix ht
  have heq := prefix_of_prefix_length_le hprefix hroute (by simp)
  simpa using append_cancel_left (heq.eq_of_length (by simp))

section

variable (h : Canonical sha384 d p dag)
include h

/-- A tree has at most one record of an id. -/
lemma Canonical.unique (hx : x ∈ dag.all) (hy : y ∈ dag.all)
    (hid : x.vectorId = y.vectorId) : x = y := by
  induction d generalizing p dag with
  | zero =>
    rw [h.mem_all_zero] at hx hy
    exact inj_on_of_nodup_map h.sorted.nodup_ids hx hy hid
  | succ d ih =>
    obtain ⟨t, ht⟩ := h.mem_all_succ.mp hx
    obtain ⟨t', ht'⟩ := h.mem_all_succ.mp hy
    have heq : t = t' := h.branch ht (hid ▸ (h.child t').isPrefix ht')
    cases heq
    exact ih (h.child t) ht ht'

lemma Canonical.exists_mem (hne : dag ≠ null) : ∃ x, x ∈ dag.all := by
  induction d generalizing p dag with
  | zero =>
    cases dag with
    | null => exact absurd rfl hne
    | node hash c rs =>
      obtain ⟨x, hx⟩ := exists_mem_of_ne_nil rs h.2.1
      exact ⟨x, h.mem_all_zero.mpr hx⟩
  | succ d ih =>
    cases dag with
    | null => exact absurd rfl hne
    | node =>
      obtain ⟨t, ht⟩ := h.2.1
      obtain ⟨x, hx⟩ := ih (h.2.2.1 t) ht
      exact ⟨x, h.mem_all_succ.mpr ⟨t, hx⟩⟩

lemma Canonical.eq_null (hall : ∀ x, x ∈ null.all ↔ x ∈ dag.all) : dag = null := by
  by_contra hne
  obtain ⟨x, hx⟩ := h.exists_mem hne
  exact absurd ((hall x).mpr hx) not_mem_nil

/-- Trees with the same records are the same, with all their hashes. -/
lemma Canonical.ext (h' : Canonical sha384 d p dag')
    (hall : ∀ x, x ∈ dag.all ↔ x ∈ dag'.all) : dag = dag' := by
  induction d generalizing p dag dag' with
  | zero =>
    cases dag with
    | null => exact (h'.eq_null hall).symm
    | node hash c rs =>
      cases dag' with
      | null => cases h.eq_null fun x => (hall x).symm
      | node hash' c' rs' =>
        have hrs : rs = rs' := by
          have hperm : rs.Perm rs' := (perm_ext_iff_of_nodup h.2.2.1.nodup_ids.of_map
            h'.2.2.1.nodup_ids.of_map).mpr fun x =>
              h.mem_all_zero.symm.trans ((hall x).trans h'.mem_all_zero)
          exact hperm.eq_of_pairwise (fun x y _ _ hxy hyx => absurd hxy (lt_asymm hyx)) h.2.2.1
            h'.2.2.1
        have hc : c = c' := funext fun t => (h.1 t).trans (h'.1 t).symm
        rw [h.2.2.2.2, h'.2.2.2.2, hrs, hc]
  | succ d ih =>
    have hchild : ∀ t, dag.child t = dag'.child t := by
      intro t
      refine ih (h.child t) (h'.child t) fun x => ⟨fun hx => ?_, fun hx => ?_⟩
      · obtain ⟨t', ht'⟩ := h'.mem_all_succ.mp ((hall x).mp (h.mem_all_succ.mpr ⟨t, hx⟩))
        cases h'.branch ht' ((h.child t).isPrefix hx)
        exact ht'
      · obtain ⟨t', ht'⟩ := h.mem_all_succ.mp ((hall x).mpr (h'.mem_all_succ.mpr ⟨t, hx⟩))
        cases h.branch ht' ((h'.child t).isPrefix hx)
        exact ht'
    cases dag with
    | null => exact (h'.eq_null hall).symm
    | node hash c =>
      cases dag' with
      | null => cases h.eq_null fun x => (hall x).symm
      | node hash' c' =>
        have hc : c = c' := funext hchild
        rw [h.2.2.2, h'.2.2.2, h.1, h'.1, hc]

/-- What an upsert does to a tree: nothing when the record of the id is as new, and otherwise the
new record takes its place. -/
lemma Canonical.upsert (hroute : route r.vectorId = p ++ q) (hq : q.length = d) :
    (dag.upsert sha384 r q = none ∧
        ∃ x ∈ dag.all, x.vectorId = r.vectorId ∧ r.timestamp ≤ x.timestamp) ∨
      ∃ dag', dag.upsert sha384 r q = some dag' ∧ Canonical sha384 d p dag' ∧
        (∀ x, x ∈ dag'.all ↔ x = r ∨ x ∈ dag.all ∧ x.vectorId ≠ r.vectorId) ∧
        ∀ x ∈ dag.all, x.vectorId = r.vectorId → x.timestamp < r.timestamp := by
  induction d generalizing p q dag with
  | zero =>
    rw [length_eq_zero_iff.mp hq] at hroute ⊢
    simp only [h.mem_all_zero, upsert]
    rcases place_spec (r := r) h.sorted with ⟨hnone, hold⟩ | ⟨rs, hsome, hsorted, hmem, hlt⟩
    · exact .inl ⟨by rw [hnone]; rfl, hold⟩
    · refine .inr ⟨_, by rw [hsome]; rfl, ?_, ?_, hlt⟩
      · refine ⟨h.child_eq_null, ?_, hsorted, fun x hx => ?_, rfl⟩
        · exact ne_nil_of_mem ((hmem r).mpr (.inl rfl))
        · rcases (hmem x).mp hx with rfl | ⟨hx, -⟩
          · exact hroute ▸ prefix_append p []
          · exact h.isPrefix (h.mem_all_zero.mpr hx)
      · intro x
        rw [← hmem x, mem_all]
        refine or_iff_right ?_
        rintro ⟨t, ht⟩
        have hnull : dag.child t = null := h.child_eq_null t
        rw [hashed, Dag.child, hnull] at ht
        exact absurd ht not_mem_nil
  | succ d ih =>
    obtain ⟨t, q, rfl⟩ := exists_cons_of_length_eq_add_one hq
    have hroute' : route r.vectorId = p ++ [t] ++ q := by
      rw [hroute, append_assoc, singleton_append]
    have hbranch : ∀ {x t'}, x ∈ (dag.child t').all → x.vectorId = r.vectorId → t' = t := by
      intro x t' hx hid
      exact h.branch hx (hid ▸ hroute' ▸ prefix_append (p ++ [t]) q)
    simp only [h.mem_all_succ, upsert]
    rcases ih (h.child t) hroute' (Nat.succ.inj hq) with
      ⟨hnone, x, hx, hid, hle⟩ | ⟨c, hsome, hc, hmem, hlt⟩
    · exact .inl ⟨by rw [hnone]; rfl, x, ⟨t, hx⟩, hid, hle⟩
    · refine .inr ⟨hashed sha384 (Function.update dag.child t c) dag.records, by rw [hsome]; rfl,
        ⟨h.records_eq_nil, ⟨t, ?_⟩, fun t' => ?_, rfl⟩, ?_, ?_⟩
      · rw [update_self]
        rintro rfl
        exact absurd ((hmem r).mpr (.inl rfl)) not_mem_nil
      · exact (forall_update_iff dag.child fun t' c => Canonical sha384 d (p ++ [t']) c).mpr
          ⟨hc, fun t' _ => h.child t'⟩ t'
      · intro x
        rw [mem_all, hashed, records, h.records_eq_nil, or_iff_left not_mem_nil]
        simp only [Dag.child, exists_update_iff dag.child fun _ c => x ∈ c.all, hmem]
        constructor
        · rintro ((rfl | hx) | ⟨t', heq, ht'⟩)
          · exact .inl rfl
          · exact .inr ⟨⟨t, hx.1⟩, hx.2⟩
          · exact .inr ⟨⟨t', ht'⟩, fun hid => heq (hbranch ht' hid)⟩
        · rintro (rfl | ⟨⟨t', ht'⟩, hne⟩)
          · exact .inl (.inl rfl)
          · by_cases heq : t' = t
            · exact .inl (.inr ⟨heq ▸ ht', hne⟩)
            · exact .inr ⟨t', heq, ht'⟩
      · rintro x ⟨t', ht'⟩ hid
        cases hbranch ht' hid
        exact hlt x ht' hid

end

end Dag

end Qihse.Crdt
