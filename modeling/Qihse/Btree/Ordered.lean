import Qihse.Btree.Tree

/-!
# The order of a B+ tree

`Node.Ordered` is what the separators and the leaves keep to. From it the descent ends in the only
leaf that may have the key, and the updates of that leaf are updates of the list of all entries.
-/

namespace Qihse.Btree

open Bytes Fence List Row Holds

/-! ### Keys -/

lemma keyCmp_eq_order (a b : Key) : keyCmp a b = order a b := by
  induction a generalizing b with
  | nil =>
    cases b with
    | nil => rfl
    | cons y b => exact (order_eq_lt.mpr (nil_lt_cons y b)).symm
  | cons x a ih =>
    cases b with
    | nil => exact (order_eq_gt.mpr (nil_lt_cons x a)).symm
    | cons y =>
      rw [order_cons, ← ih]
      simp only [keyCmp, memcmp_cons, length_cons, Nat.add_lt_add_iff_right]
      cases order x y <;> rfl

lemma keyCmp_eq_lt {a b : Key} : keyCmp a b = .lt ↔ a < b := by
  rw [keyCmp_eq_order, order_eq_lt]

/-! ### Leaves -/

namespace Leaf

variable {n : Leaf} {I : Set Key} {k : Key}

def Ordered (I : Set Key) (n : Leaf) : Prop :=
  (n.entries.Pairwise fun a b => a.key < b.key) ∧ ∀ e ∈ n.entries, e.key ∈ I

/-- The search of a leaf: the entries before the key, the one of the key and those after it. -/
lemma Ordered.cut (h : n.Ordered I) (k : Key) :
    ∃ a b, n.entries = a ++ (n.found k).toList ++ b ∧ n.lowerBound k = a.length ∧
      (∀ e ∈ a, e.key < k) ∧ (∀ e ∈ b, k < e.key) ∧ ∀ e ∈ n.found k, e.key = k := by
  obtain ⟨a, o, b, hsplit, hlt, heq, hgt⟩ := exists_place h.1 k
  have hpos : n.lowerBound k = a.length := by
    rw [lowerBound, hsplit, append_assoc]
    refine search_append (fun e he => ?_) fun e he => ?_
    · exact beq_iff_eq.mpr (keyCmp_eq_lt.mpr (hlt e he))
    · have hge : k ≤ e.key := by
        rcases mem_append.mp he with he | he
        · exact (heq e (Option.mem_toList.mp he)).ge
        · exact (hgt e he).le
      exact beq_eq_false_iff_ne.mpr fun hc => hge.not_gt (keyCmp_eq_lt.mp hc)
  have hfound : n.found k = o := by
    rw [found, hpos, hsplit, append_assoc, getElem?_append_right le_rfl, Nat.sub_self,
      ← head?_eq_getElem?]
    cases o with
    | some e => simp [Option.filter, heq e rfl]
    | none =>
      cases b with
      | nil => rfl
      | cons e => simp [Option.filter, (hgt e mem_cons_self).ne']
  rw [hfound]
  exact ⟨a, b, hsplit, hpos, hlt, hgt, heq⟩

end Leaf

/-! ### Nodes -/

lemma internalFindChild_eq {α : Type} {P : Set Key → α → Prop} {I : Set Key} {n : Row Key α}
    (h : n.Holds P I) (k : Key) : internalFindChild n k = n.rank k := by
  rw [← h.search_seps k, internalFindChild]
  congr 1
  funext s
  rw [Bool.eq_iff_iff, bne_iff_ne, decide_eq_true_iff, Ne, keyCmp_eq_order,
    order_eq_gt, not_lt]

namespace Node

def entries : (d : ℕ) → Node d → List LeafEntry
  | 0, leaf => Leaf.entries leaf
  | d + 1, n => (children n).flatMap (entries d)

def Ordered : (d : ℕ) → Set Key → Node d → Prop
  | 0, I, leaf => Leaf.Ordered I leaf
  | d + 1, I, n => Holds (Ordered d) I n

/-- The keys that the separators leave to the leaf for `k`. -/
def range (k : Key) : (d : ℕ) → Set Key → Node d → Set Key
  | 0, I, _ => I
  | d + 1, I, n => range k d (Row.range k I n) (Row.child n (Row.rank k n))

/-- The entries of the leaves to the left of the one for `k`. -/
def before (k : Key) : (d : ℕ) → Node d → List LeafEntry
  | 0, _ => []
  | d + 1, n =>
    (Row.before k n).flatMap (entries d) ++ before k d (Row.child n (Row.rank k n))

/-- The entries of the leaves to the right of the one for `k`. -/
def after (k : Key) : (d : ℕ) → Node d → List LeafEntry
  | 0, _ => []
  | d + 1, n => after k d (Row.child n (Row.rank k n)) ++ (Row.after k n).flatMap (entries d)

variable {d : ℕ} {I : Set Key} {n : Node d} {k s : Key} {leaf l r : Leaf} {e : LeafEntry}

lemma entries_succ (n : Row Key (Node d)) :
    entries (d + 1) n = n.children.flatMap (entries d) := rfl

lemma Ordered.pairwise (h : Ordered d I n) :
    ((entries d n).Pairwise fun a b => a.key < b.key) ∧ ∀ e ∈ entries d n, e.key ∈ I := by
  induction d generalizing I with
  | zero => exact h
  | succ d ih => exact pairwise (fun J c hc => ih hc) h

lemma mem_range (hk : k ∈ I) (n : Node d) : k ∈ range k d I n := by
  induction d generalizing I with
  | zero => exact hk
  | succ d ih => exact ih (Row.mem_range hk n) _

section

variable (h : Ordered d I n)
include h

lemma Ordered.lt_of_mem_before (he : e ∈ before k d n) : e.key < k := by
  induction d generalizing I with
  | zero => exact absurd he not_mem_nil
  | succ d ih =>
    rcases mem_append.mp he with he | he
    · obtain ⟨c, hc, he⟩ := mem_flatMap.mp he
      obtain ⟨J, hJ, hordered⟩ := of_mem_before h hc
      exact hJ (hordered.pairwise.2 e he)
    · exact ih (child h k) he

lemma Ordered.lt_of_mem_after (he : e ∈ after k d n) : k < e.key := by
  induction d generalizing I with
  | zero => exact absurd he not_mem_nil
  | succ d ih =>
    rcases mem_append.mp he with he | he
    · exact ih (child h k) he
    · obtain ⟨c, hc, he⟩ := mem_flatMap.mp he
      obtain ⟨J, hJ, hordered⟩ := of_mem_after h hc
      exact hJ (hordered.pairwise.2 e he)

lemma Ordered.descendToLeaf (k : Key) : (descendToLeaf k d n).Ordered (range k d I n) := by
  induction d generalizing I with
  | zero => exact h
  | succ d ih =>
    rw [descendToLeaf, internalFindChild_eq h]
    exact ih (child h k)

lemma Ordered.entries_eq (k : Key) :
    entries d n = before k d n ++ (Node.descendToLeaf k d n).entries ++ after k d n := by
  induction d generalizing I with
  | zero => exact (append_nil _).symm
  | succ d ih =>
    rw [Node.descendToLeaf, internalFindChild_eq h, entries, Row.children_eq k n,
      flatMap_append, flatMap_cons, ih (child h k), before, after]
    simp

lemma Ordered.replaceLeaf (hleaf : leaf.Ordered (range k d I n)) :
    Ordered d I (replaceLeaf k leaf d n) := by
  induction d generalizing I with
  | zero => exact hleaf
  | succ d ih =>
    rw [replaceLeaf, internalFindChild_eq h]
    exact Row.Holds.setChild h (ih (Row.Holds.child h k) hleaf)

lemma Ordered.entries_replaceLeaf (k : Key) (leaf : Leaf) :
    entries d (Node.replaceLeaf k leaf d n) = before k d n ++ leaf.entries ++ after k d n := by
  induction d generalizing I with
  | zero => exact (append_nil _).symm
  | succ d ih =>
    rw [Node.replaceLeaf, internalFindChild_eq h, entries_succ, Row.children_setChild,
      flatMap_append, flatMap_cons, ih (child h k), before, after]
    simp

end

end Node

/-! ### Splits -/

namespace Spliced

/-- Both halves keep to their side of the separator. -/
def Holds {α : Type} (P : Set Key → α → Prop) (I : Set Key) : Spliced α → Prop
  | whole n => P I n
  | halves l s r => Cuts I s ∧ P (I ∩ Set.Iio s) l ∧ P (I ∩ Set.Ici s) r

/-- The children of a node after a split. -/
def children {α : Type} : Spliced (Row Key α) → List α
  | whole n => n.children
  | halves l _ r => l.children ++ r.children

def entries {d : ℕ} : Spliced (Node d) → List LeafEntry
  | whole n => Node.entries d n
  | halves l _ r => Node.entries d l ++ Node.entries d r

lemma entries_succ {d : ℕ} (sp : Spliced (Row Key (Node d))) :
    entries (d := d + 1) sp = sp.children.flatMap (Node.entries d) := by
  cases sp with
  | whole => rfl
  | halves => exact flatMap_append.symm

end Spliced

lemma internalTake_spec {α : Type} {P : Set Key → α → Prop} {I : Set Key} {n : Row Key α}
    {capacity pi : ℕ} {s : Key} {c : α} {sp : Spliced (Row Key α)}
    (htake : internalTake capacity n pi s c = some sp) (h : (n.insertChild pi s c).Holds P I) :
    sp.Holds (Holds P) I ∧ sp.children = (n.insertChild pi s c).children := by
  unfold internalTake at htake
  split_ifs at htake with hwrap hroom
  · cases htake
    exact ⟨h, rfl⟩
  · cases htake
    unfold internalSplit
    split
    · exact ⟨h, rfl⟩
    next left promo right hsplit =>
      exact ⟨h.splitAt hsplit, (children_splitAt hsplit).symm⟩

namespace Node

variable {d capacity : ℕ} {I : Set Key} {n : Node d} {k s : Key} {l r : Leaf}

/-- After the loop over the parents the halves of the leaf stand where the leaf stood. -/
lemma Ordered.splice (h : Ordered d I n) (hcut : Row.Cuts (range k d I n) s)
    (hl : l.Ordered (range k d I n ∩ Set.Iio s)) (hr : r.Ordered (range k d I n ∩ Set.Ici s))
    {sp : Spliced (Node d)} (hsp : splice capacity k l s r d n = some sp) : sp.Holds (Ordered d) I ∧
      sp.entries = before k d n ++ (l.entries ++ r.entries) ++ after k d n := by
  induction d generalizing I with
  | zero =>
    cases hsp
    exact ⟨⟨hcut, hl, hr⟩, (append_nil _).symm⟩
  | succ d ih =>
    have hchild := Row.Holds.child h k
    rw [splice, internalFindChild_eq h] at hsp
    split at hsp
    · cases hsp
    next c hc =>
      cases hsp
      obtain ⟨hc, hentries⟩ := ih hchild hcut hl hr hc
      refine ⟨Row.Holds.setChild h hc, ?_⟩
      rw [Spliced.entries_succ, Spliced.children, Row.children_setChild, flatMap_append,
        flatMap_cons, before, after]
      rw [Spliced.entries] at hentries
      simp [hentries]
    next l' s' r' hc =>
      obtain ⟨⟨hcut', hl', hr'⟩, hentries⟩ := ih hchild hcut hl hr hc
      obtain ⟨hholds, hchildren⟩ := internalTake_spec hsp (Row.Holds.insertChild h hcut' hl' hr')
      refine ⟨hholds, ?_⟩
      rw [Spliced.entries] at hentries
      rw [Spliced.entries_succ, hchildren, Row.children_insertChild, flatMap_append,
        flatMap_cons, flatMap_cons, ← append_assoc (entries d l'), hentries,
        before, after]
      simp

end Node

end Qihse.Btree
