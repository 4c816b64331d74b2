import Qihse.Btree.Ordered

/-!
# The B+ tree as a map

Inserts, deletes and lookups on a tree against the same calls on a finite map. An insert into a page
without room splits it at the middle entry whatever the sizes of its entries, so that one half may
not fit; `Tree.fits` is the condition on a tree and a call under which nothing of this kind happens.
-/

namespace Qihse.Btree

open Fence List Option Bool Node Qihse.Btree.Tree Leaf Row

/-! ### Calls -/

inductive Op
  | insert (key : { key : Key // key.length ≤ maxKeyLen }) (rowId : UInt64)
  | delete (key : Key)
  | lookup (key : Key)

inductive Answer
  | inserted (ok : Bool)
  | row (rowId : Option UInt64)
  deriving DecidableEq

namespace Tree

def exec (t : Tree) : Op → Option (Answer × Tree)
  | .insert key rowId => (t.insert key.1 rowId).map fun r => (.inserted r.1, r.2)
  | .delete key => some (.row (t.delete key).1, (t.delete key).2)
  | .lookup key => some (.row (t.lookup key), t)

/-- The answers to the calls and the tree after them. -/
def run (t : Tree) : List Op → Option (List Answer × Tree)
  | [] => some ([], t)
  | op :: ops =>
    match t.exec op with
    | none => none
    | some (answer, t') => (t'.run ops).map fun r => (answer :: r.1, r.2)

end Tree

/-! ### The condition -/

namespace Node

/-- A split of the leaf for the key splits this node, too. -/
def climbs (capacity : ℕ) (key : Key) : (d : ℕ) → Node d → Bool
  | 0, _ => true
  | d + 1, n =>
    climbs capacity key d (child n (internalFindChild n key)) && decide (capacity ≤ count n)

/-- No node that takes a separator when the leaf for the key is split has as many as its count can
tell. -/
def roomy (capacity : ℕ) (key : Key) : (d : ℕ) → Node d → Bool
  | 0, _ => true
  | d + 1, n =>
    roomy capacity key d (child n (internalFindChild n key)) &&
      (!climbs capacity key d (child n (internalFindChild n key)) ||
        count n + 1 != 2 ^ 16)

end Node

namespace Tree

/-- With the new entry, the entries before the middle fit into a page and so do those after it. -/
def halvesFit (t : Tree) (e : LeafEntry) : Bool :=
  let leaf := t.leafOf e.key
  let entries := leaf.entries.insertIdx (leaf.lowerBound e.key) e
  decide (dataSize (entries.take (entries.length / 2)) ≤ dataCapacity) &&
    decide (dataSize (entries.drop (entries.length / 2)) ≤ dataCapacity)

/-- The key is in its leaf or finds room there, or else the leaf is split into two halves that fit,
and the nodes above have room for the separators. -/
def insertFits (t : Tree) (e : LeafEntry) : Bool :=
  let leaf := t.leafOf e.key
  (leaf.found e.key).isSome ||
    (decide (leaf.entries.length < t.fanout) &&
      decide (dataSize leaf.entries + entryBytes e.key ≤ dataCapacity)) ||
    (t.halvesFit e && roomy t.fanout e.key t.depth t.root &&
      (!climbs t.fanout e.key t.depth t.root || decide (2 ≤ childSlots t.fanout)))

def fits (t : Tree) : Op → Bool
  | .insert key rowId => t.insertFits ⟨key.1, rowId⟩
  | .delete _ => true
  | .lookup _ => true

/-- Every call of the run meets the condition. -/
def meets (t : Tree) : List Op → Bool
  | [] => true
  | op :: ops => t.fits op && (t.exec op).all fun r => r.2.meets ops

end Tree

/-! ### The reference -/

abbrev Reference : Type := Finmap fun _ : Key => UInt64

namespace Reference

def exec (m : Reference) : Op → Answer × Reference
  | .insert key rowId => (.inserted true, m.insert key.1 rowId)
  | .delete key => (.row (m.lookup key), m.erase key)
  | .lookup key => (.row (m.lookup key), m)

def run (m : Reference) : List Op → List Answer × Reference
  | [] => ([], m)
  | op :: ops => (((m.exec op).1 :: ((m.exec op).2.run ops).1), ((m.exec op).2.run ops).2)

end Reference

/-! ### Updates of a leaf -/

namespace Leaf

variable {n l r : Leaf} {I : Set Key} {k s : Key} {a b : List LeafEntry} {o : Option LeafEntry}

/-- Entries around the place of a key, with at most one entry of this key there. -/
lemma Ordered.patch (h : n.Ordered I) (hk : k ∈ I) {old : List LeafEntry}
    (hn : n.entries = a ++ old ++ b) (ha : ∀ e ∈ a, e.key < k) (hb : ∀ e ∈ b, k < e.key)
    (ho : ∀ e ∈ o, e.key = k) : ((a ++ o.toList ++ b).Pairwise fun x y => x.key < y.key) ∧
      ∀ e ∈ a ++ o.toList ++ b, e.key ∈ I := by
  obtain ⟨hsorted, hmem⟩ := h
  rw [hn] at hsorted hmem
  refine ⟨pairwise_patch hsorted ha ho hb, ?_⟩
  intro e he
  rcases mem_append.mp he with he | he
  · rcases mem_append.mp he with he | he
    · exact hmem e (by simp [he])
    · rw [ho e (mem_toList.mp he)]
      exact hk
  · exact hmem e (by simp [he])

lemma Ordered.split (h : n.Ordered I) (hlen : 2 ≤ n.entries.length) {right : ℕ}
    (hsplit : n.split right = some (l, s, r)) :
    Cuts I s ∧ l.Ordered (I ∩ Set.Iio s) ∧ r.Ordered (I ∩ Set.Ici s) ∧
      l.entries ++ r.entries = n.entries := by
  obtain ⟨hsorted, hmem⟩ := h
  have happend := take_append_drop (n.entries.length / 2) n.entries
  unfold Leaf.split at hsplit
  split at hsplit
  · cases hsplit
  next e es hdrop =>
    split_ifs at hsplit
    cases hsplit
    rw [hdrop] at happend
    rw [← happend] at hsorted hmem
    obtain ⟨hl, hr, hlr⟩ := pairwise_append.mp hsorted
    have hhead := (pairwise_cons.mp hr).1
    have hbelow := fun x hx => hlr x hx e mem_cons_self
    obtain ⟨x, hx⟩ : ∃ x, x ∈ n.entries.take (n.entries.length / 2) := by
      apply exists_mem_of_ne_nil
      rw [← length_pos_iff, length_take]
      omega
    refine ⟨⟨hmem e (by simp), x.key, hmem x (by simp [hx]), hbelow x hx⟩, ⟨hl, ?_⟩, ⟨hr, ?_⟩,
      happend⟩
    · exact fun y hy => ⟨hmem y (mem_append_left _ hy), hbelow y hy⟩
    · intro y hy
      refine ⟨hmem y (mem_append_right _ hy), ?_⟩
      rcases mem_cons.mp hy with rfl | hy
      · exact le_refl y.key
      · exact (hhead y hy).le

lemma exists_split (hlen : 2 ≤ n.entries.length)
    (hfit : dataSize (n.entries.drop (n.entries.length / 2)) ≤ dataCapacity) (right : ℕ) :
    ∃ l s r, n.split right = some (l, s, r) ∧
      l.entries = n.entries.take (n.entries.length / 2) := by
  unfold split
  cases hdrop : n.entries.drop (n.entries.length / 2) with
  | nil =>
    have := congrArg List.length hdrop
    rw [length_drop, length_nil] at this
    omega
  | cons =>
    rw [hdrop] at hfit
    exact ⟨_, _, _, if_neg hfit.not_gt, rfl⟩

end Leaf

/-! ### Splits that reach the root -/

lemma exists_internalTake {α : Type} (capacity : ℕ) {n : Row Key α} (hcount : n.count + 1 ≠ 2 ^ 16)
    (pi : ℕ) (s : Key) (c : α) : ∃ sp, internalTake capacity n pi s c = some sp ∧
      ∀ l' s' r', sp = .halves l' s' r' → capacity ≤ n.count := by
  unfold internalTake
  rw [if_neg hcount]
  split_ifs with hroom
  · refine ⟨_, rfl, fun l' s' r' h => ?_⟩
    cases h
  · exact ⟨_, rfl, fun _ _ _ _ => not_lt.mp hroom⟩

lemma Node.exists_splice {capacity d : ℕ} {k : Key} {n : Node d} (l : Leaf) (s : Key) (r : Leaf)
    (hroom : roomy capacity k d n = true) : ∃ sp, splice capacity k l s r d n = some sp ∧
      ∀ l' s' r', sp = .halves l' s' r' → climbs capacity k d n = true := by
  induction d with
  | zero => exact ⟨_, rfl, fun _ _ _ _ => rfl⟩
  | succ d ih =>
    simp only [roomy, and_eq_true, or_eq_true, not_eq_true', bne_iff_ne] at hroom
    obtain ⟨hchild, hcount⟩ := hroom
    obtain ⟨sp, hsp, hclimbs⟩ := ih hchild
    rw [splice, hsp]
    cases sp with
    | whole =>
      refine ⟨_, rfl, fun l' s' r' h => ?_⟩
      cases h
    | halves l' s' r' =>
      have hup := hclimbs l' s' r' rfl
      rw [hup] at hcount
      have hcount' : (setChild n (internalFindChild n k) l').count + 1 ≠ 2 ^ 16 := by
        rw [count_setChild]
        exact hcount.resolve_left Bool.noConfusion
      obtain ⟨sp', hsp', hfull⟩ :=
        exists_internalTake capacity hcount' (internalFindChild n k) s' r'
      refine ⟨sp', hsp', fun l2 s2 r2 h => ?_⟩
      rw [climbs, hup, Bool.true_and, decide_eq_true_iff, ← count_setChild]
      exact hfull l2 s2 r2 h

namespace Tree

def entries (t : Tree) : List LeafEntry := Node.entries t.depth t.root

def Ordered (t : Tree) : Prop := Node.Ordered t.depth Set.univ t.root

variable {t : Tree} {k s : Key} {l r : Leaf} {v : UInt64} {e : LeafEntry}

/-- The keys that the tree leaves to the leaf for `k`. -/
def range (t : Tree) (k : Key) : Set Key := Node.range k t.depth Set.univ t.root

lemma Ordered.link (h : t.Ordered) (hroom : Node.roomy t.fanout k t.depth t.root = true)
    (hslots : Node.climbs t.fanout k t.depth t.root = true → 2 ≤ childSlots t.fanout)
    (hcut : Cuts (t.range k) s) (hl : l.Ordered (t.range k ∩ Set.Iio s))
    (hr : r.Ordered (t.range k ∩ Set.Ici s)) :
    ∃ t', t.link k l s r = some t' ∧ t'.Ordered ∧ t'.count = t.count ∧
      t'.entries = Node.before k t.depth t.root ++ (l.entries ++ r.entries) ++
        Node.after k t.depth t.root := by
  obtain ⟨sp, hsp, hclimbs⟩ := Node.exists_splice l s r hroom
  obtain ⟨hholds, hentries⟩ := Node.Ordered.splice h hcut hl hr hsp
  unfold Tree.link
  rw [hsp]
  cases sp with
  | whole => exact ⟨_, rfl, hholds, rfl, hentries⟩
  | halves l' s' r' =>
    have h2 := hslots (hclimbs l' s' r' rfl)
    refine ⟨_, if_neg h2.not_gt, hholds, rfl, ?_⟩
    rw [← hentries, Spliced.entries, entries, Node.entries_succ]
    simp [children]

/-- The entries of the leaf for `k` around the place of the key. -/
structure Place (t : Tree) (k : Key) (a b : List LeafEntry) : Prop where
  eq : (t.leafOf k).entries = a ++ ((t.leafOf k).found k).toList ++ b
  pos : (t.leafOf k).lowerBound k = a.length
  lt : ∀ e ∈ a, e.key < k
  gt : ∀ e ∈ b, k < e.key
  found : ∀ e ∈ (t.leafOf k).found k, e.key = k

variable {a b : List LeafEntry} {o : Option LeafEntry}

lemma Ordered.exists_place (h : t.Ordered) (k : Key) : ∃ a b, t.Place k a b := by
  obtain ⟨a, b, heq, hpos, hlt, hgt, hfound⟩ := (Node.Ordered.descendToLeaf h k).cut k
  exact ⟨a, b, heq, hpos, hlt, hgt, hfound⟩

/-- The entries of the tree, when those of the leaf for `k` are `entries`. -/
def around (t : Tree) (k : Key) (entries : List LeafEntry) : List LeafEntry :=
  before k t.depth t.root ++ entries ++ after k t.depth t.root

lemma Ordered.entries_eq (h : t.Ordered) (k : Key) :
    t.entries = t.around k (t.leafOf k).entries := Node.Ordered.entries_eq h k

namespace Place

section

variable (hp : t.Place k a b)
include hp

section

variable (h : t.Ordered) {leaf : Leaf} (ho : ∀ e ∈ o, e.key = k)
  (hleaf : leaf.entries = a ++ o.toList ++ b)
include h ho hleaf

lemma ordered : leaf.Ordered (t.range k) := by
  unfold Leaf.Ordered
  rw [hleaf]
  exact (Node.Ordered.descendToLeaf h k).patch (Node.mem_range (Set.mem_univ k) _) hp.eq hp.lt hp.gt
    ho

lemma withLeaf :
    (t.withLeaf k leaf).Ordered ∧ (t.withLeaf k leaf).entries = t.around k leaf.entries :=
  ⟨Node.Ordered.replaceLeaf h (hp.ordered h ho hleaf), Node.Ordered.entries_replaceLeaf h k leaf⟩

end

lemma entries_insertAt (hnone : (t.leafOf k).found k = none) (e : LeafEntry) :
    ((t.leafOf k).insertAt ((t.leafOf k).lowerBound k) e).entries = a ++ (some e).toList ++ b := by
  have heq := hp.eq
  rw [hnone, toList_none, append_nil] at heq
  rw [insertAt, hp.pos, heq, insertIdx_append_length, toList_some, append_assoc,
    singleton_append]

lemma entries_setRowId (hsome : (t.leafOf k).found k = some e) (v : UInt64) :
    ((t.leafOf k).setRowId ((t.leafOf k).lowerBound k) v).entries =
      a ++ (some ⟨k, v⟩ : Option LeafEntry).toList ++ b := by
  have heq := hp.eq
  rw [hsome, toList_some, append_assoc, singleton_append] at heq
  rw [setRowId, hp.pos, heq, modify_append_length, toList_some, append_assoc,
    singleton_append, hp.found e hsome]

lemma entries_removeAt (hsome : (t.leafOf k).found k = some e) :
    ((t.leafOf k).removeAt ((t.leafOf k).lowerBound k)).entries =
      a ++ (none : Option LeafEntry).toList ++ b := by
  have heq := hp.eq
  rw [hsome, toList_some, append_assoc, singleton_append] at heq
  rw [removeAt, hp.pos, heq, eraseIdx_append_of_length_le le_rfl, Nat.sub_self,
    eraseIdx_cons_zero, toList_none, append_nil]

end

end Place

/-! ### Inserts and deletes -/

/-- The tree after a call that put `o` in the place of the key, or left it as it was. -/
structure Edited (t : Tree) (k : Key) (a b : List LeafEntry) (o : Option LeafEntry) (t' : Tree) :
    Prop where
  ordered : t'.Ordered
  entries : t'.entries = t.around k (a ++ o.toList ++ b)
  count : t'.count + ((t.leafOf k).found k).toList.length = t.count + o.toList.length

lemma insert_split (h : t.Ordered) (hp : t.Place k a b) (hnone : (t.leafOf k).found k = none)
    (hlen : 1 ≤ (t.leafOf k).entries.length) (hfit : t.halvesFit ⟨k, v⟩ = true)
    (hroom : Node.roomy t.fanout k t.depth t.root = true)
    (hslots : Node.climbs t.fanout k t.depth t.root = true → 2 ≤ childSlots t.fanout) :
    ∃ left sep right t', ((t.leafOf k).insertAt ((t.leafOf k).lowerBound k) ⟨k, v⟩).split t.fresh =
          some (left, sep, right) ∧ dataSize left.entries ≤ dataCapacity ∧
        t.counted.link k left sep right = some t' ∧ t.Edited k a b (some ⟨k, v⟩) t' := by
  set more := (t.leafOf k).insertAt ((t.leafOf k).lowerBound k) ⟨k, v⟩ with hmore
  have hentries : more.entries = a ++ (some ⟨k, v⟩ : Option LeafEntry).toList ++ b :=
    hp.entries_insertAt hnone _
  have hordered : more.Ordered (t.range k) := hp.ordered h (by simp) hentries
  have hlen2 : 2 ≤ more.entries.length := by
    have heq := hp.eq
    rw [hnone, toList_none, append_nil] at heq
    rw [heq, length_append] at hlen
    rw [hentries]
    simp only [toList_some, length_append, length_singleton]
    omega
  simp only [halvesFit, and_eq_true, decide_eq_true_iff] at hfit
  obtain ⟨left, sep, right, hsplit, hleft⟩ := exists_split hlen2 hfit.2 t.fresh
  obtain ⟨hcut, hl, hr, happend⟩ := hordered.split hlen2 hsplit
  obtain ⟨t', hlink, hordered', hcount, hentries'⟩ :=
    Ordered.link (t := t.counted) h hroom hslots hcut hl hr
  refine ⟨left, sep, right, t', hsplit, hleft ▸ hfit.1, hlink, hordered', ?_, ?_⟩
  · rw [hentries', happend, hentries]
    rfl
  · rw [hcount, hnone]
    rfl

/-- What the condition says of an insert that splits its leaf. -/
lemma fits_of_split (hfit : t.insertFits ⟨k, v⟩ = true) (hnone : (t.leafOf k).found k = none)
    (hfull : ¬((t.leafOf k).entries.length < t.fanout ∧
      dataSize (t.leafOf k).entries + entryBytes k ≤ dataCapacity)) :
    t.halvesFit ⟨k, v⟩ = true ∧ roomy t.fanout k t.depth t.root = true ∧
      (climbs t.fanout k t.depth t.root = true → 2 ≤ childSlots t.fanout) := by
  simp only [insertFits, hnone, isSome_none, Bool.false_or, or_eq_true,
    and_eq_true, decide_eq_true_iff, not_eq_true'] at hfit
  obtain ⟨⟨hhalves, hroom⟩, hslots⟩ := hfit.resolve_left hfull
  refine ⟨hhalves, hroom, fun hclimbs => hslots.resolve_left ?_⟩
  rw [hclimbs]
  exact Bool.noConfusion

lemma one_le_length (hkey : k.length ≤ maxKeyLen)
    (hfull : ¬((t.leafOf k).entries.length < t.fanout ∧
      dataSize (t.leafOf k).entries + entryBytes k ≤ dataCapacity)) :
    1 ≤ (t.leafOf k).entries.length := by
  have hpos := t.fanout_pos
  by_contra hlen
  have hnil : (t.leafOf k).entries = [] := length_eq_zero_iff.mp (by omega)
  rw [hnil] at hfull
  simp only [dataSize, map_nil, sum_nil, length_nil, entryBytes, dataCapacity,
    pageSize] at hfull
  unfold maxKeyLen at hkey
  omega

lemma insert_spec (h : t.Ordered) (hp : t.Place k a b) (hkey : k.length ≤ maxKeyLen)
    (hfit : t.insertFits ⟨k, v⟩ = true) :
    ∃ t', t.insert k v = some (true, t') ∧ t.Edited k a b (some ⟨k, v⟩) t' := by
  unfold insert
  rw [if_neg hkey.not_gt]
  cases hfound : (t.leafOf k).found k with
  | some =>
    have hentries := hp.entries_setRowId hfound v
    obtain ⟨hordered, hentries'⟩ := hp.withLeaf h (by simp) hentries
    refine ⟨_, if_pos rfl, hordered, ?_, ?_⟩
    · rw [hentries', hentries]
    · rw [hfound]
      rfl
  | none =>
    simp only [isSome_none, false_eq_true, if_false]
    split_ifs with hroom hbytes
    · have hentries := hp.entries_insertAt hfound ⟨k, v⟩
      obtain ⟨hordered, hentries'⟩ := hp.withLeaf h (by simp) hentries
      refine ⟨_, rfl, hordered, ?_, ?_⟩
      · rw [← hentries]
        exact hentries'
      · rw [hfound]
        rfl
    all_goals
      obtain ⟨hhalves, hroomy, hslots⟩ := fits_of_split hfit hfound hroom
      obtain ⟨left, sep, right, t', hsplit, hleft, hlink, hedited⟩ :=
        insert_split h hp hfound (one_le_length hkey hroom) hhalves hroomy hslots
      refine ⟨t', ?_, hedited⟩
      simp [hsplit, hleft.not_gt, hlink]

lemma delete_spec (h : t.Ordered) (hp : t.Place k a b) (hcount : 1 ≤ t.count ∨
    (t.leafOf k).found k = none) :
    (t.delete k).1 = t.lookup k ∧ t.Edited k a b none (t.delete k).2 := by
  unfold lookup
  cases hfound : (t.leafOf k).found k with
  | none =>
    have hdelete : t.delete k = (none, t) := by simp [delete, hfound]
    rw [hdelete]
    refine ⟨rfl, h, ?_, ?_⟩
    · rw [h.entries_eq k, hp.eq, hfound]
    · rw [hfound]
  | some e =>
    have hentries := hp.entries_removeAt hfound
    obtain ⟨hordered, hentries'⟩ := hp.withLeaf h (by simp) hentries
    simp only [delete, hfound]
    refine ⟨rfl, hordered, ?_, ?_⟩
    · rw [← hentries]
      exact hentries'
    · rw [hfound] at hcount ⊢
      exact Nat.sub_add_cancel (hcount.resolve_right (some_ne_none e))

end Tree

/-! ### Refinement -/

/-- The tree has the entries of the map, and counts them. -/
structure Represents (t : Tree) (m : Reference) : Prop where
  ordered : t.Ordered
  lookup : ∀ e : LeafEntry, e ∈ t.entries ↔ m.lookup e.key = some e.rowId
  count : t.count = t.entries.length

namespace Represents

variable {t t' : Tree} {m m' : Reference} {k : Key} {a b : List LeafEntry} {o : Option LeafEntry}

lemma create (fanout : UInt32) : Represents (.create fanout) ∅ where
  ordered := ⟨List.Pairwise.nil, fun _ he => absurd he not_mem_nil⟩
  lookup e := by
    exact ⟨fun he => absurd he not_mem_nil, fun he => absurd he (some_ne_none _).symm⟩
  count := rfl

section

variable (h : Represents t m)
include h

lemma lookup_eq (k : Key) : t.lookup k = m.lookup k := by
  obtain ⟨a, b, hp⟩ := h.ordered.exists_place k
  have hentries : t.entries = t.around k (a ++ ((t.leafOf k).found k).toList ++ b) := by
    rw [h.ordered.entries_eq k, hp.eq]
  unfold Tree.lookup
  cases hfound : (t.leafOf k).found k with
  | some e =>
    have hmem : e ∈ t.entries := by
      rw [hentries, hfound]
      simp [around]
    rw [← hp.found e hfound, map_some, (h.lookup e).mp hmem]
  | none =>
    cases hm : m.lookup k with
    | none => rfl
    | some v =>
      have hmem := (h.lookup ⟨k, v⟩).mpr hm
      rw [hentries, hfound, around] at hmem
      simp only [toList_none, append_nil, mem_append] at hmem
      rcases hmem with (hmem | hmem | hmem) | hmem
      · exact absurd (Node.Ordered.lt_of_mem_before h.ordered hmem) (lt_irrefl k)
      · exact absurd (hp.lt _ hmem) (lt_irrefl k)
      · exact absurd (hp.gt _ hmem) (lt_irrefl k)
      · exact absurd (Node.Ordered.lt_of_mem_after h.ordered hmem) (lt_irrefl k)

/-- A call that changes the entry of one key in the tree and in the map. -/
lemma edit (hp : t.Place k a b) (ho : ∀ e ∈ o, e.key = k)
    (hedit : t.Edited k a b o t') (hk : m'.lookup k = o.map LeafEntry.rowId)
    (hne : ∀ k' ≠ k, m'.lookup k' = m.lookup k') : Represents t' m' := by
  have hold : t.entries = t.around k (a ++ ((t.leafOf k).found k).toList ++ b) := by
    rw [h.ordered.entries_eq k, hp.eq]
  refine ⟨hedit.ordered, fun e => ?_, ?_⟩
  · have hother : e.key ≠ k → (e ∈ t'.entries ↔ e ∈ t.entries) := by
      intro he
      have hfound : e ∉ ((t.leafOf k).found k).toList := fun hmem =>
        he (hp.found e (mem_toList.mp hmem))
      have hnew : e ∉ o.toList := fun hmem => he (ho e (mem_toList.mp hmem))
      rw [hedit.entries, hold]
      simp [around, hfound, hnew]
    by_cases he : e.key = k
    · have hmem : e ∈ t'.entries ↔ e ∈ o := by
        rw [hedit.entries, around]
        simp only [mem_append, mem_toList]
        constructor
        · rintro ((hmem | (hmem | hmem) | hmem) | hmem)
          · exact absurd (Node.Ordered.lt_of_mem_before h.ordered hmem) (he ▸ lt_irrefl _)
          · exact absurd (hp.lt e hmem) (he ▸ lt_irrefl _)
          · exact hmem
          · exact absurd (hp.gt e hmem) (he ▸ lt_irrefl _)
          · exact absurd (Node.Ordered.lt_of_mem_after h.ordered hmem) (he ▸ lt_irrefl _)
        · exact fun hmem => .inl (.inr (.inl (.inr hmem)))
      rw [hmem, he, hk]
      cases o with
      | none => simp
      | some e' =>
        rw [mem_some_iff, map_some, some_inj]
        constructor
        · rintro rfl
          rfl
        · intro hrow
          cases e
          cases e'
          cases he
          cases ho _ rfl
          cases hrow
          rfl
    · rw [hother he, hne e.key he]
      exact h.lookup e
  · have hcount := hedit.count
    rw [h.count, hold] at hcount
    rw [hedit.entries]
    simp only [around, length_append] at hcount ⊢
    omega

lemma exec {op : Op} (hfit : t.fits op = true) :
    ∃ t', t.exec op = some ((m.exec op).1, t') ∧ Represents t' (m.exec op).2 := by
  cases op with
  | insert key =>
    obtain ⟨a, b, hp⟩ := h.ordered.exists_place key.1
    obtain ⟨t', hinsert, hedit⟩ := insert_spec h.ordered hp key.2 hfit
    refine ⟨t', ?_, ?_⟩
    · rw [Tree.exec, hinsert]
      rfl
    · refine h.edit hp (by simp) hedit (Finmap.lookup_insert m) fun k' hk' => ?_
      exact Finmap.lookup_insert_of_ne m hk'
  | delete key =>
    obtain ⟨a, b, hp⟩ := h.ordered.exists_place key
    have hcount : 1 ≤ t.count ∨ (t.leafOf key).found key = none := by
      cases hfound : (t.leafOf key).found key with
      | none => exact .inr rfl
      | some =>
        left
        rw [h.count, h.ordered.entries_eq key, hp.eq, hfound]
        simp only [around, toList_some, length_append, length_singleton]
        omega
    obtain ⟨hanswer, hedit⟩ := delete_spec h.ordered hp hcount
    refine ⟨(t.delete key).2, ?_, ?_⟩
    · rw [Tree.exec, hanswer, h.lookup_eq]
      rfl
    · refine h.edit hp (by simp) hedit (Finmap.lookup_erase key m) fun k' hk' => ?_
      exact Finmap.lookup_erase_ne hk'
  | lookup =>
    refine ⟨t, ?_, h⟩
    rw [Tree.exec, h.lookup_eq]
    rfl

lemma run {ops : List Op} (hmeets : t.meets ops = true) :
    ∃ t', t.run ops = some ((m.run ops).1, t') ∧ Represents t' (m.run ops).2 := by
  induction ops generalizing t m with
  | nil => exact ⟨t, rfl, h⟩
  | cons op ops ih =>
    obtain ⟨hfit, hrest⟩ := (and_eq_true _ _).mp hmeets
    obtain ⟨t1, hexec, h1⟩ := h.exec hfit
    rw [hexec] at hrest
    obtain ⟨t', hrun, h'⟩ := ih h1 hrest
    refine ⟨t', ?_, h'⟩
    rw [run, hexec]
    simp only [hrun, map_some]
    rfl

lemma size_eq : t.size = m.keys.card := by
  have hsorted := (Node.Ordered.pairwise h.ordered).1
  have hnodup : (t.entries.map LeafEntry.key).Nodup :=
    pairwise_map.mpr (hsorted.imp fun hlt => hlt.ne)
  have hkeys : m.keys = (t.entries.map LeafEntry.key).toFinset := by
    ext k
    rw [Finmap.mem_keys, Finmap.mem_iff, List.mem_toFinset, List.mem_map]
    constructor
    · rintro ⟨v, hv⟩
      exact ⟨⟨k, v⟩, (h.lookup ⟨k, v⟩).mpr hv, rfl⟩
    · rintro ⟨e, he, rfl⟩
      exact ⟨e.rowId, (h.lookup e).mp he⟩
  rw [hkeys, toFinset_card_of_nodup hnodup, length_map]
  exact h.count

end

end Represents

/-- A tree is a map in every run in which the pages that are split have halves that fit: each insert
reports success, lookups and deletes return what the map has for the key, and the size is the number
of its keys. -/
theorem tree_refines_map (fanout : UInt32) (ops : List Op)
    (hmeets : (create fanout).meets ops = true) :
    ∃ t, (create fanout).run ops = some ((Reference.run ∅ ops).1, t) ∧
      t.size = (Reference.run ∅ ops).2.keys.card := by
  obtain ⟨t, hrun, h⟩ := (Represents.create fanout).run hmeets
  exact ⟨t, hrun, h.size_eq⟩

namespace Sample

/-- A key of the greatest length, with its first byte. -/
def longKey (b : UInt8) : { key : Key // key.length ≤ maxKeyLen } :=
  ⟨b :: List.replicate 1023 0, by rw [List.length_cons, List.length_replicate]; decide⟩

def shortKey (b : UInt8) : { key : Key // key.length ≤ maxKeyLen } :=
  ⟨[b], by rw [List.length_singleton]; decide⟩

/-- Three short keys, then four of the greatest length that come after them in order. -/
def shortThenLong : List Op :=
  [.insert (shortKey 1) 1, .insert (shortKey 2) 2, .insert (shortKey 3) 3, .insert (longKey 4) 4,
    .insert (longKey 5) 5, .insert (longKey 6) 6, .insert (longKey 7) 7]

/-- The upper half of the seven entries is the four long ones, which no page has room for: the last
insert fails, and is counted. -/
theorem insert_fails_beside_short_keys :
    ((create 0).run shortThenLong).map (fun r => (r.1.getLast?, r.2.size)) =
      some (some (.inserted false), 7) := by
  decide +kernel

/-- Four entries in leaves of two, and a delete. -/
def fourKeys : List Op :=
  [.insert (shortKey 4) 40, .insert (shortKey 1) 10, .insert (shortKey 3) 30,
    .insert (shortKey 2) 20, .delete [3], .lookup [2]]

theorem tree_refines_map_fourKeys : (create 2).meets fourKeys = true ∧
      ∃ t, (create 2).run fourKeys = some ((Reference.run ∅ fourKeys).1, t) ∧
        t.size = (Reference.run ∅ fourKeys).2.keys.card :=
  ⟨by decide +kernel, tree_refines_map 2 fourKeys (by decide +kernel)⟩

end Sample

end Qihse.Btree
