import Qihse.Bytes.Order
import Qihse.Fence.Row

/-!
# The B+ tree

The index of `qihse_btree.c`. All leaves of a tree are equally deep, since only a split of the root
makes it deeper, and `Node` has the depth as its index. The code walks up from a split leaf along
the parent pointers; here `Node.splice` meets the same nodes on the way back from the leaf.

Memory is always available. A pointer of the sibling chain is the number of the leaf it points to.
-/

namespace Qihse.Btree

open Bytes Fence

abbrev Key : Type := List UInt8

def pageSize : ℕ := 4096

def maxKeyLen : ℕ := 1024

def defaultFanout : ℕ := 128

/-- The page without the fields before `data`. -/
def dataCapacity : ℕ := pageSize - 56

/-! ### Keys -/

def keyCmp (a b : Key) : Ordering :=
  match memcmp a b with
  | .eq => if a.length < b.length then .lt else if b.length < a.length then .gt else .eq
  | c => c

/-! ### Leaves -/

structure LeafEntry where
  key : Key
  rowId : UInt64

/-- The bytes of an entry with the key: `sizeof(leaf_entry_t)` and the key itself. -/
def entryBytes (key : Key) : ℕ := 16 + key.length

structure Leaf where
  addr : ℕ
  nextLeaf : Option ℕ
  entries : List LeafEntry

namespace Leaf

def dataSize (entries : List LeafEntry) : ℕ := (entries.map fun e => entryBytes e.key).sum

def lowerBound (n : Leaf) (key : Key) : ℕ :=
  search (fun e : LeafEntry => keyCmp e.key key == .lt) n.entries

def insertAt (n : Leaf) (pos : ℕ) (e : LeafEntry) : Leaf :=
  { n with entries := n.entries.insertIdx pos e }

def removeAt (n : Leaf) (pos : ℕ) : Leaf := { n with entries := n.entries.eraseIdx pos }

def setRowId (n : Leaf) (pos : ℕ) (rowId : UInt64) : Leaf :=
  { n with entries := n.entries.modify pos fun e => { e with rowId } }

/-- The entry where the search for the key ends, if it is one of this key. -/
def found (n : Leaf) (key : Key) : Option LeafEntry :=
  n.entries[n.lowerBound key]?.filter fun e => e.key = key

/-- The upper half moves to the new leaf `right`, whose first key separates the two. -/
def split (n : Leaf) (right : ℕ) : Option (Leaf × Key × Leaf) :=
  match n.entries.drop (n.entries.length / 2) with
  | [] => none
  | e :: es =>
    if dataCapacity < dataSize (e :: es) then none
    else
      some (⟨n.addr, some right, n.entries.take (n.entries.length / 2)⟩, e.key,
        ⟨right, n.nextLeaf, e :: es⟩)

end Leaf

/-! ### Nodes -/

/-- The children of an internal node stand with the separator keys between them. -/
@[reducible]
def Node : ℕ → Type
  | 0 => Leaf
  | d + 1 => Row Key (Node d)

def internalFindChild {α : Type} (n : Row Key α) (key : Key) : ℕ :=
  search (fun s : Key => keyCmp s key != .gt) n.seps

/-- What becomes of a node below which a leaf was split: the node, or its two halves. -/
inductive Spliced (α : Type) where
  | whole (n : α) : Spliced α
  | halves (left : α) (sep : Key) (right : α) : Spliced α

/-- The separator in the middle goes up. -/
def internalSplit {α : Type} (n : Row Key α) : Spliced (Row Key α) :=
  match n.splitAt (n.count / 2) with
  | none => .whole n
  | some (left, promo, right) => .halves left promo right

/-- A child behind the one in position `pi`; a full node is split afterwards. The count of a node
has 16 bits: there is no result when it would wrap. -/
def internalTake {α : Type} (capacity : ℕ) (n : Row Key α) (pi : ℕ) (sep : Key) (child : α) :
    Option (Spliced (Row Key α)) :=
  if n.count + 1 = 2 ^ 16 then none
  else if n.count < capacity then some (.whole (n.insertChild pi sep child))
  else some (internalSplit (n.insertChild pi sep child))

namespace Node

def descendToLeaf (key : Key) : (d : ℕ) → Node d → Leaf
  | 0, leaf => leaf
  | d + 1, n => descendToLeaf key d (Row.child n (internalFindChild n key))

/-- Another leaf in the place of the one for the key. -/
def replaceLeaf (key : Key) (leaf : Leaf) : (d : ℕ) → Node d → Node d
  | 0, _ => leaf
  | d + 1, n =>
    Row.setChild n (internalFindChild n key)
      (replaceLeaf key leaf d (Row.child n (internalFindChild n key)))

/-- The loop over the parents, after the leaf for the key was split. -/
def splice (capacity : ℕ) (key : Key) (left : Leaf) (sep : Key) (right : Leaf) :
    (d : ℕ) → Node d → Option (Spliced (Node d))
  | 0, _ => some (.halves left sep right)
  | d + 1, n =>
    match splice capacity key left sep right d (Row.child n (internalFindChild n key)) with
    | none => none
    | some (.whole c) => some (.whole (Row.setChild n (internalFindChild n key) c))
    | some (.halves l s r) =>
      internalTake capacity (Row.setChild n (internalFindChild n key) l) (internalFindChild n key)
        s r

end Node

/-! ### The tree -/

structure Tree where
  fanout : ℕ
  depth : ℕ
  root : Node depth
  count : ℕ
  /-- The number of the next leaf to be allocated. -/
  fresh : ℕ
  fanout_pos : 0 < fanout

namespace Tree

def create (fanout : UInt32) : Tree where
  fanout := if fanout = 0 then defaultFanout else fanout.toNat
  depth := 0
  root := (⟨0, none, []⟩ : Leaf)
  count := 0
  fresh := 1
  fanout_pos := by
    split_ifs with h
    · decide
    · exact pos_of_ne_zero fun hn => h (UInt32.toNat_inj.mp hn)

def leafOf (t : Tree) (key : Key) : Leaf := Node.descendToLeaf key t.depth t.root

def withLeaf (t : Tree) (key : Key) (leaf : Leaf) : Tree :=
  { t with root := Node.replaceLeaf key leaf t.depth t.root }

/-- How many children `node_alloc_internal` has room for; the sum has 32 bits. -/
def childSlots (fanout : ℕ) : ℕ := (fanout + 2) % 2 ^ 32

/-- The two halves of a leaf come into the tree. A root that was split gets a new root above it,
which there is no result for when the new node has no room for two children. -/
def link (t : Tree) (key : Key) (left : Leaf) (sep : Key) (right : Leaf) : Option Tree :=
  match Node.splice t.fanout key left sep right t.depth t.root with
  | none => none
  | some (.whole n) => some { t with root := n, fresh := t.fresh + 1 }
  | some (.halves l s r) =>
    if childSlots t.fanout < 2 then none
    else
      some { t with
        depth := t.depth + 1
        root := (Row.cons l s (.last r) : Row Key (Node t.depth))
        fresh := t.fresh + 1 }

def counted (t : Tree) : Tree := { t with count := t.count + 1 }

/-- Whether the code reports success, and the tree then. The counter goes up before the split. -/
def insert (t : Tree) (key : Key) (rowId : UInt64) : Option (Bool × Tree) :=
  let leaf := t.leafOf key
  let pos := leaf.lowerBound key
  let more := leaf.insertAt pos ⟨key, rowId⟩
  if maxKeyLen < key.length then some (false, t)
  else if (leaf.found key).isSome then some (true, t.withLeaf key (leaf.setRowId pos rowId))
  else if leaf.entries.length < t.fanout ∧
      Leaf.dataSize leaf.entries + entryBytes key ≤ dataCapacity then
    some (true, (t.withLeaf key more).counted)
  else if dataCapacity < Leaf.dataSize leaf.entries + entryBytes key then
    -- the split of a copy of the page, which has room for the entry
    match more.split t.fresh with
    | none => some (false, t.counted)
    | some (left, sep, right) =>
      if dataCapacity < Leaf.dataSize left.entries then some (false, t.counted)
      else (t.counted.link key left sep right).map fun t' => (true, t')
  else
    match more.split t.fresh with
    | none => some (false, (t.withLeaf key more).counted)
    | some (left, sep, right) => (t.counted.link key left sep right).map fun t' => (true, t')

def lookup (t : Tree) (key : Key) : Option UInt64 :=
  ((t.leafOf key).found key).map LeafEntry.rowId

/-- The row id of the key, if it was there. -/
def delete (t : Tree) (key : Key) : Option UInt64 × Tree :=
  let leaf := t.leafOf key
  match leaf.found key with
  | none => (none, t)
  | some e =>
    (some e.rowId,
      { t.withLeaf key (leaf.removeAt (leaf.lowerBound key)) with count := t.count - 1 })

def size (t : Tree) : ℕ := t.count

end Tree

end Qihse.Btree
