import Mathlib

/-!
# Ternary search trees

Maps whose keys are non-empty lists over a linear order. A node compares one element of the key:
smaller keys are on the left, larger ones on the right, and the rest of the key is searched in the
middle. `Trie` is a tree in which every key is where the search looks for it.
-/

namespace Tst

open List Option

/-- A node has the value of the key that ends there, if one does. -/
inductive Tree (α β : Type*) where
  | leaf : Tree α β
  | node (c : α) (value : Option β) (left mid right : Tree α β) : Tree α β

variable {α β : Type*}

namespace Tree

section Operations

variable [LinearOrder α]

/-- The value of the key `c :: cs`. -/
def search : Tree α β → α → List α → Option β
  | leaf, _, _ => none
  | node d value left mid right, c, cs =>
    if c < d then left.search c cs
    else if d < c then right.search c cs
    else
      match cs with
      | [] => value
      | c' :: cs' => mid.search c' cs'

/-- The nodes of a key in an empty tree. -/
def path (v : β) : α → List α → Tree α β
  | c, [] => node c (some v) leaf leaf leaf
  | c, c' :: cs' => node c none leaf (path v c' cs') leaf

def insert (v : β) : Tree α β → α → List α → Tree α β
  | leaf, c, cs => path v c cs
  | node d value left mid right, c, cs =>
    if c < d then node d value (left.insert v c cs) mid right
    else if d < c then node d value left mid (right.insert v c cs)
    else
      match cs with
      | [] => node d (some v) left mid right
      | c' :: cs' => node d value left (mid.insert v c' cs') right

end Operations

/-- The keys below a common beginning with their values, smaller keys first. -/
def entries : Tree α β → List α → List (List α × β)
  | leaf, _ => []
  | node c value left mid right, p =>
    left.entries p ++ (value.map fun v => (p ++ [c], v)).toList ++ mid.entries (p ++ [c]) ++
      right.entries p

/-- The first elements of the keys of a tree. -/
def heads : Tree α β → List α
  | leaf => []
  | node c _ left _ right => left.heads ++ c :: right.heads

section Ordered

variable [LinearOrder α]

def Ordered : Tree α β → Prop
  | leaf => True
  | node c _ left mid right =>
    (∀ x ∈ left.heads, x < c) ∧ (∀ x ∈ right.heads, c < x) ∧ left.Ordered ∧ mid.Ordered ∧
      right.Ordered

variable {t : Tree α β} {c c' : α} {cs cs' p : List α} {v : β}

lemma search_path : (path v c cs).search c' cs' = if c' = c ∧ cs' = cs then some v else none := by
  induction cs generalizing c c' cs' with
  | nil =>
    obtain h | rfl | h := lt_trichotomy c' c
    · simp [path, search, h, h.ne]
    · cases cs' <;> simp [path, search]
    · simp [path, search, h, h.ne']
  | cons d cs ih =>
    obtain h | rfl | h := lt_trichotomy c' c
    · simp [path, search, h, h.ne]
    · cases cs' with
      | nil => simp [path, search]
      | cons => simp [path, search, ih]
    · simp [path, search, h, h.ne']

/-- Inserting changes the value of one key. -/
lemma search_insert : (t.insert v c cs).search c' cs' =
    if c' = c ∧ cs' = cs then some v else t.search c' cs' := by
  induction t generalizing c cs c' cs' with
  | leaf =>
    rw [insert, search_path]
    rfl
  | node d value left mid right ihl ihm ihr =>
    unfold insert
    obtain h | rfl | h := lt_trichotomy c d
    · rw [if_pos h]
      unfold search
      by_cases h' : c' < d
      · rw [if_pos h', if_pos h', ihl]
      · have hne : c' ≠ c := fun hc => h' (hc ▸ h)
        simp [h', hne]
    · obtain h' | rfl | h' := lt_trichotomy c' c
      · cases cs <;> simp [search, h', h'.ne]
      · cases cs with
        | nil => cases cs' <;> simp [search]
        | cons =>
          cases cs' with
          | nil => simp [search]
          | cons => simp [search, ihm]
      · cases cs <;> simp [search, h', h'.ne']
    · rw [if_neg (not_lt.mpr h.le), if_pos h]
      unfold search
      by_cases h' : d < c'
      · rw [if_neg (not_lt.mpr h'.le), if_pos h', if_neg (not_lt.mpr h'.le), if_pos h', ihr]
      · have hne : c' ≠ c := fun hc => h' (hc ▸ h)
        simp [h', hne]

lemma mem_heads_of_search (h : t.search c cs = some v) : c ∈ t.heads := by
  induction t with
  | leaf => simp [search] at h
  | node d value left mid right ihl _ ihr =>
    unfold search at h
    unfold heads
    split_ifs at h with h1 h2
    · exact mem_append_left _ (ihl h)
    · exact mem_append_right _ (mem_cons_of_mem _ (ihr h))
    · rw [le_antisymm (not_lt.mp h2) (not_lt.mp h1)]
      simp

omit [LinearOrder α] in
lemma heads_path : (path v c cs).heads = [c] := by
  cases cs <;> rfl

lemma ordered_path : (path v c cs).Ordered := by
  induction cs generalizing c with
  | nil => simp [path, Ordered, heads]
  | cons d cs ih => simp [path, Ordered, heads, ih]

lemma mem_heads_insert {x : α} : x ∈ (t.insert v c cs).heads ↔ x = c ∨ x ∈ t.heads := by
  induction t generalizing c cs with
  | leaf => simp [insert, heads_path, heads]
  | node d value left mid right ihl _ ihr =>
    unfold insert
    split_ifs with h1 h2
    · simp only [heads, mem_append, mem_cons, ihl]
      exact or_assoc
    · simp only [heads, mem_append, mem_cons, ihr]
      rw [or_left_comm (b := x = c), or_left_comm (b := x = c)]
    · obtain rfl : c = d := le_antisymm (not_lt.mp h2) (not_lt.mp h1)
      have hc : x = c → x ∈ left.heads ∨ x = c ∨ x ∈ right.heads := fun h => .inr (.inl h)
      cases cs <;> simp only [heads, mem_append, mem_cons] <;>
        exact (or_iff_right_of_imp hc).symm

lemma Ordered.insert (h : t.Ordered) (v : β) (c : α) (cs : List α) : (t.insert v c cs).Ordered := by
  induction t generalizing c cs with
  | leaf => exact ordered_path
  | node d value left mid right ihl ihm ihr =>
    obtain ⟨hl, hr, hleft, hmid, hright⟩ := h
    unfold Tree.insert
    split_ifs with h1 h2
    · refine ⟨fun x hx => ?_, hr, ihl hleft c cs, hmid, hright⟩
      exact (mem_heads_insert.mp hx).elim (fun h => h ▸ h1) (hl x)
    · refine ⟨hl, fun x hx => ?_, hleft, hmid, ihr hright c cs⟩
      exact (mem_heads_insert.mp hx).elim (fun h => h ▸ h2) (hr x)
    · cases cs with
      | nil => exact ⟨hl, hr, hleft, hmid, hright⟩
      | cons c' cs' => exact ⟨hl, hr, hleft, ihm hmid c' cs', hright⟩

/-- In an ordered tree the entries are what the search finds. -/
lemma mem_entries (h : t.Ordered) {k : List α} :
    (k, v) ∈ t.entries p ↔ ∃ c cs, k = p ++ c :: cs ∧ t.search c cs = some v := by
  induction t generalizing p with
  | leaf => simp [entries, search]
  | node d value left mid right ihl ihm ihr =>
    obtain ⟨hl, hr, hleft, hmid, hright⟩ := h
    simp only [entries, mem_append, ihl hleft, ihm hmid, ihr hright, mem_toList,
      map_eq_some_iff, Prod.mk.injEq]
    constructor
    · rintro (((⟨c, cs, rfl, hs⟩ | ⟨w, hw, rfl, rfl⟩) | ⟨c, cs, rfl, hs⟩) | ⟨c, cs, rfl, hs⟩)
      · have hlt := hl c (mem_heads_of_search hs)
        exact ⟨c, cs, rfl, by simp [search, hlt, hs]⟩
      · exact ⟨d, [], rfl, by simp [search, hw]⟩
      · exact ⟨d, c :: cs, by simp, by simp [search, hs]⟩
      · have hlt := hr c (mem_heads_of_search hs)
        exact ⟨c, cs, rfl, by simp [search, hlt, not_lt.mpr hlt.le, hs]⟩
    · rintro ⟨c, cs, rfl, hs⟩
      unfold search at hs
      split_ifs at hs with h1 h2
      · exact .inl (.inl (.inl ⟨c, cs, rfl, hs⟩))
      · exact .inr ⟨c, cs, rfl, hs⟩
      · obtain rfl : c = d := le_antisymm (not_lt.mp h2) (not_lt.mp h1)
        cases cs with
        | nil => exact .inl (.inl (.inr ⟨v, hs, rfl, rfl⟩))
        | cons c' cs' => exact .inl (.inr ⟨c', cs', by simp, hs⟩)

/-- No key is enumerated twice. -/
lemma nodup_entries (h : t.Ordered) : ((t.entries p).map Prod.fst).Nodup := by
  induction t generalizing p with
  | leaf => exact nodup_nil
  | node d value left mid right ihl ihm ihr =>
    obtain ⟨hl, hr, hleft, hmid, hright⟩ := h
    have hkey : ∀ {t : Tree α β} {q k : List α}, t.Ordered → k ∈ (t.entries q).map Prod.fst →
        ∃ c cs, k = q ++ c :: cs ∧ c ∈ t.heads := by
      intro t q k ht hk
      obtain ⟨⟨k', w⟩, hmem, rfl⟩ := List.mem_map.mp hk
      obtain ⟨c, cs, hk', hs⟩ := (mem_entries ht).mp hmem
      exact ⟨c, cs, hk', mem_heads_of_search hs⟩
    have hvalue : ∀ k ∈ (value.map fun v => (p ++ [d], v)).toList.map Prod.fst, k = p ++ [d] := by
      cases value <;> simp
    simp only [entries, map_append, nodup_append, mem_append]
    refine ⟨⟨⟨ihl hleft, by cases value <;> simp, ?_⟩, ihm hmid, ?_⟩, ihr hright, ?_⟩
    · -- on the left the key goes on with a smaller element
      rintro a ha _ hb rfl
      obtain ⟨c, cs, rfl, hc⟩ := hkey hleft ha
      simpa [(hl c hc).ne] using hvalue _ hb
    · rintro a ha _ hb rfl
      obtain ⟨c', cs', hk, -⟩ := hkey hmid hb
      rcases ha with ha | ha
      · obtain ⟨c, cs, rfl, hc⟩ := hkey hleft ha
        simp [(hl c hc).ne] at hk
      · simp [hvalue a ha] at hk
    · rintro a ha _ hb rfl
      obtain ⟨c', cs', hk, hc'⟩ := hkey hright hb
      have hlt := hr c' hc'
      rcases ha with (ha | ha) | ha
      · obtain ⟨c, cs, rfl, hc⟩ := hkey hleft ha
        simp [((hl c hc).trans hlt).ne] at hk
      · simp [hvalue a ha, hlt.ne] at hk
      · obtain ⟨c, cs, rfl, -⟩ := hkey hmid ha
        simp [hlt.ne] at hk

end Ordered

end Tree

/-! ### Tries -/

/-- A tree whose keys are where the search looks for them. -/
structure Trie (α β : Type*) [LinearOrder α] where
  tree : Tree α β
  ordered : tree.Ordered

namespace Trie

variable [LinearOrder α] {t : Trie α β} {k k' : List α} {v : β}

def empty : Trie α β := ⟨.leaf, trivial⟩

/-- The value of a key; the empty key has none. -/
def find (t : Trie α β) : List α → Option β
  | [] => none
  | c :: cs => t.tree.search c cs

def insert (t : Trie α β) (k : List α) (v : β) : Trie α β :=
  match k with
  | [] => t
  | c :: cs => ⟨t.tree.insert v c cs, t.ordered.insert v c cs⟩

def entries (t : Trie α β) : List (List α × β) := t.tree.entries []

@[simp]
lemma find_empty (k : List α) : (empty : Trie α β).find k = none := by
  cases k <;> rfl

lemma find_insert (hk : k ≠ []) :
    (t.insert k v).find k' = if k' = k then some v else t.find k' := by
  cases k with
  | nil => exact absurd rfl hk
  | cons =>
    cases k' with
    | nil => simp [find]
    | cons => simp [find, insert, Tree.search_insert]

lemma mem_entries : (k, v) ∈ t.entries ↔ t.find k = some v := by
  unfold entries
  rw [Tree.mem_entries t.ordered]
  cases k with
  | nil | cons => simp [find]

lemma nodup_entries (t : Trie α β) : (t.entries.map Prod.fst).Nodup := Tree.nodup_entries t.ordered

end Trie

end Tst
