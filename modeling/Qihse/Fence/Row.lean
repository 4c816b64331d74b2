import Qihse.Fence.Search

/-!
# Rows of children

Children with a separator between any two neighbours, as the inner nodes of a search tree have them.
`Row.Holds` says that every child keeps to the part of an interval which its separators leave it;
the updates of a row keep it.
-/

namespace Fence

open List Set

variable {K α β : Type*}

/-- Children with a separator between any two neighbours. -/
inductive Row (K α : Type*) where
  | last (child : α) : Row K α
  | cons (child : α) (sep : K) (rest : Row K α) : Row K α

namespace Row

/-- The number of separators. -/
def count : Row K α → ℕ
  | last _ => 0
  | cons _ _ rest => rest.count + 1

def seps : Row K α → List K
  | last _ => []
  | cons _ s rest => s :: rest.seps

def children : Row K α → List α
  | last c => [c]
  | cons c _ rest => c :: rest.children

def child : Row K α → ℕ → α
  | last c, _ => c
  | cons c _ _, 0 => c
  | cons _ _ rest, i + 1 => rest.child i

def setChild : Row K α → ℕ → α → Row K α
  | last _, _, d => last d
  | cons _ s rest, 0, d => cons d s rest
  | cons c s rest, i + 1, d => cons c s (rest.setChild i d)

/-- A new child after the one in position `i`, and a separator between the two. -/
def insertChild : Row K α → ℕ → K → α → Row K α
  | last c, _, s, d => cons c s (last d)
  | cons c s' rest, 0, s, d => cons c s (cons d s' rest)
  | cons c s' rest, i + 1, s, d => cons c s' (rest.insertChild i s d)

/-- The rows on either side of the separator in position `i`. -/
def splitAt : Row K α → ℕ → Option (Row K α × K × Row K α)
  | last _, _ => none
  | cons c s rest, 0 => some (last c, s, rest)
  | cons c s rest, i + 1 => (rest.splitAt i).map fun lsr => (cons c s lsr.1, lsr.2)

variable {n l r : Row K α} {c d : α} {s k : K} {i : ℕ}

@[simp]
lemma count_setChild : (n.setChild i d).count = n.count := by
  induction n generalizing i with
  | last => rfl
  | cons c s rest ih =>
    cases i with
    | zero => rfl
    | succ => exact congrArg (· + 1) ih

lemma children_splitAt (h : n.splitAt i = some (l, s, r)) :
    n.children = l.children ++ r.children := by
  induction n generalizing i l with
  | last => cases h
  | cons c s' rest ih =>
    cases i with
    | zero =>
      cases h
      rfl
    | succ =>
      obtain ⟨⟨l', sr⟩, hsplit, heq⟩ := Option.map_eq_some_iff.mp h
      cases heq
      exact congrArg (c :: ·) (ih hsplit)

/-! ### Routing -/

section Order

variable [LinearOrder K]

/-- The position of the child for `k`: as many separators are at most `k`. -/
def rank (k : K) : Row K α → ℕ
  | last _ => 0
  | cons _ s rest => if s ≤ k then rest.rank k + 1 else 0

/-- The children before the one for `k`. -/
def before (k : K) : Row K α → List α
  | last _ => []
  | cons c s rest => if s ≤ k then c :: rest.before k else []

/-- The children after the one for `k`. -/
def after (k : K) : Row K α → List α
  | last _ => []
  | cons _ s rest => if s ≤ k then rest.after k else rest.children

lemma children_eq (k : K) (n : Row K α) :
    n.children = n.before k ++ n.child (n.rank k) :: n.after k := by
  induction n with
  | last => rfl
  | cons c s rest ih =>
    by_cases hs : s ≤ k
    · simp [children, before, rank, after, if_pos hs, child, ← ih]
    · simp [children, before, rank, after, if_neg hs, child]

lemma children_setChild (k : K) (n : Row K α) (d : α) :
    (n.setChild (n.rank k) d).children = n.before k ++ d :: n.after k := by
  induction n with
  | last => rfl
  | cons c s rest ih =>
    by_cases hs : s ≤ k
    · simp [rank, before, after, if_pos hs, setChild, children, ih]
    · simp [rank, before, after, if_neg hs, setChild, children]

lemma children_insertChild (k : K) (n : Row K α) (c : α) (s : K) (d : α) :
    ((n.setChild (n.rank k) c).insertChild (n.rank k) s d).children =
      n.before k ++ c :: d :: n.after k := by
  induction n with
  | last => rfl
  | cons c s rest ih =>
    by_cases hs : s ≤ k
    · simp [rank, before, after, if_pos hs, setChild, insertChild, children, ih]
    · simp [rank, before, after, if_neg hs, setChild, insertChild, children]

/-! ### Intervals -/

/-- A separator that leaves something of the interval on either side. -/
def Cuts (I : Set K) (s : K) : Prop := s ∈ I ∧ ∃ x ∈ I, x < s

/-- Every child has `P` for the part of `I` that its separators leave it. -/
def Holds (P : Set K → α → Prop) : Set K → Row K α → Prop
  | I, last c => P I c
  | I, cons c s rest => Cuts I s ∧ P (I ∩ Iio s) c ∧ Holds P (I ∩ Ici s) rest

/-- The part of `I` that is left to the child for `k`. -/
def range (k : K) : Set K → Row K α → Set K
  | I, last _ => I
  | I, cons _ s rest => if s ≤ k then range k (I ∩ Ici s) rest else I ∩ Iio s

variable {P : Set K → α → Prop} {I J : Set K}

lemma Cuts.mono (h : Cuts I s) (hsub : I ⊆ J) : Cuts J s := by
  obtain ⟨hs, x, hx, hlt⟩ := h
  exact ⟨hsub hs, x, hsub hx, hlt⟩

lemma Holds.seps_mem (h : n.Holds P I) : ∀ s ∈ n.seps, Cuts I s := by
  induction n generalizing I with
  | last => exact fun s hs => absurd hs not_mem_nil
  | cons c s rest ih =>
    exact forall_mem_cons.mpr ⟨h.1, fun s' hs' => (ih h.2.2 s' hs').mono inter_subset_left⟩

/-- The search for the number of separators that are at most `k` finds the child for `k`. -/
lemma Holds.search_seps (h : n.Holds P I) (k : K) :
    search (fun s => decide (s ≤ k)) n.seps = n.rank k := by
  obtain ⟨l, r, heq, hl, hr, hlen⟩ : ∃ l r, n.seps = l ++ r ∧ (∀ s ∈ l, s ≤ k) ∧
      (∀ s ∈ r, k < s) ∧ l.length = n.rank k := by
    induction n generalizing I with
    | last => exact ⟨[], [], rfl, by simp, by simp, rfl⟩
    | cons c s rest ih =>
      by_cases hs : s ≤ k
      · obtain ⟨l, r, heq, hl, hr, hlen⟩ := ih h.2.2
        refine ⟨s :: l, r, congrArg (s :: ·) heq, ?_, hr, ?_⟩
        · exact forall_mem_cons.mpr ⟨hs, hl⟩
        · rw [rank, if_pos hs, length_cons, hlen]
      · refine ⟨[], s :: rest.seps, rfl, by simp, ?_, ?_⟩
        · rw [not_le] at hs
          refine forall_mem_cons.mpr ⟨hs, fun s' hs' => ?_⟩
          exact hs.trans_le (h.2.2.seps_mem s' hs').1.2
        · rw [rank, if_neg hs, length_nil]
  rw [heq, ← hlen]
  refine search_append (fun s hs => ?_) fun s hs => ?_
  · exact decide_eq_true (hl s hs)
  · exact decide_eq_false (not_le.mpr (hr s hs))

lemma mem_range (hk : k ∈ I) (n : Row K α) : k ∈ n.range k I := by
  induction n generalizing I with
  | last => exact hk
  | cons c s rest ih =>
    rw [range]
    split_ifs with hs
    · exact ih ⟨hk, hs⟩
    · exact ⟨hk, not_le.mp hs⟩

section

variable (h : n.Holds P I)
include h

lemma Holds.child (k : K) : P (n.range k I) (n.child (n.rank k)) := by
  induction n generalizing I with
  | last => exact h
  | cons c s rest ih =>
    by_cases hs : s ≤ k
    · simp only [range, rank, if_pos hs, child]
      exact ih h.2.2
    · simp only [range, rank, if_neg hs, child]
      exact h.2.1

lemma Holds.setChild (hc : P (n.range k I) c) : (n.setChild (n.rank k) c).Holds P I := by
  induction n generalizing I with
  | last => exact hc
  | cons c s rest ih =>
    by_cases hs : s ≤ k
    · simp only [range, rank, if_pos hs, setChild] at hc ⊢
      exact ⟨h.1, h.2.1, ih h.2.2 hc⟩
    · simp only [range, rank, if_neg hs, setChild] at hc ⊢
      exact ⟨h.1, hc, h.2.2⟩

/-- The child for `k` may be replaced by two with a separator that cuts its interval. -/
lemma Holds.insertChild (hs : Cuts (n.range k I) s)
    (hc : P (n.range k I ∩ Iio s) c) (hd : P (n.range k I ∩ Ici s) d) :
    ((n.setChild (n.rank k) c).insertChild (n.rank k) s d).Holds P I := by
  induction n generalizing I with
  | last => exact ⟨hs, hc, hd⟩
  | cons c0 s0 rest ih =>
    obtain ⟨hcut, hfirst, hrest⟩ := h
    by_cases hs0 : s0 ≤ k
    · simp only [range, rank, if_pos hs0] at hs hc hd ⊢
      exact ⟨hcut, hfirst, ih hrest hs hc hd⟩
    · simp only [range, rank, if_neg hs0] at hs hc hd ⊢
      have hlt : s < s0 := hs.1.2
      refine ⟨hs.mono inter_subset_left, ?_, ⟨⟨hcut.1, hlt.le⟩, s, ⟨hs.1.1, le_rfl⟩, hlt⟩,
        ?_, ?_⟩
      · rwa [inter_assoc, inter_eq_right.mpr (Iio_subset_Iio hlt.le)] at hc
      · rwa [inter_right_comm] at hd
      · rwa [inter_assoc, inter_eq_right.mpr (Ici_subset_Ici.mpr hlt.le)]

lemma Holds.exists_of_mem (hc : c ∈ n.children) : ∃ J ⊆ I, P J c := by
  induction n generalizing I with
  | last =>
    cases mem_singleton.mp hc
    exact ⟨I, subset_rfl, h⟩
  | cons d s rest ih =>
    rcases mem_cons.mp hc with rfl | hmem
    · exact ⟨_, inter_subset_left, h.2.1⟩
    · obtain ⟨J, hsub, hJ⟩ := ih h.2.2 hmem
      exact ⟨J, hsub.trans inter_subset_left, hJ⟩

lemma Holds.of_mem_before (hc : c ∈ n.before k) : ∃ J ⊆ Iio k, P J c := by
  induction n generalizing I with
  | last => exact absurd hc not_mem_nil
  | cons d s rest ih =>
    by_cases hs : s ≤ k
    · rw [before, if_pos hs] at hc
      rcases mem_cons.mp hc with rfl | hmem
      · exact ⟨_, fun x hx => lt_of_lt_of_le hx.2 hs, h.2.1⟩
      · exact ih h.2.2 hmem
    · rw [before, if_neg hs] at hc
      exact absurd hc not_mem_nil

lemma Holds.of_mem_after (hc : c ∈ n.after k) : ∃ J ⊆ Ioi k, P J c := by
  induction n generalizing I with
  | last => exact absurd hc not_mem_nil
  | cons d s rest ih =>
    by_cases hs : s ≤ k
    · rw [after, if_pos hs] at hc
      exact ih h.2.2 hc
    · rw [after, if_neg hs] at hc
      obtain ⟨J, hsub, hJ⟩ := h.2.2.exists_of_mem hc
      exact ⟨J, fun x hx => lt_of_lt_of_le (not_le.mp hs) (hsub hx).2, hJ⟩

lemma Holds.splitAt (hsplit : n.splitAt i = some (l, s, r)) :
    Cuts I s ∧ l.Holds P (I ∩ Iio s) ∧ r.Holds P (I ∩ Ici s) := by
  induction n generalizing I i l with
  | last => cases hsplit
  | cons c0 s0 rest ih =>
    obtain ⟨hcut, hfirst, hrest⟩ := h
    cases i with
    | zero =>
      cases hsplit
      exact ⟨hcut, hfirst, hrest⟩
    | succ =>
      obtain ⟨⟨l', sr⟩, hsplit', heq⟩ := Option.map_eq_some_iff.mp hsplit
      cases heq
      obtain ⟨hcut', hl, hr⟩ := ih hrest hsplit'
      obtain ⟨hs, x, hx, hlt⟩ := hcut'
      have hle : s0 ≤ s := hs.2
      have hlt' : s0 < s := lt_of_le_of_lt hx.2 hlt
      refine ⟨⟨hs.1, x, hx.1, hlt⟩, ⟨⟨⟨hcut.1, hlt'⟩, ?_⟩, ?_, ?_⟩, ?_⟩
      · obtain ⟨y, hy, hys⟩ := hcut.2
        exact ⟨y, ⟨hy, hys.trans hlt'⟩, hys⟩
      · rwa [inter_assoc, inter_eq_right.mpr (Iio_subset_Iio hle)]
      · rwa [inter_right_comm]
      · rwa [inter_assoc, inter_eq_right.mpr (Ici_subset_Ici.mpr hle)] at hr

end

/-- What the children of a row hold is in order when it is in order in every child. -/
lemma Holds.pairwise {f : α → List β} {key : β → K}
    (hf : ∀ J c, P J c → ((f c).Pairwise fun a b => key a < key b) ∧ ∀ x ∈ f c, key x ∈ J)
    (h : n.Holds P I) : ((n.children.flatMap f).Pairwise fun a b => key a < key b) ∧
      ∀ x ∈ n.children.flatMap f, key x ∈ I := by
  induction n generalizing I with
  | last c =>
    rw [children, flatMap_singleton]
    exact hf I c h
  | cons c s rest ih =>
    obtain ⟨hcut, hfirst, hrest⟩ := h
    obtain ⟨hsorted, hmem⟩ := hf _ c hfirst
    obtain ⟨hsorted', hmem'⟩ := ih hrest
    refine ⟨pairwise_append.mpr ⟨hsorted, hsorted', ?_⟩, ?_⟩
    · exact fun a ha b hb => lt_of_lt_of_le (hmem a ha).2 (hmem' b hb).2
    · exact forall_mem_append.mpr ⟨fun x hx => (hmem x hx).1, fun x hx => (hmem' x hx).1⟩

end Order

end Row

end Fence
