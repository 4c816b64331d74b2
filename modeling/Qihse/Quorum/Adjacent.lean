import Mathlib

/-!
# Quorums of adjacent weighted lists

Two lists of weighted members that differ by one member. When do the quorums of the one meet those
of the other? Exactly when no set of the shorter list weighs between the two halves: see
`meets_iff_spaced`.
-/

namespace Quorum

variable {ι κ : Type} [DecidableEq κ] (key : ι → κ) (weight : ι → ℕ)

/-- The keys of the members. -/
def keys (xs : List ι) : Finset κ := (xs.map key).toFinset

/-- The weight of all members. -/
def total (xs : List ι) : ℕ := (xs.map weight).sum

/-- The weight of the members whose keys are in `S`. -/
def carried (xs : List ι) (S : Finset κ) : ℕ := total weight (xs.filter (key · ∈ S))

/-- The members of `S` carry more than half of the weight. -/
def Reaches (xs : List ι) (S : Finset κ) : Prop := total weight xs / 2 + 1 ≤ carried key weight xs S

/-- Every quorum of `xs` has a member in common with every quorum of `ys`. -/
def Meets (xs ys : List ι) : Prop :=
  ∀ S ⊆ keys key xs, ∀ T ⊆ keys key ys,
    Reaches key weight xs S → Reaches key weight ys T → (S ∩ T).Nonempty

/-- No set of members weighs more than half of `xs` and less than half of `xs` and `w` together. -/
def Spaced (xs : List ι) (w : ℕ) : Prop :=
  ∀ S ⊆ keys key xs, ¬ (total weight xs < 2 * carried key weight xs S ∧
    2 * carried key weight xs S < total weight xs + w)

variable {key weight} {xs ys : List ι} {S T : Finset κ} {x : ι}

@[simp]
lemma total_cons : total weight (x :: xs) = weight x + total weight xs := by
  simp [total]

lemma total_perm (h : xs.Perm ys) : total weight xs = total weight ys :=
  (h.map weight).sum_eq

lemma carried_perm (h : xs.Perm ys) : carried key weight xs S = carried key weight ys S :=
  total_perm (h.filter _)

lemma carried_cons : carried key weight (x :: xs) S =
      (if key x ∈ S then weight x else 0) + carried key weight xs S := by
  by_cases hx : key x ∈ S <;> simp [carried, hx]

lemma reaches_iff : Reaches key weight xs S ↔ total weight xs < 2 * carried key weight xs S := by
  unfold Reaches
  omega

/-- Sets with nothing in common carry at most everything. -/
lemma carried_add_le (h : Disjoint S T) :
    carried key weight xs S + carried key weight xs T ≤ total weight xs := by
  induction xs with
  | nil => exact le_rfl
  | cons x =>
    have hnot : key x ∈ S → key x ∉ T := fun hS => Finset.disjoint_left.mp h hS
    rw [carried_cons, carried_cons, total_cons]
    split_ifs with hS hT
    · exact absurd hT (hnot hS)
    all_goals omega

/-- A set and the rest of the members carry everything. -/
lemma carried_add_sdiff (h : keys key xs ⊆ T) :
    carried key weight xs S + carried key weight xs (T \ S) = total weight xs := by
  induction xs with
  | nil => rfl
  | cons x xs ih =>
    have hx : key x ∈ T := h (by simp [keys])
    have hxs : keys key xs ⊆ T := fun u hu => h (by
      simp only [keys, List.map_cons, List.toFinset_cons] at hu ⊢
      exact Finset.mem_insert_of_mem hu)
    have hrest := ih hxs
    rw [carried_cons, carried_cons, total_cons]
    by_cases hS : key x ∈ S
    · rw [if_pos hS, if_neg (by simp [hS])]
      omega
    · rw [if_neg hS, if_pos (by simp [hS, hx])]
      omega

/-- A member of weight at most one leaves no room between the halves. -/
lemma spaced_of_le_one {w : ℕ} (h : w ≤ 1) : Spaced key weight xs w := by
  rintro S - ⟨hlow, hhigh⟩
  omega

lemma Meets.symm (h : Meets key weight xs ys) : Meets key weight ys xs := by
  intro S hS T hT hrS hrT
  rw [Finset.inter_comm]
  exact h T hT S hS hrT hrS

/-- Adding one member keeps the quorums of both lists in touch exactly when no set of members falls
between the two halves. -/
theorem meets_iff_spaced (hx : key x ∉ keys key xs) :
    Meets key weight xs (x :: xs) ↔ Spaced key weight xs (weight x) := by
  constructor
  · -- a set between the halves and its complement are both quorums
    rintro hmeets S hS ⟨hlow, hhigh⟩
    have hkeys : keys key xs ⊆ keys key (x :: xs) := by
      simp [keys]
    have hmem : key x ∈ keys key (x :: xs) \ S := by
      rw [Finset.mem_sdiff]
      exact ⟨by simp [keys], fun h => hx (hS h)⟩
    have hrest : carried key weight xs S + carried key weight xs (keys key (x :: xs) \ S) =
        total weight xs := carried_add_sdiff hkeys
    have hquorum : Reaches key weight (x :: xs) (keys key (x :: xs) \ S) := by
      rw [reaches_iff, carried_cons, if_pos hmem, total_cons]
      omega
    obtain ⟨u, hu⟩ := hmeets S hS _ Finset.sdiff_subset (reaches_iff.mpr hlow) hquorum
    simp at hu
  · intro hspaced S hS T hT hquorum hquorum'
    by_contra hnone
    have hdisj : Disjoint S T := Finset.disjoint_iff_inter_eq_empty.mpr
      (Finset.not_nonempty_iff_eq_empty.mp hnone)
    have hle : carried key weight xs S + carried key weight xs T ≤ total weight xs :=
      carried_add_le hdisj
    rw [reaches_iff] at hquorum
    rw [reaches_iff, carried_cons, total_cons] at hquorum'
    refine hspaced S hS ⟨hquorum, ?_⟩
    split_ifs at hquorum' <;> omega

lemma Meets.perm_right {zs : List ι} (h : ys.Perm zs) :
    Meets key weight xs ys ↔ Meets key weight xs zs := by
  simp [Meets, Reaches, keys, List.toFinset_eq_of_perm _ _ (h.map key), total_perm h,
    carried_perm h]

end Quorum
