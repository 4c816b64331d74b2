import Mathlib

/-!
# Weighted majorities

A list of members with weights, and the sets of members that carry more than half of the total.
-/

namespace Replog

open Classical in
/-- The weight that the members in `S` carry. -/
noncomputable def support {α : Type} (weight : α → ℕ) (xs : List α) (S : Set α) : ℕ :=
  (xs.map fun x => if x ∈ S then weight x else 0).sum

/-- The members in `S` carry more than half of the weight. -/
def Majority {α : Type} (weight : α → ℕ) (xs : List α) (S : Set α) : Prop :=
  (xs.map weight).sum / 2 + 1 ≤ support weight xs S

variable {α : Type} {weight : α → ℕ} {xs : List α} {S S' : Set α}

lemma support_cons (x : α) : support weight (x :: xs) S =
    support weight [x] S + support weight xs S := by
  simp [support]

lemma support_mono (h : ∀ x ∈ xs, x ∈ S → x ∈ S') : support weight xs S ≤ support weight xs S' := by
  refine List.sum_le_sum fun x hx => ?_
  split_ifs with hS hS'
  · exact le_rfl
  · exact absurd (h x hx hS) hS'
  · exact Nat.zero_le _
  · exact le_rfl

/-- What two sets carry together exceeds the total by what both carry. -/
lemma support_add_le :
    support weight xs S + support weight xs S' ≤
      (xs.map weight).sum + support weight xs (S ∩ S') := by
  induction xs with
  | nil => exact le_rfl
  | cons x xs ih =>
    rw [support_cons x, support_cons (S := S') x, support_cons (S := S ∩ S') x, List.map_cons,
      List.sum_cons]
    by_cases hS : x ∈ S <;> by_cases hS' : x ∈ S' <;> simp [support, hS, hS'] at ih ⊢ <;> omega

lemma Majority.mono (h : Majority weight xs S) (hS : ∀ x ∈ xs, x ∈ S → x ∈ S') :
    Majority weight xs S' :=
  le_trans h (support_mono hS)

/-- Two majorities have a member in common. -/
theorem Majority.inter (h : Majority weight xs S) (h' : Majority weight xs S') :
    ∃ x ∈ xs, x ∈ S ∧ x ∈ S' := by
  by_contra hnone
  have hempty : support weight xs (S ∩ S') ≤ support weight xs ∅ :=
    support_mono fun x hx hxS => (hnone ⟨x, hx, hxS⟩).elim
  have hzero : support weight xs ∅ = 0 := by simp [support]
  have hadd : support weight xs S + support weight xs S' ≤
      (xs.map weight).sum + support weight xs (S ∩ S') := support_add_le
  unfold Majority at h h'
  omega

end Replog
