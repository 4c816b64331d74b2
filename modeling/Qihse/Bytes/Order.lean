import Mathlib

/-!
# The order of byte strings

`memcmp` and the lexicographic order of lists of bytes.
-/

namespace Bytes

open List

section Order

variable {α β : Type*} [LinearOrder α] [LinearOrder β]

/-- How two values stand to each other. -/
def order (a b : α) : Ordering := cmp a b

lemma order_eq_lt {a b : α} : order a b = .lt ↔ a < b := cmp_eq_lt_iff a b

lemma order_eq_gt {a b : α} : order a b = .gt ↔ b < a := cmp_eq_gt_iff a b

lemma order_eq_eq {a b : α} : order a b = .eq ↔ a = b := cmp_eq_eq_iff a b

@[simp] lemma order_self (a : α) : order a a = .eq := order_eq_eq.mpr rfl

lemma order_congr {a b : α} {c d : β} (hlt : a < b ↔ c < d) (hgt : b < a ↔ d < c) :
    order a b = order c d := by
  simp [order, cmp, cmpUsing, hlt, hgt]

lemma order_cons (a b : α) (s t : List α) :
    order (a :: s) (b :: t) = (order a b).then (order s t) := by
  rcases lt_trichotomy a b with h | rfl | h
  · rw [order_eq_lt.mpr h]
    exact order_eq_lt.mpr (cons_lt_cons_iff.mpr (.inl h))
  · rw [order_self]
    exact order_congr (by simp) (by simp)
  · rw [order_eq_gt.mpr h]
    exact order_eq_gt.mpr (cons_lt_cons_iff.mpr (.inl h))

/-- Pieces of one length are compared before what follows them. -/
lemma order_append {s t : List α} (h : s.length = t.length) (u v : List α) :
    order (s ++ u) (t ++ v) = (order s t).then (order u v) := by
  induction s generalizing t with
  | nil =>
    rw [length_eq_zero_iff.mp h.symm, order_self]
    rfl
  | cons a s ih =>
    cases t with
    | nil => cases h
    | cons =>
      rw [cons_append, cons_append, order_cons, order_cons, ih (Nat.succ.inj h),
        Ordering.then_assoc]

end Order

/-- Bytes in the order in which `memcmp` compares them. -/
instance instLinearOrderUInt8 : LinearOrder UInt8 where
  le_refl := UInt8.le_refl
  le_trans _ _ _ := UInt8.le_trans
  lt_iff_le_not_ge a b := by
    rw [UInt8.not_le]
    exact ⟨fun h => ⟨UInt8.le_of_lt h, h⟩, fun h => h.2⟩
  le_antisymm _ _ := UInt8.le_antisymm
  le_total := UInt8.le_total
  toDecidableLE := inferInstance
  toDecidableEq := inferInstance
  toDecidableLT := inferInstance

/-- `memcmp` of two byte strings up to the length of the shorter one. -/
def memcmp : List UInt8 → List UInt8 → Ordering
  | a :: as, b :: bs => if a < b then .lt else if b < a then .gt else memcmp as bs
  | _, _ => .eq

lemma memcmp_cons (x y : UInt8) (a b : List UInt8) :
    memcmp (x :: a) (y :: b) = (order x y).then (memcmp a b) := by
  rw [memcmp, order, cmp, cmpUsing]
  split_ifs <;> rfl

lemma memcmp_eq_order {a b : List UInt8} (h : a.length = b.length) : memcmp a b = order a b := by
  induction a generalizing b with
  | nil =>
    rw [length_eq_zero_iff.mp h.symm, order_self]
    rfl
  | cons x a ih =>
    cases b with
    | nil => cases h
    | cons => rw [memcmp_cons, order_cons, ih (Nat.succ.inj h)]

end Bytes
