import Mathlib

/-!
# Cursors over a sequence of items

A sequence is given by a partial function that takes a position to the item there and the position
behind it. `window` hands a bounded number of items to a callback that may stop it, and reports the
position behind the last one that was handed over, whether the callback took it or not.
-/

namespace Cursor

open List

variable {α σ : Type} (next : ℕ → Option (α × ℕ))

/-- At most `k` items from position `c` on, with their positions. -/
def items : ℕ → ℕ → List (ℕ × α)
  | 0, _ => []
  | k + 1, c =>
    match next c with
    | none => []
    | some (a, c') => (c, a) :: items k c'

/-- The position behind at most `k` items. -/
def after : ℕ → ℕ → ℕ
  | 0, c => c
  | k + 1, c =>
    match next c with
    | none => c
    | some (_, c') => after k c'

/-- Hand at most `k` items to the callback, until it stops: how many it was handed, its state, and
the position behind them. -/
def window (cb : α → σ → σ × Bool) : ℕ → ℕ → σ → ℕ × σ × ℕ
  | 0, c, s => (0, s, c)
  | k + 1, c, s =>
    match next c with
    | none => (0, s, c)
    | some (a, c') =>
      let (s', cont) := cb a s
      if cont then
        let (n, s'', c'') := window cb k c' s'
        (n + 1, s'', c'')
      else (1, s', c')

/-- What a callback makes of a list of items: how many it is handed, and its state. -/
def deliver (cb : α → σ → σ × Bool) : List α → σ → ℕ × σ
  | [], s => (0, s)
  | a :: as, s =>
    let (s', cont) := cb a s
    if cont then
      let (n, s'') := deliver cb as s'
      (n + 1, s'')
    else (1, s')

lemma window_eq (cb : α → σ → σ × Bool) (k c : ℕ) (s : σ) : window next cb k c s =
      ((deliver cb ((items next k c).map Prod.snd) s).1,
        (deliver cb ((items next k c).map Prod.snd) s).2,
        after next (deliver cb ((items next k c).map Prod.snd) s).1 c) := by
  induction k generalizing c s with
  | zero => rfl
  | succ k ih =>
    unfold window items
    cases hn : next c with
    | none => rfl
    | some x =>
      obtain ⟨a, c'⟩ := x
      simp only [map_cons, deliver]
      cases hcb : (cb a s).2 with
      | true => simp only [ih, after, hn, if_true]
      | false => simp [after, hn]

section

variable {next}

lemma items_of_none {c : ℕ} (h : next c = none) (k : ℕ) : items next k c = [] := by
  cases k with
  | zero => rfl
  | succ => simp [items, h]

lemma after_of_none {c : ℕ} (h : next c = none) (k : ℕ) : after next k c = c := by
  cases k with
  | zero => rfl
  | succ => simp [after, h]

section

variable {c c' : ℕ} {a : α} (h : next c = some (a, c')) (k : ℕ)
include h

lemma items_succ :
    items next (k + 1) c = (c, a) :: items next k c' := by
  simp [items, h]

lemma after_succ :
    after next (k + 1) c = after next k c' := by
  simp [after, h]

end

lemma items_add (k j c : ℕ) :
    items next (k + j) c = items next k c ++ items next j (after next k c) := by
  induction k generalizing c with
  | zero => simp [items, after]
  | succ k ih =>
    rw [add_right_comm]
    cases hn : next c with
    | none => simp [items_of_none hn, after_of_none hn]
    | some => simp [items_succ hn, after_succ hn, ih]

lemma after_add (k j c : ℕ) : after next (k + j) c = after next j (after next k c) := by
  induction k generalizing c with
  | zero => simp [after]
  | succ k ih =>
    rw [add_right_comm]
    cases hn : next c with
    | none => simp [after_of_none hn]
    | some => simp [after_succ hn, ih]

lemma length_items_le (k c : ℕ) : (items next k c).length ≤ k := by
  induction k generalizing c with
  | zero => exact le_refl 0
  | succ k ih =>
    unfold items
    cases next c with
    | none => exact Nat.zero_le _
    | some => exact Nat.succ_le_succ (ih _)

lemma take_items {j k : ℕ} (h : j ≤ k) (c : ℕ) : (items next k c).take j = items next j c := by
  induction j generalizing k c with
  | zero => rfl
  | succ j ih =>
    obtain ⟨i, rfl⟩ := Nat.exists_eq_add_of_le' h
    cases hn : next c with
    | none => simp [items_of_none hn]
    | some => simp [← add_assoc, items_succ hn, ih]

/-- Positions grow and stay within `size`. -/
def Advances (next : ℕ → Option (α × ℕ)) (size : ℕ) : Prop :=
  ∀ ⦃c a c'⦄, next c = some (a, c') → c < c' ∧ c' ≤ size

variable {size : ℕ}

section

variable (h : Advances next size)
include h

lemma Advances.le_after (k c : ℕ) : c ≤ after next k c := by
  induction k generalizing c with
  | zero => exact le_refl c
  | succ k ih =>
    unfold after
    cases hn : next c with
    | none => exact le_refl c
    | some x => exact le_trans (le_of_lt (h hn).1) (ih x.2)

lemma Advances.mem_items {k c : ℕ} {x : ℕ × α}
    (hx : x ∈ items next k c) : c ≤ x.1 ∧ x.1 < after next k c := by
  induction k generalizing c with
  | zero => exact absurd hx (by simp [items])
  | succ k ih =>
    unfold items at hx
    unfold after
    cases hn : next c with
    | none =>
      rw [hn] at hx
      exact absurd hx (by simp)
    | some y =>
      rw [hn] at hx
      have hlt := (h hn).1
      rcases mem_cons.mp hx with rfl | hx
      · exact ⟨le_rfl, lt_of_lt_of_le hlt (h.le_after k y.2)⟩
      · exact ⟨le_trans (le_of_lt hlt) (ih hx).1, (ih hx).2⟩

/-- The sequence has no more than `size` items. -/
lemma Advances.items_eq {k c : ℕ} (hk : size ≤ c + k) (j : ℕ) :
    items next (k + j) c = items next k c := by
  induction k generalizing c with
  | zero =>
    cases j with
    | zero => rfl
    | succ =>
      have hnone : next c = none := by
        cases hn : next c with
        | none => rfl
        | some =>
          have hx := h hn
          omega
      simp [items, hnone]
  | succ k ih =>
    rw [add_right_comm]
    unfold items
    cases hn : next c with
    | none => rfl
    | some x =>
      have hx := h hn
      simp [ih (c := x.2) (by omega)]

/-- The items that lie before the position behind the first `n` are these. -/
lemma Advances.filter_items (n : ℕ) :
    (items next size 0).filter (fun x => x.1 < after next n 0) = items next n 0 := by
  rcases le_total n size with hle | hle
  · obtain ⟨j, rfl⟩ := Nat.exists_eq_add_of_le hle
    rw [items_add, filter_append, filter_eq_self.mpr, filter_eq_nil_iff.mpr,
      append_nil]
    · intro x hx
      simpa using (h.mem_items hx).1
    · intro x hx
      simpa using (h.mem_items hx).2
  · obtain ⟨j, rfl⟩ := Nat.exists_eq_add_of_le hle
    have hall : items next (size + j) 0 = items next size 0 := h.items_eq (by omega) j
    rw [hall, filter_eq_self]
    intro x hx
    rw [← hall] at hx
    simpa using (h.mem_items hx).2

/-- What stands at a position that is reached from the start is an item of the sequence. -/
lemma Advances.mem_items_of_next {k c' : ℕ} {a : α}
    (hn : next (after next k 0) = some (a, c')) : (after next k 0, a) ∈ items next size 0 := by
  have hmem : (after next k 0, a) ∈ items next (k + 1) 0 := by
    rw [items_add, items_succ hn]
    simp
  rcases le_total (k + 1) size with hle | hle
  · rw [← take_items hle] at hmem
    exact mem_of_mem_take hmem
  · obtain ⟨j, hj⟩ := Nat.exists_eq_add_of_le hle
    rwa [hj, h.items_eq (by omega) j] at hmem

end

end

/-- A window of one item. -/
lemma window_one (cb : α → σ → σ × Bool) (c : ℕ) (s : σ) :
    window next cb 1 c s =
      match next c with
      | none => (0, s, c)
      | some (a, c') => (1, (cb a s).1, c') := by
  unfold window
  cases next c with
  | none => rfl
  | some x => cases hcb : (cb x.1 s).2 <;> simp [hcb, window]

end Cursor
