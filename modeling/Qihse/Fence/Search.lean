import Mathlib

/-!
# Binary search

The two loops of a binary search over a sorted list: `bisect` for the first position that fails a
test, and `locate` for the position of an element, which stops where it meets it.
-/

namespace Fence

open List

/-- The loop of a binary search in `[lo, hi)` for the first position that fails `p`. -/
def bisect (p : ℕ → Bool) : ℕ → ℕ → ℕ → ℕ
  | 0, lo, _ => lo
  | fuel + 1, lo, hi =>
    if lo < hi then
      if p (lo + (hi - lo) / 2) then bisect p fuel (lo + (hi - lo) / 2 + 1) hi
      else bisect p fuel lo (lo + (hi - lo) / 2)
    else lo

variable {K α β : Type*}

/-- How many elements of a list pass `p`, when those that do come first. -/
def search (p : α → Bool) (l : List α) : ℕ :=
  bisect (fun i => l[i]?.any p) l.length 0 l.length

/-- The loop of a binary search that stops at an element which compares equal: whether it met one,
and the position. -/
def locate (cmp : ℕ → Ordering) : ℕ → ℕ → ℕ → Bool × ℕ
  | 0, lo, _ => (false, lo)
  | fuel + 1, lo, hi =>
    if lo < hi then
      match cmp (lo + (hi - lo) / 2) with
      | .eq => (true, lo + (hi - lo) / 2)
      | .lt => locate cmp fuel (lo + (hi - lo) / 2 + 1) hi
      | .gt => locate cmp fuel lo (lo + (hi - lo) / 2)
    else (false, lo)

lemma locate_eq {cmp : ℕ → Ordering} {c : ℕ} {found : Bool} :
    ∀ {fuel lo hi : ℕ}, hi - lo ≤ fuel → lo ≤ c → c + found.toNat ≤ hi →
      (∀ i, lo ≤ i → i < c → cmp i = .lt) → (found = true → cmp c = .eq) →
      (∀ i, c + found.toNat ≤ i → i < hi → cmp i = .gt) → locate cmp fuel lo hi = (found, c)
  | 0, lo, hi, hfuel, hlo, hhi, _, _, _ => by
    cases found with
    | false =>
      rw [locate, Prod.mk.injEq]
      exact ⟨rfl, by simp at hhi; omega⟩
    | true =>
      simp only [Bool.toNat_true] at hhi
      omega
  | fuel + 1, lo, hi, hfuel, hlo, hhi, hbelow, hat, habove => by
    rw [locate]
    split_ifs with hlt
    · rcases lt_trichotomy (lo + (hi - lo) / 2) c with hmid | hmid | hmid
      · rw [hbelow _ (by omega) hmid]
        exact locate_eq (by omega) hmid hhi (fun i hi' => hbelow i (by omega)) hat habove
      · cases found with
        | true => rw [hmid, hat rfl]
        | false =>
          rw [habove _ (by simp only [Bool.toNat_false]; omega) (by omega)]
          exact locate_eq (by omega) hlo (by simp only [Bool.toNat_false]; omega) hbelow hat
            fun i hi' hi'' => habove i hi' (by omega)
      · have hbit : found.toNat ≤ 1 := Bool.toNat_le found
        rw [habove _ (by omega) (by omega)]
        exact locate_eq (by omega) hlo (by omega) hbelow hat
          fun i hi' hi'' => habove i hi' (by omega)
    · cases found with
      | false =>
        simp only [Bool.toNat_false] at hhi
        rw [Prod.mk.injEq]
        exact ⟨rfl, by omega⟩
      | true =>
        simp only [Bool.toNat_true] at hhi
        omega

/-- The binary search of a list for an element that compares equal. -/
def locateIn (cmp : α → Ordering) (l : List α) : Bool × ℕ :=
  locate (fun i => l[i]?.elim .gt cmp) l.length 0 l.length

lemma locateIn_append {cmp : α → Ordering} {a b : List α} {o : Option α}
    (ha : ∀ x ∈ a, cmp x = .lt) (ho : ∀ x ∈ o, cmp x = .eq) (hb : ∀ x ∈ b, cmp x = .gt) :
    locateIn cmp (a ++ o.toList ++ b) = (o.isSome, a.length) := by
  have hlen : o.toList.length = o.isSome.toNat := by cases o <;> rfl
  apply locate_eq
  · omega
  · omega
  · simp only [length_append]
    omega
  · intro i _ hi
    rw [append_assoc, getElem?_append_left hi, getElem?_eq_getElem hi]
    exact ha _ (getElem_mem hi)
  · intro hsome
    obtain ⟨x, rfl⟩ := Option.isSome_iff_exists.mp hsome
    rw [append_assoc, getElem?_append_right le_rfl, Nat.sub_self]
    exact ho x rfl
  · intro i hge hi
    simp only [length_append] at hi
    rw [getElem?_append_right (by rw [length_append]; omega),
      getElem?_eq_getElem (by rw [length_append]; omega)]
    exact hb _ (getElem_mem _)

lemma bisect_eq_locate (p : ℕ → Bool) (fuel lo hi : ℕ) :
    bisect p fuel lo hi = (locate (fun i => bif p i then .lt else .gt) fuel lo hi).2 := by
  induction fuel generalizing lo hi with
  | zero => rfl
  | succ fuel ih =>
    rw [bisect, locate]
    split_ifs with hlt hp
    · simp only [hp, cond_true, ih]
    · simp only [hp, cond_false, ih]
    · rfl

/-- The first loop is the second one for an element that is nowhere. -/
lemma search_append {p : α → Bool} {l r : List α} (hl : ∀ x ∈ l, p x = true)
    (hr : ∀ x ∈ r, p x = false) : search p (l ++ r) = l.length := by
  have hcmp : (fun i : ℕ => bif (l ++ r)[i]?.any p then Ordering.lt else .gt) =
      fun i => (l ++ r)[i]?.elim .gt fun x => bif p x then .lt else .gt := by
    funext i
    cases (l ++ r)[i]? <;> rfl
  have hfound := @locateIn_append α (fun x => bif p x then .lt else .gt) l r none
    (fun x hx => by simp [hl x hx]) (by simp) fun x hx => by simp [hr x hx]
  rw [search, bisect_eq_locate, hcmp]
  simpa [locateIn] using congrArg Prod.snd hfound

/-- A list in order falls into the elements before `k`, at most one at `k`, and those after it. -/
lemma exists_place [LinearOrder K] {key : α → K} {l : List α}
    (h : l.Pairwise fun x y => key x < key y) (k : K) :
    ∃ a o b, l = a ++ Option.toList o ++ b ∧ (∀ x ∈ a, key x < k) ∧ (∀ x ∈ o, key x = k) ∧
      ∀ x ∈ b, k < key x := by
  induction l with
  | nil => exact ⟨[], none, [], rfl, by simp, by simp, by simp⟩
  | cons x l ih =>
    obtain ⟨hx, hl⟩ := pairwise_cons.mp h
    rcases lt_trichotomy (key x) k with hlt | heq | hgt
    · obtain ⟨a, o, b, rfl, ha, ho, hb⟩ := ih hl
      exact ⟨x :: a, o, b, rfl, forall_mem_cons.mpr ⟨hlt, ha⟩, ho, hb⟩
    · exact ⟨[], some x, l, rfl, by simp, by simpa using heq, fun y hy => heq ▸ hx y hy⟩
    · exact ⟨[], none, x :: l, rfl, by simp, by simp,
        forall_mem_cons.mpr ⟨hgt, fun y hy => hgt.trans (hx y hy)⟩⟩

/-- At the place of `k` another element may stand. -/
lemma pairwise_patch [LinearOrder K] {key : α → K} {a b old : List α} {o : Option α} {k : K}
    (h : (a ++ old ++ b).Pairwise fun x y => key x < key y) (ha : ∀ x ∈ a, key x < k)
    (ho : ∀ x ∈ o, key x = k) (hb : ∀ x ∈ b, k < key x) :
    (a ++ o.toList ++ b).Pairwise fun x y => key x < key y := by
  obtain ⟨hleft, hright, -⟩ := pairwise_append.mp h
  have hat : ∀ x ∈ o.toList, key x = k := fun x hx => ho x (Option.mem_toList.mp hx)
  refine pairwise_append.mpr ⟨pairwise_append.mpr
    ⟨(pairwise_append.mp hleft).1, ?_, ?_⟩, hright, ?_⟩
  · cases o <;> simp
  · intro x hx y hy
    rw [hat y hy]
    exact ha x hx
  · intro x hx y hy
    rcases mem_append.mp hx with hx | hx
    · exact (ha x hx).trans (hb y hy)
    · rw [hat x hx]
      exact hb y hy

/-! ### Updates at a position -/

lemma insertIdx_append_length (a b : List α) (x : α) :
    (a ++ b).insertIdx a.length x = a ++ x :: b := by
  induction a with
  | nil => rfl
  | cons y a ih => exact congrArg (y :: ·) ih

lemma modify_append_length (a b : List α) (x : α) (f : α → α) :
    (a ++ x :: b).modify a.length f = a ++ f x :: b := by
  induction a with
  | nil => rfl
  | cons y a ih => exact congrArg (y :: ·) ih

end Fence
