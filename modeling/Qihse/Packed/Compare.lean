import Mathlib

/-!
# Packed comparisons of bytes

The string comparisons of a vector unit as the manuals give them, for a register that is a list of
bytes. Comparing a needle in order, a place where the needle reaches the end of the register counts
as a match of the whole needle.
-/

namespace Packed

open List

/-- The first index with a property, or the width. -/
def firstIndex (width : ℕ) (p : ℕ → Bool) : ℕ := ((List.range width).find? p).getD width

section firstIndex

variable {width n : ℕ} {p : ℕ → Bool}

lemma firstIndex_eq_of (hn : n < width) (hp : p n = true) (hlt : ∀ m < n, p m = false) :
    firstIndex width p = n := by
  have hfind : (List.range width).find? p = some n := by
    rw [find?_range_eq_some]
    exact ⟨hp, List.mem_range.mpr hn, fun m hm => by simp [hlt m hm]⟩
  rw [firstIndex, hfind, Option.getD_some]

lemma firstIndex_eq_width (h : ∀ m < width, p m = false) : firstIndex width p = width := by
  have hfind : (List.range width).find? p = none := by
    rw [find?_range_eq_none]
    exact fun m hm => by simp [h m hm]
  rw [firstIndex, hfind, Option.getD_none]

/-- Either there is a first index, or the property holds nowhere. -/
lemma firstIndex_cases (width : ℕ) (p : ℕ → Bool) :
    (firstIndex width p < width ∧ p (firstIndex width p) = true ∧
      ∀ m < firstIndex width p, p m = false) ∨
    (firstIndex width p = width ∧ ∀ m < width, p m = false) := by
  cases hfind : (List.range width).find? p with
  | none =>
    have hnone : ∀ m < width, p m = false := by simpa [find?_range_eq_none] using hfind
    exact .inr ⟨firstIndex_eq_width hnone, hnone⟩
  | some n =>
    obtain ⟨hp, hn, hlt⟩ := find?_range_eq_some.mp hfind
    have hlt' : ∀ m < n, p m = false := fun m hm => by simpa using hlt m hm
    have heq : firstIndex width p = n := firstIndex_eq_of (List.mem_range.mp hn) hp hlt'
    rw [heq]
    exact .inl ⟨List.mem_range.mp hn, hp, hlt'⟩

end firstIndex

/-- The needle stands at a place of the register, as far as the register goes. -/
def orderedAt (needle register : List UInt8) (j : ℕ) : Bool :=
  (List.range needle.length).all fun i =>
    decide (register.length ≤ j + i) || register[j + i]? == needle[i]?

/-- The first place where the needle stands in order. -/
def equalOrdered (needle register : List UInt8) : ℕ :=
  firstIndex register.length (orderedAt needle register)

/-- The first byte that is not one of the set. The string in the register ends before its first
zero byte, and what is past its end is in no set. -/
def notEqualAny (set register : List UInt8) : ℕ :=
  firstIndex register.length fun j =>
    !(decide (j < (register.takeWhile (· != 0)).length) && register[j]?.any set.contains)

/-- The negated comparison skips the bytes of the set. -/
lemma notEqualAny_eq {set : List UInt8} (hzero : 0 ∉ set) (register : List UInt8) :
    notEqualAny set register = (register.takeWhile set.contains).length := by
  have hsplit := takeWhile_append_dropWhile (p := set.contains) (l := register)
  have hall : ∀ b ∈ register.takeWhile set.contains, b ∈ set := by
    intro b hb
    simpa using all_eq_true.mp all_takeWhile b hb
  have hnot := head?_dropWhile_not set.contains register
  generalize register.takeWhile set.contains = front at *
  generalize register.dropWhile set.contains = rest at *
  subst hsplit
  have hstring : (front ++ rest).takeWhile (· != 0) = front ++ rest.takeWhile (· != 0) := by
    refine takeWhile_append_of_pos fun b hb => ?_
    rw [bne_iff_ne]
    exact fun h => hzero (h ▸ hall b hb)
  have hskip : ∀ m < front.length, (!(decide (m < ((front ++ rest).takeWhile (· != 0)).length) &&
      (front ++ rest)[m]?.any set.contains)) = false := by
    intro m hm
    have hlt : m < front.length + (rest.takeWhile (· != 0)).length := by omega
    simp [hstring, hlt, getElem?_append_left hm, hm, hall]
  cases rest with
  | nil =>
    refine (firstIndex_eq_width fun m hm => hskip m ?_).trans (by simp)
    simpa using hm
  | cons b rest =>
    refine firstIndex_eq_of (by simp) ?_ hskip
    have hb : b ∉ set := by simpa using hnot
    simp [hb]

end Packed
