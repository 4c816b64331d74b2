import Qihse.Packed.Digits

/-!
# Numbers of the protocol

`qihse_resp_parse_i64_bytes`: an optional sign and decimal digits. Eight digits are read as one
word, fewer in a loop, more in a loop that watches for overflow. All three read the same numbers.
-/

namespace Qihse.Resp

open Bytes Packed List UInt64

def isDigit (c : UInt8) : Bool := !(c < 0x30 || 0x39 < c)

/-- The loop for at most seven digits. -/
def shortDigits : ℕ → List UInt8 → Option ℕ
  | val, [] => some val
  | val, c :: cs =>
    if c < 0x30 || 0x39 < c then none else shortDigits (val * 10 + (c.toNat - 0x30)) cs

/-- The loop for nine digits and more. -/
def longDigits (limit : ℕ) : ℕ → List UInt8 → Option ℕ
  | value, [] => some value
  | value, c :: cs =>
    if c < 0x30 || 0x39 < c then none
    else if (limit - (c.toNat - 0x30)) / 10 < value then none
    else longDigits limit (value * 10 + (c.toNat - 0x30)) cs

/-- A multiplication of lanes by a factor and one in turn, with the sums of neighbours; the digits
are small enough for the lanes. -/
def pairSums (factor : ℕ) : List ℕ → List ℕ
  | a :: b :: rest => (a * factor + b) :: pairSums factor rest
  | _ => []

/-- Eight digits as one word: all of them are checked at once, then pairs are joined. -/
def eightDigits (digits : List UInt8) : Option ℕ :=
  let raw := ofNat (ofLe digits)
  let sub := raw - 0x3030303030303030
  let add := raw + 0x4646464646464646
  if (sub ||| add) &&& 0x8080808080808080 ≠ 0 then none
  else
    match pairSums 100 (pairSums 10 ((le 8 sub.toNat).map UInt8.toNat)) with
    | lo :: hi :: _ => some (lo * 10000 + hi)
    | _ => none

/-- The sign and the digits after it. -/
def splitSign : List UInt8 → Bool × List UInt8
  | [] => (false, [])
  | c :: cs => if c = 0x2d then (true, cs) else if c = 0x2b then (false, cs) else (false, c :: cs)

/-- The largest absolute value. -/
def limitOf (negative : Bool) : ℕ := if negative then 2 ^ 63 else 2 ^ 63 - 1

def signed (negative : Bool) (value : ℕ) : ℤ := if negative then -(value : ℤ) else value

/-- `qihse_resp_parse_i64_bytes`. -/
def parseI64Bytes (data : List UInt8) : Option ℤ :=
  let (negative, digits) := splitSign data
  if digits = [] then none
  else if digits.length = 8 then (eightDigits digits).map (signed negative)
  else if digits.length ≤ 8 then (shortDigits 0 digits).map (signed negative)
  else (longDigits (limitOf negative) 0 digits).map (signed negative)

/-! ### The value of digits -/

def decimal (acc : ℕ) (digits : List UInt8) : ℕ :=
  digits.foldl (fun v c => v * 10 + (c.toNat - 0x30)) acc

lemma isDigit_iff {c : UInt8} : isDigit c = true ↔ 0x30 ≤ c.toNat ∧ c.toNat ≤ 0x39 := by
  simp only [isDigit, Bool.not_eq_true', Bool.or_eq_false_iff, decide_eq_false_iff_not,
    UInt8.lt_iff_toNat_lt, not_lt]
  rfl

lemma le_decimal (acc : ℕ) (digits : List UInt8) : acc ≤ decimal acc digits := by
  induction digits generalizing acc with
  | nil => exact le_rfl
  | cons c cs ih =>
    have hstep := ih (acc * 10 + (c.toNat - 0x30))
    rw [decimal, foldl_cons]
    rw [decimal] at hstep
    omega

variable {digits : List UInt8}

lemma decimal_lt {acc : ℕ} (hdigits : digits.all isDigit = true) :
    decimal acc digits < (acc + 1) * 10 ^ digits.length := by
  induction digits generalizing acc with
  | nil => simp [decimal]
  | cons c cs ih =>
    rw [all_cons, Bool.and_eq_true] at hdigits
    have hc := isDigit_iff.mp hdigits.1
    rw [decimal, foldl_cons, length_cons, pow_succ]
    calc decimal (acc * 10 + (c.toNat - 0x30)) cs
      _ < (acc * 10 + (c.toNat - 0x30) + 1) * 10 ^ cs.length := ih hdigits.2
      _ ≤ ((acc + 1) * 10) * 10 ^ cs.length := Nat.mul_le_mul_right _ (by omega)
      _ = (acc + 1) * (10 ^ cs.length * 10) := by rw [mul_assoc, mul_comm 10]

lemma out_of_range_eq (c : UInt8) : (c < 0x30 || 0x39 < c) = !isDigit c :=
  (Bool.not_not _).symm

lemma shortDigits_eq (acc : ℕ) (digits : List UInt8) : shortDigits acc digits =
      if digits.all isDigit = true then some (decimal acc digits) else none := by
  induction digits generalizing acc with
  | nil => rfl
  | cons c cs ih =>
    cases hc : isDigit c with
    | false => simp [shortDigits, out_of_range_eq, hc]
    | true =>
      rw [shortDigits, if_neg (by simp [out_of_range_eq, hc]), ih, all_cons, hc, Bool.true_and]
      rfl

lemma longDigits_eq {limit acc : ℕ} (hlimit : 9 ≤ limit) (hacc : acc ≤ limit)
    (digits : List UInt8) : longDigits limit acc digits =
      if digits.all isDigit = true ∧ decimal acc digits ≤ limit then some (decimal acc digits)
      else none := by
  induction digits generalizing acc with
  | nil => simp [longDigits, decimal, hacc]
  | cons c cs ih =>
    cases hc : isDigit c with
    | false => simp [longDigits, out_of_range_eq, hc]
    | true =>
      have hdigit := isDigit_iff.mp hc
      have hcons : decimal acc (c :: cs) = decimal (acc * 10 + (c.toNat - 0x30)) cs := rfl
      rw [longDigits, if_neg (by simp [out_of_range_eq, hc]), all_cons, hc, Bool.true_and, hcons]
      obtain hover | hfits := lt_or_ge limit (acc * 10 + (c.toNat - 0x30))
      · have hle := le_decimal (acc * 10 + (c.toNat - 0x30)) cs
        rw [if_pos (by omega), if_neg (by omega)]
      · rw [if_neg (by omega), ih hfits]

/-! ### Eight digits at once -/

lemma ofLe_eq_repeated_add (hdigits : digits.all isDigit = true) :
    ofLe digits = repeated 0x30 digits.length + ofLe (digits.map (· - 0x30)) := by
  induction digits with
  | nil => rfl
  | cons c cs ih =>
    rw [all_cons, Bool.and_eq_true] at hdigits
    have hc := isDigit_iff.mp hdigits.1
    have hsub : (c - 0x30).toNat = c.toNat - 0x30 :=
      UInt8.toNat_sub_of_le c 0x30 (UInt8.le_iff_toNat_le.mpr hc.1)
    rw [ofLe, ih hdigits.2, length_cons, repeated, map_cons, ofLe, hsub]
    omega

section

variable (hlen : digits.length = 8)
include hlen

/-- The check of the whole word is that of each digit. -/
lemma eightDigits_check : (ofNat (ofLe digits) - 0x3030303030303030 |||
      UInt64.ofNat (ofLe digits) + 0x4646464646464646) &&& 0x8080808080808080 = 0 ↔
      digits.all isDigit = true := by
  have hlt := ofLe_lt digits
  rw [hlen] at hlt
  have hraw : (ofNat (ofLe digits)).toNat = ofLe digits :=
    toNat_ofNat_of_lt' hlt
  have hword : ((ofNat (ofLe digits) - 0x3030303030303030 |||
      ofNat (ofLe digits) + 0x4646464646464646) &&& 0x8080808080808080).toNat =
      outside 0x30 0x39 8 (ofLe digits) := by
    rw [UInt64.toNat_and, UInt64.toNat_or, UInt64.toNat_sub, UInt64.toNat_add, hraw, outside,
      add_comm (2 ^ 64 - _)]
    rfl
  have hout := outside_eq_zero_iff (by decide : 0x30 ≤ 0x39) (by decide) digits
  rw [hlen] at hout
  rw [← UInt64.toNat_inj, hword, UInt64.toNat_zero, hout, all_eq_true]
  simp [isDigit_iff]

/-- The joined pairs of eight digits are their value. -/
lemma pairSums_eight (hdigits : digits.all isDigit = true) :
    ∃ lo hi, pairSums 100 (pairSums 10 ((digits.map (· - 0x30)).map UInt8.toNat)) = [lo, hi] ∧
      lo * 10000 + hi = decimal 0 digits := by
  have hsub {c : UInt8} (hc : isDigit c = true) : (c - 0x30).toNat = c.toNat - 0x30 :=
    UInt8.toNat_sub_of_le c 0x30 (UInt8.le_iff_toNat_le.mpr (isDigit_iff.mp hc).1)
  match digits, hlen with
  | [c0, c1, c2, c3, c4, c5, c6, c7], _ =>
    simp only [all_cons, all_nil, Bool.and_true, Bool.and_eq_true] at hdigits
    obtain ⟨h0, h1, h2, h3, h4, h5, h6, h7⟩ := hdigits
    refine ⟨_, _, rfl, ?_⟩
    simp only [decimal, foldl_cons, foldl_nil, hsub h0, hsub h1, hsub h2, hsub h3,
      hsub h4, hsub h5, hsub h6, hsub h7]
    omega

lemma eightDigits_eq : eightDigits digits =
      if digits.all isDigit = true then some (decimal 0 digits) else none := by
  by_cases hdigits : digits.all isDigit = true
  · have hcheck := (eightDigits_check hlen).mpr hdigits
    have hword : le 8 (ofNat (ofLe digits) - 0x3030303030303030).toNat =
        digits.map (· - 0x30) := by
      have hlt := ofLe_lt (digits.map (· - 0x30))
      have hraw := ofLe_eq_repeated_add hdigits
      have hlt' := ofLe_lt digits
      rw [length_map, hlen] at hlt
      rw [hlen] at hraw hlt'
      have hones : repeated 0x30 8 = 0x3030303030303030 := rfl
      have htoNat : (ofNat (ofLe digits) - 0x3030303030303030).toNat =
          ofLe (digits.map (· - 0x30)) := by
        rw [UInt64.toNat_sub, UInt64.toNat_ofNat_of_lt' hlt']
        simp only [UInt64.reduceToNat]
        omega
      have hle := le_ofLe (digits.map (· - 0x30))
      rwa [length_map, hlen, ← htoNat] at hle
    obtain ⟨lo, hi, hpairs, hvalue⟩ := pairSums_eight hlen hdigits
    simp only [eightDigits]
    rw [if_neg (not_not.mpr hcheck), if_pos hdigits, hword, hpairs, ← hvalue]
  · have hcheck := mt (eightDigits_check hlen).mp hdigits
    simp only [eightDigits]
    rw [if_pos hcheck, if_neg hdigits]

end

/-! ### All numbers -/

/-- The number that bytes stand for: an optional sign, at least one digit, and a value that fits. -/
def number (data : List UInt8) : Option ℤ :=
  let (negative, digits) := splitSign data
  if digits ≠ [] ∧ digits.all isDigit = true ∧ decimal 0 digits ≤ limitOf negative then
    some (signed negative (decimal 0 digits))
  else none

theorem parseI64Bytes_eq_number (data : List UInt8) : parseI64Bytes data = number data := by
  rw [parseI64Bytes, number]
  generalize splitSign data = parts
  obtain ⟨negative, digits⟩ := parts
  dsimp only
  have hlimit : 2 ^ 63 - 1 ≤ limitOf negative := by cases negative <;> decide
  by_cases hnil : digits = []
  · simp [hnil]
  have hsmall (hlen : digits.length ≤ 8) :
      (digits ≠ [] ∧ digits.all isDigit = true ∧ decimal 0 digits ≤ limitOf negative) ↔
        digits.all isDigit = true := by
    refine ⟨fun h => h.2.1, fun hdigits => ⟨hnil, hdigits, ?_⟩⟩
    have hlt : decimal 0 digits < (0 + 1) * 10 ^ digits.length := decimal_lt hdigits
    have hpow : 10 ^ digits.length ≤ 10 ^ 8 := Nat.pow_le_pow_right (by decide) hlen
    omega
  rw [if_neg hnil]
  by_cases height : digits.length = 8
  · rw [if_pos height, eightDigits_eq height, if_congr (hsmall height.le) rfl rfl]
    split_ifs <;> rfl
  rw [if_neg height]
  by_cases hshort : digits.length ≤ 8
  · rw [if_pos hshort, shortDigits_eq, if_congr (hsmall hshort) rfl rfl]
    split_ifs <;> rfl
  · rw [if_neg hshort, longDigits_eq (by omega) (Nat.zero_le _)]
    simp only [ne_eq, hnil, not_false_eq_true, true_and]
    split_ifs <;> rfl

/-- A number has no carriage return in it. -/
lemma cr_notMem_of_parseI64Bytes {data : List UInt8} {v : ℤ} (h : parseI64Bytes data = some v) :
    (0x0d : UInt8) ∉ data := by
  rw [parseI64Bytes_eq_number, number] at h
  intro hmem
  have hsplit : (0x0d : UInt8) ∈ (splitSign data).2 := by
    cases data with
    | nil => exact hmem
    | cons =>
      rw [splitSign]
      split_ifs with hminus hplus
      · exact (mem_cons.mp hmem).resolve_left (by rw [hminus]; decide)
      · exact (mem_cons.mp hmem).resolve_left (by rw [hplus]; decide)
      · exact hmem
  generalize splitSign data = parts at h hsplit
  obtain ⟨negative, digits⟩ := parts
  dsimp only at h hsplit
  split_ifs at h with hok
  have hdigit := all_eq_true.mp hok.2.1 _ hsplit
  exact absurd hdigit (by decide)

end Qihse.Resp
