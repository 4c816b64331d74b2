import Mathlib

/-!
# Text

C strings as lists of bytes: decimal numbers as `printf` writes them and as `strtoull` and `sscanf`
read them.
-/

namespace Bytes

open List UInt8

abbrev Text : Type := List UInt8

/-- The bytes of an ASCII literal. -/
def ascii (s : String) : Text := s.toList.map fun c => ofNat c.toNat

/-- What `snprintf` leaves of a text in a buffer of `cap` bytes. -/
def fit (cap : ℕ) (s : Text) : Text := s.take (cap - 1)

lemma fit_eq {cap : ℕ} {s : Text} (h : s.length < cap) : fit cap s = s :=
  take_of_length_le (by omega)

/-- The characters of an array before its terminator. -/
def cString (bs : List UInt8) : Text := bs.takeWhile (· ≠ 0)

lemma zero_notMem_cString (bs : List UInt8) : 0 ∉ cString bs := by
  intro h
  simpa using mem_takeWhile_imp h

lemma cString_eq {bs : List UInt8} (h : 0 ∉ bs) : cString bs = bs := by
  rw [cString, takeWhile_eq_self_iff]
  intro b hb
  simpa using ne_of_mem_of_not_mem hb h

/-! ### Decimal numbers -/

def digit (n : ℕ) : UInt8 := ofNat (48 + n)

def isDigit (b : UInt8) : Bool := 48 ≤ b && b ≤ 57

/-- `isspace` in the C locale. -/
def isSpace (b : UInt8) : Bool := b == 32 || 9 ≤ b && b ≤ 13

/-- The last digits of `n`, the last one first. -/
def digitsRev : ℕ → ℕ → Text
  | 0, _ => []
  | fuel + 1, n => digit (n % 10) :: if n < 10 then [] else digitsRev fuel (n / 10)

/-- A number of up to 20 digits, as `%llu` writes it. -/
def decimal (n : ℕ) : Text := (digitsRev 20 n).reverse

/-- The number that digits stand for. -/
def number (s : Text) : ℕ := s.foldl (fun n b => 10 * n + (b.toNat - 48)) 0

lemma toNat_digit {n : ℕ} (h : n < 10) : (digit n).toNat = 48 + n := by
  rw [digit, toNat_ofNat']
  omega

lemma isDigit_digit {n : ℕ} (h : n < 10) : isDigit (digit n) = true := by
  have := toNat_digit h
  simp only [isDigit, Bool.and_eq_true, decide_eq_true_iff, le_iff_toNat_le, this]
  exact ⟨Nat.le_add_right 48 n, by show 48 + n ≤ 57; omega⟩

lemma isDigit_of_mem_decimal {n : ℕ} {b : UInt8} (h : b ∈ decimal n) : isDigit b = true := by
  have hrev : ∀ fuel n, ∀ b ∈ digitsRev fuel n, isDigit b = true := by
    intro fuel
    induction fuel with
    | zero => exact fun n b hb => absurd hb not_mem_nil
    | succ fuel ih =>
      intro n b hb
      rw [digitsRev] at hb
      rcases mem_cons.mp hb with rfl | hb
      · exact isDigit_digit (Nat.mod_lt n (by decide))
      · split_ifs at hb
        · exact absurd hb not_mem_nil
        · exact ih _ b hb
  exact hrev 20 n b (mem_reverse.mp h)

lemma number_decimal {n : ℕ} (h : n < 10 ^ 20) : number (decimal n) = n := by
  have hrev : ∀ fuel n, n < 10 ^ fuel →
      (digitsRev fuel n).foldr (fun b n => 10 * n + (b.toNat - 48)) 0 = n := by
    intro fuel
    induction fuel with
    | zero =>
      intro n hn
      rw [pow_zero] at hn
      exact (Nat.lt_one_iff.mp hn).symm
    | succ fuel ih =>
      intro n hn
      rw [digitsRev, foldr_cons, toNat_digit (Nat.mod_lt n (by decide))]
      split_ifs with hlt
      · simp only [foldr_nil]
        omega
      · rw [ih (n / 10) (by rw [pow_succ] at hn; omega)]
        omega
  rw [number, decimal, foldl_reverse]
  exact hrev 20 n h

lemma decimal_ne_nil (n : ℕ) : decimal n ≠ [] := by
  rw [decimal, Ne, reverse_eq_nil_iff, digitsRev]
  exact cons_ne_nil _ _

lemma length_decimal_le (n : ℕ) : (decimal n).length ≤ 20 := by
  have hrev : ∀ fuel n, (digitsRev fuel n).length ≤ fuel := by
    intro fuel
    induction fuel with
    | zero => exact fun _ => le_rfl
    | succ fuel ih =>
      intro n
      rw [digitsRev, length_cons]
      split_ifs
      · simp
      · exact Nat.succ_le_succ (ih _)
  rw [decimal, length_reverse]
  exact hrev 20 n

/-- `strtoull` in base ten: the blanks and the sign before the digits, and the value modulo 64 bits
of a negative number. -/
def strtoull (s : Text) : ℕ :=
  let read (digits : Text) : ℕ := number (digits.takeWhile isDigit)
  match s.dropWhile isSpace with
  | 45 :: rest => if read rest < 2 ^ 64 then (2 ^ 64 - read rest) % 2 ^ 64 else 2 ^ 64 - 1
  | 43 :: rest => min (read rest) (2 ^ 64 - 1)
  | rest => min (read rest) (2 ^ 64 - 1)

lemma isSpace_of_isDigit {b : UInt8} (h : isDigit b = true) : isSpace b = false := by
  simp only [isDigit, Bool.and_eq_true, decide_eq_true_iff, UInt8.le_iff_toNat_le] at h
  obtain ⟨hlo, hhi⟩ := h
  have h48 : (48 : UInt8).toNat = 48 := rfl
  simp only [isSpace, Bool.or_eq_false_iff, Bool.and_eq_false_iff, beq_eq_false_iff_ne,
    decide_eq_false_iff_not, ne_eq, ← UInt8.toNat_inj, UInt8.le_iff_toNat_le]
  refine ⟨?_, .inr ?_⟩
  · show ¬b.toNat = 32
    omega
  · show ¬b.toNat ≤ 13
    omega

/-- Digits up to a byte that is none. -/
lemma takeWhile_decimal (n : ℕ) (rest : Text) (hrest : ∀ b ∈ rest.head?, isDigit b = false) :
    (decimal n ++ rest).takeWhile isDigit = decimal n := by
  rw [takeWhile_append_of_pos fun b hb => isDigit_of_mem_decimal hb]
  cases rest with
  | nil => exact append_nil _
  | cons b =>
    rw [takeWhile_cons_of_neg, append_nil]
    simp [hrest b rfl]

lemma decimal_eq_cons (n : ℕ) : ∃ d ds, decimal n = d :: ds ∧ isDigit d = true := by
  obtain ⟨d, ds, hd⟩ := exists_cons_of_ne_nil (decimal_ne_nil n)
  exact ⟨d, ds, hd, isDigit_of_mem_decimal (hd ▸ mem_cons_self)⟩

lemma strtoull_decimal {n : ℕ} (h : n < 2 ^ 64) (rest : Text)
    (hrest : ∀ b ∈ rest.head?, isDigit b = false) : strtoull (decimal n ++ rest) = n := by
  have hread : number ((decimal n ++ rest).takeWhile isDigit) = n := by
    rw [takeWhile_decimal n rest hrest, number_decimal (h.trans (by decide))]
  obtain ⟨d, ds, hd, hdigit⟩ := decimal_eq_cons n
  rw [hd, cons_append] at hread ⊢
  unfold strtoull
  rw [dropWhile_cons_of_neg (by simp [isSpace_of_isDigit hdigit])]
  dsimp only
  split
  iterate 2
    next heq =>
      cases (List.cons.inj heq).1
      exact absurd hdigit (by decide)
  · rw [hread]
    omega

/-! ### Scanning -/

/-- The directives of a `sscanf` format; blanks in the format are `space`. -/
inductive Directive
  /-- `%N[^\t]` -/
  | field (width : ℕ)
  /-- `%llu` and `%u`, with the number of bits of the result -/
  | unsigned (bits : ℕ)
  | space

inductive Scanned
  | text (s : Text)
  | number (n : ℕ)

/-- The digits of a number with the sign before them, and what follows. -/
def splitNumber (s : Text) : Option (Text × Text) :=
  let (sign, rest) : Text × Text :=
    match s with
    | 45 :: rest => ([45], rest)
    | 43 :: rest => ([43], rest)
    | rest => ([], rest)
  if (rest.takeWhile isDigit).isEmpty then none
  else some (sign ++ rest.takeWhile isDigit, rest.dropWhile isDigit)

/-- What `sscanf` assigns, up to the first directive that does not match. -/
def scan : List Directive → Text → List Scanned
  | [], _ => []
  | .space :: format, s => scan format (s.dropWhile isSpace)
  | .field width :: format, s =>
    let field := (s.take width).takeWhile (· != 9)
    if field.isEmpty then [] else .text field :: scan format (s.drop field.length)
  | .unsigned bits :: format, s =>
    match splitNumber (s.dropWhile isSpace) with
    | none => []
    | some (number, rest) => .number (strtoull number % 2 ^ bits) :: scan format rest

lemma splitNumber_decimal (n : ℕ) : splitNumber (decimal n) = some (decimal n, []) := by
  have htake : (decimal n).takeWhile isDigit = decimal n := by
    have := takeWhile_decimal n [] (by simp)
    rwa [append_nil] at this
  have hdrop : (decimal n).dropWhile isDigit = [] :=
    dropWhile_eq_nil_iff.mpr fun b hb => isDigit_of_mem_decimal hb
  obtain ⟨d, ds, hd, hdigit⟩ := decimal_eq_cons n
  unfold splitNumber
  rw [hd] at htake hdrop ⊢
  split
  next sign rest heq =>
    split at heq
    · next h =>
      cases (List.cons.inj h).1
      exact absurd hdigit (by decide)
    · next h =>
      cases (List.cons.inj h).1
      exact absurd hdigit (by decide)
    · cases heq
      rw [htake, hdrop]
      rfl

/-- A field and a number with a tab between them. -/
lemma scan_field_number (width : ℕ) {n : ℕ} {field : Text} (hne : field ≠ [])
    (hlen : field.length ≤ width) (htab : 9 ∉ field) (hn : n < 2 ^ 64) :
    scan [.field width, .space, .unsigned 64] (field ++ ascii "\t" ++ decimal n) =
      [.text field, .number n] := by
  have hfield : ((field ++ ascii "\t" ++ decimal n).take width).takeWhile (· != 9) = field := by
    rw [append_assoc, take_append, take_of_length_le hlen,
      takeWhile_append_of_pos]
    · cases width - field.length with
      | zero | succ => exact append_nil _
    · intro b hb
      rw [bne_iff_ne]
      rintro rfl
      exact htab hb
  have hspace : (ascii "\t" ++ decimal n).dropWhile isSpace = decimal n := by
    obtain ⟨d, ds, hd, hdigit⟩ := decimal_eq_cons n
    rw [hd]
    show (d :: ds).dropWhile isSpace = d :: ds
    rw [dropWhile_cons_of_neg (by simp [isSpace_of_isDigit hdigit])]
  have hread : strtoull (decimal n) = n := by
    have := strtoull_decimal hn [] (by simp)
    rwa [append_nil] at this
  have hagain : (decimal n).dropWhile isSpace = decimal n := by
    rw [← hspace, dropWhile_idempotent]
  rw [scan, hfield, if_neg (by simpa using hne), append_assoc, drop_left, scan, hspace,
    scan, hagain, splitNumber_decimal]
  simp only [hread, Nat.mod_eq_of_lt hn, scan]

end Bytes
