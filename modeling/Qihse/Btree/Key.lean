import Qihse.Btree.Ordered

/-!
# Composite keys

`qihse_btree_serialize_key` writes the columns of a row behind each other, so that `keyCmp` of two
keys should compare the rows column by column. Numbers have a fixed width and keep their order. A
string ends in a zero byte, which its contents may have as well: where one string is the other one
followed by a zero byte, the bytes behind that byte decide instead of the strings.
-/

namespace Qihse.Btree

open Bytes List UInt8

/-- A column of a row. -/
inductive Col
  | int32 (v : Int32)
  | int64 (v : Int64)
  | string (data : List UInt8)
  deriving DecidableEq

/-- The type of a column. -/
inductive ColType
  | int32
  | int64
  | string
  deriving DecidableEq

def Col.type : Col → ColType
  | .int32 _ => .int32
  | .int64 _ => .int64
  | .string _ => .string

def Col.serializedLen : Col → ℕ
  | .int32 _ => 4
  | .int64 _ => 8
  | .string data => data.length + 1

/-- The bytes of a number, the highest one first. -/
def encodeSortable (width u : ℕ) : List UInt8 :=
  (List.range width).map fun i => ofNat (u >>> (8 * (width - 1) - 8 * i))

def encodeInt64Sortable (v : Int64) : List UInt8 :=
  encodeSortable 8 (v.toUInt64 ^^^ ((1 : UInt64) <<< 63)).toNat

def encodeInt32Sortable (v : Int32) : List UInt8 :=
  encodeSortable 4 (v.toUInt32 ^^^ ((1 : UInt32) <<< 31)).toNat

def Col.encode : Col → List UInt8
  | .int32 v => encodeInt32Sortable v
  | .int64 v => encodeInt64Sortable v
  | .string data => data ++ [0]

/-- The bytes of the columns of a row. -/
def rowBytes (row : List Col) : Key := row.flatMap Col.encode

/-- `qihse_btree_serialize_key` with a buffer of the given size, which may be too small. -/
def serializeKey (row : List Col) (bufSize : ℕ) : Option Key :=
  if bufSize < (row.map Col.serializedLen).sum then none else some (rowBytes row)

/-! ### The order of rows -/

/-- Numbers by value and strings byte by byte; columns of two types are not compared. -/
def colCmp : Col → Col → Ordering
  | .int32 a, .int32 b => order a.toInt b.toInt
  | .int64 a, .int64 b => order a.toInt b.toInt
  | .string a, .string b => order a b
  | _, _ => .eq

/-- Rows column by column. -/
def rowCmp : List Col → List Col → Ordering
  | a :: row, b :: row' => (colCmp a b).then (rowCmp row row')
  | _, _ => .eq

/-! ### Numbers -/

lemma encodeSortable_succ (width u : ℕ) :
    encodeSortable (width + 1) u = encodeSortable width (u / 256) ++ [ofNat u] := by
  unfold encodeSortable
  rw [range_succ, map_append, map_singleton]
  congr 1
  · refine map_congr_left fun i hi => ?_
    have hi := List.mem_range.mp hi
    have hshift : 8 * (width + 1 - 1) - 8 * i = 8 + (8 * (width - 1) - 8 * i) := by omega
    rw [hshift, Nat.shiftRight_add, Nat.shiftRight_eq_div_pow u 8]
  · simp

lemma length_encodeSortable (width u : ℕ) : (encodeSortable width u).length = width := by
  simp [encodeSortable]

lemma order_encodeSortable {width n m : ℕ} (hn : n < 256 ^ width) (hm : m < 256 ^ width) :
    order (encodeSortable width n) (encodeSortable width m) = order n m := by
  induction width generalizing n m with
  | zero =>
    obtain rfl : n = m := by omega
    rw [order_self, order_self]
  | succ width ih =>
    rw [encodeSortable_succ, encodeSortable_succ,
      order_append (by rw [length_encodeSortable, length_encodeSortable]),
      ih (by omega) (by omega), order_cons, order_self]
    have hbyte : order (ofNat n) (ofNat m) = order (n % 256) (m % 256) :=
      order_congr (by simp [lt_iff_toNat_lt]) (by simp [lt_iff_toNat_lt])
    rw [hbyte, Ordering.then_eq]
    rcases lt_trichotomy (n / 256) (m / 256) with h | h | h
    · have hlt : n < m := by omega
      rw [order_eq_lt.mpr h, order_eq_lt.mpr hlt]
      rfl
    · rw [order_eq_eq.mpr h]
      exact order_congr (by omega) (by omega)
    · have hgt : m < n := by omega
      rw [order_eq_gt.mpr h, order_eq_gt.mpr hgt]
      rfl

/-- A signed number with its highest bit turned over counts from the smallest one. -/
lemma toNat_xor_signBit {w : ℕ} (x : BitVec (w + 1)) :
    ((x.toNat ^^^ 2 ^ w : ℕ) : ℤ) = x.toInt + (2 ^ w : ℕ) := by
  have hlow : (x.toNat ^^^ 2 ^ w) % 2 ^ w = x.toNat % 2 ^ w := by simp [Nat.xor_mod_two_pow]
  have hhigh : (x.toNat ^^^ 2 ^ w) / 2 ^ w = x.toNat / 2 ^ w ^^^ 1 := by
    rw [Nat.xor_div_two_pow, Nat.div_self (Nat.two_pow_pos w)]
  have hlt := x.isLt
  rw [← Nat.div_add_mod (x.toNat ^^^ 2 ^ w) (2 ^ w), hlow, hhigh, BitVec.toInt_eq_toNat_cond]
  split_ifs with hx
  · have hdiv : x.toNat / 2 ^ w = 0 := Nat.div_eq_of_lt (by omega)
    rw [hdiv, Nat.mod_eq_of_lt (by omega)]
    simp only [Nat.zero_xor]
    omega
  · have hdiv : x.toNat / 2 ^ w = 1 := Nat.div_eq_of_lt_le (by omega) (by omega)
    rw [hdiv, Nat.mod_eq_sub_mod (by omega), Nat.mod_eq_of_lt (by omega)]
    simp only [Nat.xor_self, Nat.mul_zero]
    omega

lemma order_signed_append {w k : ℕ} (hw : 2 ^ (w + 1) = 256 ^ k)
    (x y : BitVec (w + 1)) (u v : Key) :
    order (encodeSortable k (x.toNat ^^^ 2 ^ w) ++ u) (encodeSortable k (y.toNat ^^^ 2 ^ w) ++ v) =
      (order x.toInt y.toInt).then (order u v) := by
  have hbit : 2 ^ w < 2 ^ (w + 1) := Nat.pow_lt_pow_succ (by decide)
  have hx := toNat_xor_signBit x
  have hy := toNat_xor_signBit y
  have hcmp : order (x.toNat ^^^ 2 ^ w) (y.toNat ^^^ 2 ^ w) = order x.toInt y.toInt :=
    order_congr (by omega) (by omega)
  rw [order_append (by rw [length_encodeSortable, length_encodeSortable]),
    order_encodeSortable (hw ▸ Nat.xor_lt_two_pow x.isLt hbit)
      (hw ▸ Nat.xor_lt_two_pow y.isLt hbit), hcmp]

/-! ### Strings -/

/-- Neither string is the other one followed by a zero byte. -/
def Col.Clear : Col → Col → Prop
  | .string s, .string t => ¬s ++ [0] <+: t ∧ ¬t ++ [0] <+: s
  | _, _ => True

lemma then_of_ne_eq {o : Ordering} (h : o ≠ .eq) (o' : Ordering) : o.then o' = o := by
  cases o <;> simp_all

/-- What follows the strings is compared after them, if the zero byte behind one is no byte of the
other or nothing follows it. -/
lemma order_string {s t u v : Key} (h : u = [] ∧ v = [] ∨ Col.Clear (.string s) (.string t)) :
    order (s ++ 0 :: u) (t ++ 0 :: v) = (order s t).then (order u v) := by
  have hlast (l : Key) : [] < l ++ [0] := by cases l <;> exact nil_lt_cons _ _
  induction s generalizing t with
  | nil =>
    cases t with
    | nil => simp [order_cons, order_self]
    | cons b t =>
      have hnil : order [] (b :: t) = .lt := order_eq_lt.mpr (nil_lt_cons b t)
      rw [nil_append, cons_append, order_cons, hnil]
      rcases eq_or_ne b 0 with rfl | hb
      · rcases h with ⟨rfl, rfl⟩ | hclear
        · simp [order_self, order_eq_lt, hlast]
        · exact absurd ⟨t, rfl⟩ hclear.1
      · have hlt : order 0 b = .lt := order_eq_lt.mpr (UInt8.pos_iff_ne_zero.mpr hb)
        simp [hlt]
  | cons a s ih =>
    cases t with
    | nil =>
      have hnil : order (a :: s) [] = .gt := order_eq_gt.mpr (nil_lt_cons a s)
      rw [nil_append, cons_append, order_cons, hnil]
      rcases eq_or_ne a 0 with rfl | ha
      · rcases h with ⟨rfl, rfl⟩ | hclear
        · simp [order_self, order_eq_gt, hlast]
        · exact absurd ⟨s, rfl⟩ hclear.2
      · have hgt : order a 0 = .gt := order_eq_gt.mpr (UInt8.pos_iff_ne_zero.mpr ha)
        simp [hgt]
    | cons b t =>
      rw [cons_append, cons_append, order_cons, order_cons, Ordering.then_assoc]
      rcases eq_or_ne a b with rfl | hab
      · rw [ih (h.imp_right fun hclear => by simpa [Col.Clear] using hclear)]
      · have hne : order a b ≠ .eq := fun h => hab (order_eq_eq.mp h)
        rw [then_of_ne_eq hne, then_of_ne_eq hne]

/-! ### Rows -/

lemma colCmp_eq_eq {a b : Col} (h : a.type = b.type) : colCmp a b = .eq ↔ a = b := by
  cases a <;> cases b <;> simp_all [Col.type, colCmp, order_eq_eq, Int32.toInt_inj, Int64.toInt_inj]

lemma order_encode {a b : Col} {u v : Key} (htype : a.type = b.type)
    (h : u = [] ∧ v = [] ∨ a.Clear b) :
    order (a.encode ++ u) (b.encode ++ v) = (colCmp a b).then (order u v) := by
  cases a with
  | int32 x =>
    cases b with
    | int32 y => exact order_signed_append (by decide) x.toBitVec y.toBitVec u v
    | _ => cases htype
  | int64 x =>
    cases b with
    | int64 y => exact order_signed_append (by decide) x.toBitVec y.toBitVec u v
    | _ => cases htype
  | string s =>
    cases b with
    | string t => simpa [Col.encode, colCmp] using order_string h
    | _ => cases htype

/-- No string but that of the last column is the other one followed by a zero byte, up to the first
columns that differ. -/
def Separate : List Col → List Col → Prop
  | a :: row, b :: row' => (row = [] ∧ row' = [] ∨ a.Clear b) ∧ (a = b → Separate row row')
  | _, _ => True

section

variable {row row' : List Col} (htypes : row.map Col.type = row'.map Col.type)
include htypes

lemma rowCmp_eq_eq :
    rowCmp row row' = .eq ↔ row = row' := by
  induction row generalizing row' with
  | nil =>
    cases row' with
    | nil => simp [rowCmp]
    | cons => cases htypes
  | cons a row ih =>
    cases row' with
    | nil => cases htypes
    | cons =>
      simp only [map_cons, List.cons.injEq] at htypes
      rw [rowCmp, Ordering.then_eq_eq, colCmp_eq_eq htypes.1, ih htypes.2, List.cons.injEq]

lemma order_rowBytes (h : Separate row row') :
    order (rowBytes row) (rowBytes row') = rowCmp row row' := by
  induction row generalizing row' with
  | nil =>
    cases row' with
    | nil => exact order_self []
    | cons => cases htypes
  | cons a row ih =>
    cases row' with
    | nil => cases htypes
    | cons b row' =>
      simp only [map_cons, List.cons.injEq] at htypes
      have hcol := order_encode htypes.1 (h.1.imp_left fun hlast =>
        show rowBytes row = [] ∧ rowBytes row' = [] by simp [hlast, rowBytes])
      rw [rowCmp, rowBytes, rowBytes, flatMap_cons, flatMap_cons, ← rowBytes, ← rowBytes, hcol]
      rcases eq_or_ne a b with hab | hab
      · rw [ih htypes.2 (h.2 hab)]
      · have hne : colCmp a b ≠ .eq := fun h => hab ((colCmp_eq_eq htypes.1).mp h)
        rw [then_of_ne_eq hne, then_of_ne_eq hne]

end

/-- Keys of rows with separate strings compare as the rows do, and equal keys have equal rows. -/
theorem serializeKey_faithful {row row' : List Col} {key key' : Key} {cap cap' : ℕ}
    (htypes : row.map Col.type = row'.map Col.type) (hkey : serializeKey row cap = some key)
    (hkey' : serializeKey row' cap' = some key') (h : Separate row row') :
    keyCmp key key' = rowCmp row row' ∧ (key = key' → row = row') := by
  obtain rfl := Option.some.inj (Option.ite_none_left_eq_some.mp hkey).2
  obtain rfl := Option.some.inj (Option.ite_none_left_eq_some.mp hkey').2
  have hcmp := order_rowBytes htypes h
  rw [keyCmp_eq_order]
  refine ⟨hcmp, fun heq => ?_⟩
  rw [heq, order_self] at hcmp
  exact (rowCmp_eq_eq htypes).mp hcmp.symm

/-- A zero byte inside a string: two rows that have one key. -/
theorem serializeKey_faithful_zero :
    let row : List Col := [.string [97, 0, 98], .string [99]]
    let row' : List Col := [.string [97], .string [98, 0, 99]]
    row.map Col.type = row'.map Col.type ∧ serializeKey row 6 = some [97, 0, 98, 0, 99, 0] ∧
      serializeKey row' 6 = some [97, 0, 98, 0, 99, 0] ∧ row ≠ row' ∧ rowCmp row row' = .gt := by
  decide

theorem serializeKey_faithful_words :
    let row : List Col := [.string [97, 0], .int32 (-1), .string [98]]
    let row' : List Col := [.string [97, 0], .int32 (-1), .string [98, 0]]
    Separate row row' ∧ keyCmp (rowBytes row) (rowBytes row') = .lt := by
  intro row row'
  have htypes : row.map Col.type = row'.map Col.type := rfl
  have h : Separate row row' := by simp [row, row', Separate, Col.Clear]
  have hkey : serializeKey row 9 = some (rowBytes row) := rfl
  have hkey' : serializeKey row' 10 = some (rowBytes row') := rfl
  exact ⟨h, (serializeKey_faithful htypes hkey hkey' h).1⟩

end Qihse.Btree
