import Mathlib

/-!
# Row transforms

`qihse_table_txn_transform` of `qihse_table_store.c`: in the shadow of a transaction the rows that a
predicate selects are replaced by what a function makes of them. Both are callbacks that belong to a
user, and the labels that decide which rows the user may see are columns of the rows themselves.
-/

namespace Qihse.Tables

open List

/-- `qihse_ts_type_t`. -/
inductive ColType
  | int32 | int64 | float | string | uuid | jsonb | boolean | timestamptz | numeric | tsvector
deriving DecidableEq

/-- `qihse_col_value_t`: null, an INT32, a text, whose pointer may be null, or the bits of another
type. -/
inductive Value
  | null (type : ColType)
  | int32 (i : Int32)
  | text (type : ColType) (str : Option (List UInt8))
  | bits (type : ColType) (v : UInt64)

def Value.type : Value → ColType
  | .null t | .text t _ | .bits t _ => t
  | .int32 _ => .int32

abbrev Row : Type := List Value

/-- `qihse_table_t`; a slot without a row is a tombstone. -/
structure Table where
  cols : List (String × ColType)
  rows : List (Option Row)
  capRows : ℕ
  generation : UInt64

/-- `qihse_table_txn_t`: the name of its table and the copy it works on. -/
structure Txn where
  name : List UInt8
  shadow : Table

/-- A user and what the access checks say of them; the check of an object is for reading and
writing. -/
structure User where
  active : Bool
  tenantId : UInt32
  canAccess : UInt16 → UInt16 → Bool
  canAccessObject : UInt32 → Bool

def tenantSystem : UInt32 := 0

/-- `qihse_table_find_col`. -/
def Table.findCol (t : Table) (name : String) : Option ℕ := t.cols.findIdx? (·.1 = name)

/-- The places of the label columns, which a table has all or none of, and as INT32. -/
def Table.labelCols (t : Table) : Option (Option (ℕ × ℕ × ℕ)) :=
  match t.findCol "__qihse_tenant_id", t.findCol "__qihse_classification",
    t.findCol "__qihse_sci" with
  | some tenant, some cls, some sci =>
    if [tenant, cls, sci].all fun i => t.cols[i]?.any (·.2 = .int32) then
      some (some (tenant, cls, sci))
    else none
  | none, none, none => some none
  | _, _, _ => none

/-- `ts_transform_row_allowed`. -/
def User.rowAllowed (user : User) : Option (ℕ × ℕ × ℕ) → Row → Bool
  | none, _ => user.tenantId = tenantSystem && user.canAccess 0 0
  | some (tenant, cls, sci), row =>
    match row[tenant]?, row[cls]?, row[sci]? with
    | some (.int32 t), some (.int32 c), some (.int32 s) =>
      0 ≤ t && 0 ≤ c && c ≤ 65535 && 0 ≤ s && s ≤ 65535 &&
        (user.tenantId = tenantSystem || user.tenantId = t.toUInt32) &&
        user.canAccess c.toUInt32.toUInt16 s.toUInt32.toUInt16
    | _, _, _ => false

/-- `ts_dup_row`: a text that is missing cannot be copied. -/
def dupRow (row : Row) : Option Row := if row.any (· matches .text _ none) then none else some row

/-- The resource of the object check. -/
def Txn.resource (txn : Txn) : UInt32 :=
  txn.name.foldl (fun h c => (h ^^^ c.toUInt32) * 16777619) 2166136261

/-- The arguments of a call and what its environment answers. What the callbacks answer may depend
on the slot of the row, and so on all that went before. -/
structure Call where
  user : User
  predicate : ℕ → Row → Bool
  transform : ℕ → Row → Option Row
  /-- The checks of single values that are not null: numerics, text search vectors, identifiers and
  floats. -/
  valid : Value → Bool
  /-- Whether there is memory for the candidate rows, and for the row of a slot. -/
  room : Bool
  alloc : ℕ → Bool

/-- `ts_values_match_schema`. -/
def Table.matchSchema (t : Table) (valid : Value → Bool) (values : Row) : Bool :=
  values.map Value.type = t.cols.map Prod.snd && values.all fun v => v matches .null _ || valid v

namespace Call

variable (c : Call) (t : Table) (labels : Option (ℕ × ℕ × ℕ))

/-- The row that `output` puts into slot `i`, unless it is of other types, not for the user, or
cannot be copied. -/
def replacement (i : ℕ) (output : Option Row) : Option Row :=
  output.bind fun out =>
    if t.matchSchema c.valid out && c.user.rowAllowed labels out && c.alloc i
    then dupRow out else none

/-- The loop body for the row of slot `i`: the rows that the callbacks are given, whether the row is
replaced, and what stands in the slot afterwards, or none where the loop gives up. -/
def transformRow (i : ℕ) (old : Row) : List Row × Option (Bool × Row) :=
  if !c.user.rowAllowed labels old then ([], some (false, old))
  else if !c.predicate i old then ([old], some (false, old))
  else ([old, old], (c.replacement t labels i (c.transform i old)).map (true, ·))

/-- The loop over the candidate rows from slot `i` on. -/
def transformRows : ℕ → List (Option Row) → List Row × Option (Bool × List (Option Row))
  | _, [] => ([], some (false, []))
  | i, none :: rest =>
    let (shown, result) := transformRows (i + 1) rest
    (shown, result.map fun r => (r.1, none :: r.2))
  | i, some old :: rest =>
    match c.transformRow t labels i old with
    | (shown, none) => (shown, none)
    | (shown, some (hit, new)) =>
      let (more, result) := transformRows (i + 1) rest
      (shown ++ more, result.map fun r => (hit || r.1, some new :: r.2))

/-- `qihse_table_txn_transform`, with the rows that it gave to the callbacks. -/
def txnTransform (txn : Txn) : ℤ × Txn × List Row :=
  let shadow := txn.shadow
  match shadow.labelCols with
  | none => (-1, txn, [])
  | some labels =>
    if !c.user.active || shadow.generation = -1 ||
        labels.isNone && c.user.tenantId ≠ tenantSystem ||
        !c.user.canAccessObject txn.resource || !c.room ||
        shadow.rows.any (·.any fun row => (dupRow row).isNone) then (-1, txn, [])
    else
      match c.transformRows shadow labels 0 shadow.rows with
      | (shown, none) => (-1, txn, shown)
      | (shown, some (false, _)) => (0, txn, shown)
      | (shown, some (true, rows)) =>
        (1, { txn with shadow := { shadow with
          rows, capRows := rows.length, generation := shadow.generation + 1 } }, shown)

/-- The user may access the row. -/
def Sees (row : Row) : Prop := ∃ labels, t.labelCols = some labels ∧ c.user.rowAllowed labels row

/-- A slot of the table holds `b` afterwards: what it held, or a row of the user that was selected
has made way for one that the function returned, of the types of the columns and again of the user.
-/
def Kept (slot : Option Row × ℕ) (b : Option Row) : Prop :=
  b = slot.1 ∨ ∃ old new, slot.1 = some old ∧ b = some new ∧ c.Sees t old ∧ c.predicate slot.2 old ∧
    c.transform slot.2 old = some new ∧ t.matchSchema c.valid new ∧ c.Sees t new

variable {t labels} (h : t.labelCols = some labels)
include h

lemma eq_of_replacement {i : ℕ} {output : Option Row} {new : Row}
    (hr : c.replacement t labels i output = some new) :
    output = some new ∧ t.matchSchema c.valid new ∧ c.Sees t new := by
  obtain ⟨out, rfl, hdup⟩ := Option.bind_eq_some_iff.mp hr
  split_ifs at hdup with hok
  unfold dupRow at hdup
  split_ifs at hdup
  cases hdup
  simp only [Bool.and_eq_true] at hok
  exact ⟨rfl, hok.1.1, labels, h, hok.1.2⟩

/-- The callbacks are given the row of the slot, if it is one of the user. -/
lemma transformRow_spec (i : ℕ) (old : Row) :
    (∀ row ∈ (c.transformRow t labels i old).1, c.Sees t row) ∧
      ∀ hit new, (c.transformRow t labels i old).2 = some (hit, new) →
        c.Kept t (some old, i) (some new) := by
  unfold transformRow
  split_ifs with hold hhit
  · exact ⟨by simp, by rintro hit new ⟨⟩; exact .inl rfl⟩
  all_goals have hmine : c.Sees t old := ⟨labels, h, by simpa using hold⟩
  · exact ⟨by simpa using hmine, by rintro hit new ⟨⟩; exact .inl rfl⟩
  · refine ⟨by simpa using hmine, fun hit new hr => .inr ?_⟩
    obtain ⟨out, hout, heq⟩ := Option.map_eq_some_iff.mp hr
    cases heq
    exact ⟨old, new, rfl, rfl, hmine, by simpa using hhit, c.eq_of_replacement h hout⟩

lemma transformRows_spec (i : ℕ) (rows : List (Option Row)) :
    (∀ row ∈ (c.transformRows t labels i rows).1, c.Sees t row) ∧
      ∀ hit rows', (c.transformRows t labels i rows).2 = some (hit, rows') →
        Forall₂ (c.Kept t) (rows.zipIdx i) rows' := by
  induction rows generalizing i with
  | nil => exact ⟨by simp [transformRows], by simp [transformRows]⟩
  | cons slot rest ih =>
    obtain ⟨hmine, hrest⟩ := ih (i + 1)
    cases slot with
    | none =>
      refine ⟨hmine, fun hit rows' hr => ?_⟩
      obtain ⟨⟨hit', rest'⟩, hr', heq⟩ := Option.map_eq_some_iff.mp hr
      cases heq
      exact .cons (.inl rfl) (hrest _ _ hr')
    | some old =>
      obtain ⟨hshown, hslot⟩ := c.transformRow_spec h i old
      simp only [transformRows]
      generalize c.transformRow t labels i old = r at hshown hslot
      obtain ⟨shown, _ | ⟨hit, new⟩⟩ := r
      · exact ⟨hshown, nofun⟩
      · refine ⟨forall_mem_append.mpr ⟨hshown, hmine⟩, fun hit' rows' hr => ?_⟩
        obtain ⟨⟨hit'', rest'⟩, hr', heq⟩ := Option.map_eq_some_iff.mp hr
        cases heq
        exact .cons (hslot hit new rfl) (hrest _ _ hr')

omit h in
lemma kept_self (i : ℕ) (rows : List (Option Row)) : Forall₂ (c.Kept t) (rows.zipIdx i) rows := by
  induction rows generalizing i with
  | nil => exact .nil
  | cons _ _ ih => exact .cons (.inl rfl) (ih (i + 1))

end Call

/-- Whatever the callbacks answer, they are given rows of the user only. Every slot stays in its
place with its row, or with one that replaces a selected row of the user, and unless a row was
replaced the transaction is as it was. -/
theorem transform_touches_own (c : Call) (txn : Txn) :
    let (code, txn', shown) := c.txnTransform txn
    (∀ row ∈ shown, c.Sees txn.shadow row) ∧
    Forall₂ (c.Kept txn.shadow) txn.shadow.rows.zipIdx txn'.shadow.rows ∧
    (code = 1 ∨ (code = 0 ∨ code = -1) ∧ txn' = txn) := by
  have hsame := c.kept_self (t := txn.shadow) 0 txn.shadow.rows
  unfold Call.txnTransform
  dsimp only
  split
  · exact ⟨by simp, hsame, .inr ⟨.inr rfl, rfl⟩⟩
  · next labels hlabels =>
    split_ifs
    · exact ⟨by simp, hsame, .inr ⟨.inr rfl, rfl⟩⟩
    · obtain ⟨hmine, hrows⟩ := c.transformRows_spec hlabels 0 txn.shadow.rows
      generalize c.transformRows txn.shadow labels 0 txn.shadow.rows = r at *
      obtain ⟨shown, _ | ⟨_ | _, rows⟩⟩ := r
      · exact ⟨hmine, hsame, .inr ⟨.inr rfl, rfl⟩⟩
      · exact ⟨hmine, hsame, .inr ⟨.inl rfl, rfl⟩⟩
      · exact ⟨hmine, hrows true rows rfl, .inl rfl⟩

end Qihse.Tables
