import Mathlib

/-!
# The multi-version store

The version chains of `qihse_mvcc.c`. The hash table only speeds up the search for a row, so the
store is the list of its rows. Transaction ids are natural numbers: every id handed out costs a
node of an arena that is never released, so the 64-bit counter behind them cannot wrap.
-/

namespace Qihse.Mvcc

abbrev Key : Type := List UInt8

abbrev Value : Type := List UInt8

/-- `QIHSE_MVCC_MAX_KEY`. -/
def maxKey : ℕ := 256

/-- `qihse_mvcc_version_t`. An `xmax` of zero is `QIHSE_MVCC_INVALID_XMAX`. -/
structure Version where
  xmin : ℕ
  xmax : ℕ
  value : Value
  isDelete : Bool
  deleteSnapshot : ℕ

/-- `version_create`. -/
def Version.create (txn : ℕ) (value : Value) : Version where
  xmin := txn
  xmax := 0
  value := value
  isDelete := false
  deleteSnapshot := 0

/-- The intent that `qihse_mvcc_delete` puts at the head of a chain. -/
def Version.intent (txn : ℕ) : Version :=
  { Version.create txn [] with isDelete := true, deleteSnapshot := txn }

/-- `qihse_mvcc_row_t`, with the newest version at the head of its chain. -/
structure Row where
  engineId : UInt8
  key : Key
  chain : List Version

def Row.names (r : Row) (e : UInt8) (k : Key) : Bool := r.engineId == e && r.key == k

structure Store where
  rows : List Row

def Store.empty : Store := ⟨[]⟩

/-! ### Writing -/

/-- The three writing calls of the store, without the row they are about. -/
inductive Change
  | insert (value : Value)
  | update (value : Value)
  | delete
deriving DecidableEq

structure Mutation where
  engineId : UInt8
  key : Key
  change : Change
deriving DecidableEq

namespace Store

/-- `row_lookup`. -/
def rowLookup (s : Store) (e : UInt8) (k : Key) : Option Row :=
  s.rows.find? (·.names e k)

def setChain (s : Store) (e : UInt8) (k : Key) (chain : List Version) : Store where
  rows := s.rows.map fun r => if r.names e k then { r with chain := chain } else r

/-- `qihse_mvcc_insert`; `none` is the result −1, which leaves the store alone. -/
def insert (s : Store) (e : UInt8) (k : Key) (value : Value) (txn : ℕ) : Option Store :=
  if maxKey ≤ k.length then none
  else
    match s.rowLookup e k with
    | some r => some (s.setChain e k (Version.create txn value :: r.chain))
    | none => some ⟨⟨e, k, [Version.create txn value]⟩ :: s.rows⟩

/-- Mark the newest data version of a chain as superseded, unless it already is. -/
def supersede (txn : ℕ) : List Version → List Version
  | [] => []
  | v :: below =>
    if v.isDelete then v :: supersede txn below
    else (if v.xmax = 0 then { v with xmax := txn } else v) :: below

/-- `qihse_mvcc_update`. -/
def update (s : Store) (e : UInt8) (k : Key) (value : Value) (txn : ℕ) : Option Store :=
  if maxKey ≤ k.length then none
  else
    match s.rowLookup e k with
    | some r => some (s.setChain e k (Version.create txn value :: supersede txn r.chain))
    | none => s.insert e k value txn

/-- `qihse_mvcc_delete`. -/
def delete (s : Store) (e : UInt8) (k : Key) (txn : ℕ) : Option Store :=
  match s.rowLookup e k with
  | some r =>
    if r.chain = [] then none else some (s.setChain e k (Version.intent txn :: r.chain))
  | none => none

def mutate (s : Store) (txn : ℕ) (m : Mutation) : Option Store :=
  match m.change with
  | .insert value => s.insert m.engineId m.key value txn
  | .update value => s.update m.engineId m.key value txn
  | .delete => s.delete m.engineId m.key txn

end Store

/-! ### Reading -/

/-- `version_visible`. -/
def Version.visible (committed : ℕ → Bool) (snapshot : ℕ) (v : Version) : Bool :=
  if v.xmin > snapshot then false
  else if !committed v.xmin then false
  else if v.xmax = 0 then true
  else if v.xmax > snapshot then true
  else !committed v.xmax

/-- `version_deleted_by_intent`, where `above` are the nodes between the head and `v`. -/
def Version.deletedByIntent (committed : ℕ → Bool) (snapshot : ℕ) (above : List Version)
    (v : Version) : Bool :=
  above.any fun p =>
    p.isDelete && decide (p.xmin ≤ snapshot) && committed p.xmin &&
      v.visible committed p.deleteSnapshot

/-- The walk of `qihse_mvcc_read`, with the nodes passed so far and the number of intents among
them. -/
def readChain (committed : ℕ → Bool) (snapshot : ℕ) :
    List Version → ℕ → List Version → Option Value
  | _, _, [] => none
  | above, intents, v :: below =>
    if v.isDelete then readChain committed snapshot (above ++ [v]) (intents + 1) below
    else if v.visible committed snapshot &&
        (intents == 0 || !v.deletedByIntent committed snapshot above) then some v.value
    else readChain committed snapshot (above ++ [v]) intents below

/-- `qihse_mvcc_read`. -/
def Store.read (s : Store) (e : UInt8) (k : Key) (snapshot : ℕ) (committed : ℕ → Bool) :
    Option Value :=
  match s.rowLookup e k with
  | some r => readChain committed snapshot [] 0 r.chain
  | none => none

/-! ### A store as one chain for each key -/

/-- The version chain of a key, empty where the store has no row for it. -/
def Store.chain (s : Store) (e : UInt8) (k : Key) : List Version :=
  (s.rowLookup e k).elim [] Row.chain

lemma Store.read_eq (s : Store) (e : UInt8) (k : Key) (snapshot : ℕ) (committed : ℕ → Bool) :
    s.read e k snapshot committed = readChain committed snapshot [] 0 (s.chain e k) := by
  unfold read chain
  cases s.rowLookup e k <;> rfl

lemma Row.names_iff {r : Row} {e : UInt8} {k : Key} :
    r.names e k = true ↔ r.engineId = e ∧ r.key = k := by
  simp [names]

section Chains

variable {s s' : Store} {e e' : UInt8} {k k' : Key} {chain : List Version}

lemma Store.chain_cons (r : Row) (rows : List Row) : (Store.mk (r :: rows)).chain e k =
      if r.names e k then r.chain else (Store.mk rows).chain e k := by
  unfold chain rowLookup
  rw [List.find?_cons]
  split <;> simp_all

lemma Store.chain_of_rowLookup {r : Row} (h : s.rowLookup e k = some r) :
    s.chain e k = r.chain := by
  simp [chain, h]

/-- Writing the chain of an existing row changes that chain only. -/
lemma Store.chain_setChain {r : Row} (h : s.rowLookup e k = some r) :
    (s.setChain e k chain).chain e' k' = if e' = e ∧ k' = k then chain else s.chain e' k' := by
  have hfind : (s.setChain e k chain).rowLookup e' k' = (s.rowLookup e' k').map fun r =>
      if r.names e k then { r with chain := chain } else r := by
    unfold rowLookup setChain
    rw [List.find?_map]
    congr 2
    funext q
    by_cases hq : q.names e k = true
    · simp only [Function.comp_apply, hq, if_true]
      rfl
    · simp [hq]
  unfold Store.chain
  rw [hfind]
  by_cases hk : e' = e ∧ k' = k
  · obtain ⟨rfl, rfl⟩ := hk
    have hr : r.names e' k' = true := by simpa using List.find?_some h
    simp [h, hr]
  · rw [if_neg hk]
    cases hq : s.rowLookup e' k' with
    | none => rfl
    | some q =>
      have hn : q.names e' k' = true := by simpa using List.find?_some hq
      obtain ⟨rfl, rfl⟩ := Row.names_iff.mp hn
      have hne : ¬ q.names e k = true := fun hc => by
        obtain ⟨rfl, rfl⟩ := Row.names_iff.mp hc
        exact hk ⟨rfl, rfl⟩
      simp [hne]

/-- What a writing call does to the chain of its row; deleting needs a version to delete. -/
def Change.onChain (txn : ℕ) (chain : List Version) : Change → List Version
  | .insert value => Version.create txn value :: chain
  | .update value => Version.create txn value :: Store.supersede txn chain
  | .delete => if chain = [] then [] else Version.intent txn :: chain

lemma Store.chain_insert {value : Value} {txn : ℕ} (h : s.insert e k value txn = some s') :
    s'.chain e' k' =
      if e' = e ∧ k' = k then Version.create txn value :: s.chain e k else s.chain e' k' := by
  unfold insert at h
  split_ifs at h with hlen
  cases hr : s.rowLookup e k with
  | some =>
    rw [hr, Option.some.injEq] at h
    rw [← h, chain_setChain hr, chain_of_rowLookup hr]
  | none =>
    rw [hr, Option.some.injEq] at h
    rw [← h, chain_cons]
    have hnil : s.chain e k = [] := by simp [chain, hr]
    by_cases hk : e' = e ∧ k' = k
    · obtain ⟨rfl, rfl⟩ := hk
      simp [Row.names, hnil]
    · have hn : ¬ (Row.mk e k [Version.create txn value]).names e' k' = true := fun hc => by
        obtain ⟨he, hk'⟩ := Row.names_iff.mp hc
        exact hk ⟨he.symm, hk'.symm⟩
      rw [if_neg hn, if_neg hk]

/-- A successful writing call changes the chain of its own key, as `Change.onChain` says. -/
lemma Store.chain_mutate {m : Mutation} {txn : ℕ} (h : s.mutate txn m = some s') :
    s'.chain e k = if e = m.engineId ∧ k = m.key then m.change.onChain txn (s.chain e k)
      else s.chain e k := by
  obtain ⟨me, mk, c⟩ := m
  have hsame : ∀ {x y : List Version}, (e = me ∧ k = mk → x = y) →
      (if e = me ∧ k = mk then x else s.chain e k) =
        if e = me ∧ k = mk then y else s.chain e k := by
    intro x y hxy
    split_ifs with hk
    · exact hxy hk
    · rfl
  cases c with
  | insert =>
    rw [chain_insert h]
    exact hsame fun ⟨he, hk⟩ => by rw [he, hk]; rfl
  | update value =>
    change s.update me mk value txn = some s' at h
    unfold update at h
    split_ifs at h with hlen
    cases hr : s.rowLookup me mk with
    | some =>
      rw [hr, Option.some.injEq] at h
      rw [← h, chain_setChain hr]
      refine hsame fun ⟨he, hk⟩ => ?_
      rw [he, hk, chain_of_rowLookup hr]
      rfl
    | none =>
      rw [hr] at h
      rw [chain_insert h]
      refine hsame fun ⟨he, hk⟩ => ?_
      have hnil : s.chain me mk = [] := by simp [chain, hr]
      rw [he, hk, hnil]
      rfl
  | delete =>
    change s.delete me mk txn = some s' at h
    unfold delete at h
    cases hr : s.rowLookup me mk with
    | none => simp [hr] at h
    | some =>
      simp only [hr] at h
      split_ifs at h with hnil
      rw [Option.some.injEq] at h
      rw [← h, chain_setChain hr]
      refine hsame fun ⟨he, hk⟩ => ?_
      rw [he, hk, chain_of_rowLookup hr]
      simp [Change.onChain, hnil]

end Chains

end Qihse.Mvcc
