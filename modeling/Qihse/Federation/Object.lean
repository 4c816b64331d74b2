import Qihse.Bytes.Text

/-!
# Compare-and-swap objects

The objects of `qihse_federation.c` with a generation. The key of an object is made of its namespace
and resource with a colon between them and cut to 255 bytes, and the text that is stored is cut to
4095 bytes; so two objects may share a key and a long value loses its end. Apart from that every
object is a register of its own.
-/

namespace Qihse.Federation

open Bytes List Option

/-- The store below, which is a map of texts. -/
abbrev Kv : Type := Text → Option Text

namespace Kv

/-- `qihse_kv_set_user` with a write that succeeds. -/
def set (kv : Kv) (key value : Text) : Kv := Function.update kv key (some value)

end Kv

/-- The namespace and the resource id of an object. -/
structure ObjectId where
  namespaceName : Text
  resourceId : Text
  deriving DecidableEq

def fedobjKey (id : ObjectId) : Text :=
  fit 256 (ascii "fedobj:" ++ id.namespaceName ++ ascii ":" ++ id.resourceId)

/-- The text of a value with its generation. -/
def objectBlob (generation : ℕ) (value : Text) : Text :=
  fit 4096 (decimal generation ++ ascii "\t" ++ value)

/-- The generation and as much of the value as the buffer of the caller has room for. -/
def objectGet (kv : Kv) (id : ObjectId) (outValueCap : ℕ) : Option (ℕ × Text) :=
  match kv (fedobjKey id) with
  | none => none
  | some blob =>
    match blob.dropWhile (· != 9) with
    | [] => none
    | _ :: value =>
      some (strtoull blob,
        if outValueCap ≤ value.length then value.take (outValueCap - 1) else value)

structure CasResult where
  swapped : Bool
  oldGeneration : ℕ
  newGeneration : ℕ

structure Cas where
  id : ObjectId
  expectedGeneration : UInt64
  newValue : Text

def objectCas (kv : Kv) (c : Cas) : CasResult × Kv :=
  let existing := kv (fedobjKey c.id)
  let current := (existing.map strtoull).getD 0
  if existing.isSome ∧ current ≠ c.expectedGeneration.toNat then (⟨false, current, 0⟩, kv)
  else if existing.isNone ∧ c.expectedGeneration.toNat ≠ 0 then (⟨false, current, 0⟩, kv)
  else
    let generation := (current + 1) % 2 ^ 64
    (⟨true, current, generation⟩, kv.set (fedobjKey c.id) (objectBlob generation c.newValue))

/-! ### The registers -/

structure Swap where
  id : ObjectId
  value : Text

/-- The swaps so far, the last one first. -/
abbrev History : Type := List Swap

namespace History

/-- The number of swaps of an object. -/
def count (h : History) (id : ObjectId) : ℕ := (h.filter fun s => s.id = id).length

/-- The value of the last swap of an object. -/
def last (h : History) (id : ObjectId) : Option Text :=
  (h.find? fun s => s.id = id).map Swap.value

/-- A register swaps when the expected generation is the number of earlier swaps. -/
def step (h : History) (c : Cas) : History :=
  if c.expectedGeneration.toNat = h.count c.id then ⟨c.id, c.newValue⟩ :: h else h

/-- No other object that was swapped has the key of this one. -/
def separate (h : History) (id : ObjectId) : Bool :=
  h.all fun s => s.id = id || fedobjKey s.id != fedobjKey id

/-- The object has its key for itself, and a swap stores the whole value under the next
generation. -/
def meets (h : History) (c : Cas) : Bool :=
  h.separate c.id &&
    (c.expectedGeneration.toNat != h.count c.id ||
      h.count c.id + 1 < 2 ^ 64 &&
        (decimal (h.count c.id + 1) ++ ascii "\t" ++ c.newValue).length < 4096)

end History

open History

/-- The store and the registers side by side. -/
def casBoth (kh : Kv × History) (c : Cas) : Kv × History := ((objectCas kh.1 c).2, kh.2.step c)

def runCas (calls : List Cas) : Kv × History := calls.foldl casBoth (fun _ => none, [])

/-- Every call meets the condition in the history before it. -/
def meetsCas : History → List Cas → Bool
  | _, [] => true
  | h, c :: calls => h.meets c && meetsCas (h.step c) calls

/-! ### The store holds the registers -/

/-- The store has the last value and the number of swaps of every object, and nothing else. -/
structure Mirrors (kv : Kv) (h : History) : Prop where
  stored : ∀ id value, h.last id = some value →
    kv (fedobjKey id) = some (decimal (h.count id) ++ ascii "\t" ++ value)
  absent : ∀ key, (∀ s ∈ h, fedobjKey s.id ≠ key) → kv key = none
  bounded : ∀ id, h.count id < 2 ^ 64

variable {kv : Kv} {h : History} {id : ObjectId} {c : Cas} {value : Text}

lemma History.last_eq_none : h.last id = none ↔ ∀ s ∈ h, s.id ≠ id := by
  simp [last]

lemma History.count_eq_zero : h.count id = 0 ↔ h.last id = none := by
  rw [last_eq_none, count, length_eq_zero_iff, filter_eq_nil_iff]
  simp

lemma head_tab (value : Text) : ∀ b ∈ (ascii "\t" ++ value).head?, isDigit b = false := by
  intro b hb
  cases hb
  rfl

namespace Mirrors

lemma nil : Mirrors (fun _ => none) [] where
  stored _ _ hlast := by cases hlast
  absent _ _ := rfl
  bounded _ := Nat.two_pow_pos 64

section

variable (hm : Mirrors kv h)
include hm

/-- The stored text of an object that has its key for itself. -/
lemma get_eq (hsep : h.separate id = true) : kv (fedobjKey id) =
      (h.last id).map fun value => decimal (h.count id) ++ ascii "\t" ++ value := by
  cases hlast : h.last id with
  | some value => exact hm.stored id value hlast
  | none =>
    refine hm.absent _ fun s hs hkey => ?_
    have := List.all_eq_true.mp hsep s hs
    simp only [Bool.or_eq_true, decide_eq_true_iff, bne_iff_ne, hkey, ne_eq, not_true_eq_false,
      or_false] at this
    exact last_eq_none.mp hlast s hs this

lemma current_eq (hsep : h.separate id = true) :
    ((kv (fedobjKey id)).map strtoull).getD 0 = h.count id := by
  rw [hm.get_eq hsep]
  cases hlast : h.last id with
  | some value =>
    rw [map_some, map_some, getD_some, append_assoc,
      strtoull_decimal (hm.bounded id) _ (head_tab value)]
  | none => exact (count_eq_zero.mpr hlast).symm

lemma cas_eq (hsep : h.separate c.id = true) : objectCas kv c =
      if c.expectedGeneration.toNat = h.count c.id then
        (⟨true, h.count c.id, (h.count c.id + 1) % 2 ^ 64⟩,
          kv.set (fedobjKey c.id) (objectBlob ((h.count c.id + 1) % 2 ^ 64) c.newValue))
      else (⟨false, h.count c.id, 0⟩, kv) := by
  unfold objectCas
  simp only [hm.current_eq hsep]
  cases hlast : h.last c.id with
  | some value =>
    have hsome : kv (fedobjKey c.id) = some _ := hm.stored c.id value hlast
    rw [hsome]
    simp [eq_comm]
  | none =>
    have hnone : kv (fedobjKey c.id) = none := by rw [hm.get_eq hsep, hlast, map_none]
    rw [hnone, count_eq_zero.mpr hlast]
    simp

lemma step (hmeets : h.meets c = true) : Mirrors (objectCas kv c).2 (h.step c) := by
  simp only [meets, Bool.and_eq_true, Bool.or_eq_true, bne_iff_ne, decide_eq_true_iff]
    at hmeets
  obtain ⟨hsep, hroom⟩ := hmeets
  rw [hm.cas_eq hsep]
  unfold History.step
  split_ifs with hswap
  · obtain ⟨hgen, hlen⟩ := hroom.resolve_left (not_not_intro hswap)
    have hblob : objectBlob ((h.count c.id + 1) % 2 ^ 64) c.newValue =
        decimal (h.count c.id + 1) ++ ascii "\t" ++ c.newValue := by
      rw [Nat.mod_eq_of_lt hgen]
      exact fit_eq hlen
    have hcount : ∀ id, count (⟨c.id, c.newValue⟩ :: h) id =
        h.count id + if id = c.id then 1 else 0 := by
      intro id
      unfold History.count
      by_cases hid : id = c.id
      · simp [hid]
      · simp [hid, Ne.symm hid]
    have hlast : ∀ id, last (⟨c.id, c.newValue⟩ :: h) id =
        if id = c.id then some c.newValue else h.last id := by
      intro id
      unfold last
      by_cases hid : id = c.id
      · simp [hid]
      · simp [hid, Ne.symm hid]
    dsimp only
    refine ⟨fun id value hvalue => ?_, fun key hkey => ?_, fun id => ?_⟩
    · rw [hlast] at hvalue
      rw [Kv.set, hblob, hcount]
      split_ifs at hvalue ⊢ with hid
      · cases hid
        cases hvalue
        rw [Function.update_self]
      · -- the other objects have other keys
        have hne : fedobjKey id ≠ fedobjKey c.id := by
          obtain ⟨s, hs, -⟩ := map_eq_some_iff.mp hvalue
          have hsid : s.id = id := by simpa using find?_some hs
          have := List.all_eq_true.mp hsep s (mem_of_find?_eq_some hs)
          rw [hsid] at this
          simpa [hid] using this
        rw [Function.update_of_ne hne, add_zero]
        exact hm.stored id value hvalue
    · rw [Kv.set, Function.update_of_ne]
      · exact hm.absent key fun s hs => hkey s (mem_cons_of_mem _ hs)
      · exact (hkey _ mem_cons_self).symm
    · rw [hcount]
      split_ifs with hid
      · rw [hid]
        exact hgen
      · exact hm.bounded id
  · exact hm

end

end Mirrors

lemma mirrors_run {calls : List Cas} :
    ∀ {kv : Kv} {h : History}, Mirrors kv h → meetsCas h calls = true →
      Mirrors (calls.foldl casBoth (kv, h)).1 (calls.foldl casBoth (kv, h)).2 := by
  induction calls with
  | nil => exact fun hm _ => hm
  | cons c calls ih =>
    intro kv h hm hmeets
    obtain ⟨hc, hrest⟩ := (Bool.and_eq_true _ _).mp hmeets
    exact ih (hm.step hc) hrest

/-- After any calls that meet the condition, an object that has its key for itself is a register: a
swap happens exactly when the expected generation is the number of earlier swaps of the object, and
a read returns the value of the last one with that number. -/
theorem object_is_register (calls : List Cas) (hmeets : meetsCas [] calls = true) (id : ObjectId)
    (hsep : (runCas calls).2.separate id = true) :
    (∀ expected value, (objectCas (runCas calls).1 ⟨id, expected, value⟩).1.swapped = true ↔
        expected.toNat = (runCas calls).2.count id) ∧
      ∀ cap, match (runCas calls).2.last id with
        | none => objectGet (runCas calls).1 id cap = none
        | some value => value.length < cap →
          objectGet (runCas calls).1 id cap = some ((runCas calls).2.count id, value) := by
  have hm : Mirrors (runCas calls).1 (runCas calls).2 := mirrors_run .nil hmeets
  constructor
  · intro expected value
    rw [hm.cas_eq hsep]
    by_cases hswap : expected.toNat = (runCas calls).2.count id <;> simp [hswap]
  · intro cap
    unfold objectGet
    rw [hm.get_eq hsep]
    cases hlast : (runCas calls).2.last id with
    | none => rfl
    | some value =>
      intro hcap
      have hdrop : ∀ n, (decimal n ++ ascii "\t" ++ value).dropWhile (· != 9) = 9 :: value := by
        intro n
        rw [append_assoc, dropWhile_append_of_pos]
        · rfl
        · intro b hb
          rw [bne_iff_ne]
          rintro rfl
          exact absurd (isDigit_of_mem_decimal hb) (by decide)
      simp only [map_some, hdrop, if_neg hcap.not_ge]
      rw [append_assoc, strtoull_decimal (hm.bounded id) _ (head_tab value)]

namespace Sample

/-- The first swap of an object in a namespace with a colon in its name. -/
def colonInNamespace : Cas := ⟨⟨ascii "a:b", ascii "c"⟩, 0, ascii "v"⟩

/-- An object of another namespace has the value and the generation of this one. -/
theorem objects_share_key : (runCas [colonInNamespace]).2.count ⟨ascii "a", ascii "b:c"⟩ = 0 ∧
      objectGet (runCas [colonInNamespace]).1 ⟨ascii "a", ascii "b:c"⟩ 16 =
        some (1, ascii "v") := by
  decide +kernel

/-- Two swaps of an object, and one that comes too late. -/
def threeCalls : List Cas :=
  [⟨⟨ascii "ns", ascii "vm"⟩, 0, ascii "one"⟩, ⟨⟨ascii "ns", ascii "vm"⟩, 1, ascii "two"⟩,
    ⟨⟨ascii "ns", ascii "vm"⟩, 1, ascii "late"⟩]

theorem object_is_register_threeCalls : (meetsCas [] threeCalls = true ∧
        (runCas threeCalls).2.separate ⟨ascii "ns", ascii "vm"⟩ = true) ∧
      objectGet (runCas threeCalls).1 ⟨ascii "ns", ascii "vm"⟩ 16 = some (2, ascii "two") := by
  have hmeets : meetsCas [] threeCalls = true := by decide +kernel
  have hsep : (runCas threeCalls).2.separate ⟨ascii "ns", ascii "vm"⟩ = true := by decide +kernel
  refine ⟨⟨hmeets, hsep⟩, ?_⟩
  have hget := (object_is_register threeCalls hmeets _ hsep).2 16
  have hlast : (runCas threeCalls).2.last ⟨ascii "ns", ascii "vm"⟩ = some (ascii "two") := by
    decide +kernel
  have hcount : (runCas threeCalls).2.count ⟨ascii "ns", ascii "vm"⟩ = 2 := by decide +kernel
  rw [hlast, hcount] at hget
  exact hget (by decide)

end Sample

end Qihse.Federation
