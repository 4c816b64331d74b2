import Mathlib

/-!
# Byte formats

Little-endian and big-endian words, and readers that take a value off the front of a list of bytes.
`Reads r bs a` says that the reader gives back `a` from its encoding `bs` and leaves whatever
follows; the rules take a reader apart along the encoding.
-/

namespace Bytes

open List Option StateT

/-! ### Words -/

/-- The `w` little-endian bytes of `n`. -/
def le : ℕ → ℕ → List UInt8
  | 0, _ => []
  | w + 1, n => UInt8.ofNat n :: le w (n / 256)

/-- The number that little-endian bytes stand for. -/
def ofLe : List UInt8 → ℕ
  | [] => 0
  | b :: bs => b.toNat + 256 * ofLe bs

@[simp]
lemma length_le (w n : ℕ) : (le w n).length = w := by
  induction w generalizing n with
  | zero => rfl
  | succ w ih => simp [le, ih]

lemma ofLe_le {w n : ℕ} (h : n < 256 ^ w) : ofLe (le w n) = n := by
  induction w generalizing n with
  | zero =>
    have : n = 0 := by simpa using h
    rw [this]
    rfl
  | succ w ih =>
    have hdiv : n / 256 < 256 ^ w := by
      omega
    rw [le, ofLe, ih hdiv, UInt8.toNat_ofNat']
    omega

lemma le_ofLe (bs : List UInt8) : le bs.length (ofLe bs) = bs := by
  induction bs with
  | nil => rfl
  | cons b bs ih =>
    have hbyte : UInt8.ofNat (b.toNat + 256 * ofLe bs) = b := by
      apply UInt8.toNat_inj.mp
      have := b.toNat_lt
      rw [UInt8.toNat_ofNat']
      omega
    have hrest : (b.toNat + 256 * ofLe bs) / 256 = ofLe bs := by
      have := b.toNat_lt
      omega
    rw [length_cons, le, ofLe, hbyte, hrest, ih]

lemma ofLe_lt (bs : List UInt8) : ofLe bs < 256 ^ bs.length := by
  induction bs with
  | nil => exact Nat.one_pos
  | cons b =>
    have := b.toNat_lt
    rw [length_cons, pow_succ, ofLe]
    omega

/-- The `w` big-endian bytes of `n`. -/
def be (w n : ℕ) : List UInt8 := (le w n).reverse

@[simp]
lemma length_be (w n : ℕ) : (be w n).length = w := by
  simp [be]

/-! ### Readers -/

abbrev Reader (α : Type) : Type := StateT (List UInt8) Option α

/-- Take `n` bytes. -/
def take (n : ℕ) : Reader (List UInt8) := fun bs =>
  if n ≤ bs.length then some (bs.take n, bs.drop n) else none

/-- Take a word of `w` bytes. -/
def word (w : ℕ) : Reader ℕ := do
  let bs ← take w
  return ofLe bs

/-- Take a big-endian word of `w` bytes. -/
def bigWord (w : ℕ) : Reader ℕ := do
  let bs ← take w
  return ofLe bs.reverse

/-- An array of `n` bytes. -/
abbrev Block (n : ℕ) : Type := { bs : List UInt8 // bs.length = n }

/-- Take an array of `n` bytes. -/
def block (n : ℕ) : Reader (Block n) := fun bs =>
  if h : n ≤ bs.length then some (⟨bs.take n, by simp [h]⟩, bs.drop n) else none

/-- Run a reader `n` times. -/
def many {α : Type} (r : Reader α) : ℕ → Reader (List α)
  | 0 => pure []
  | n + 1 => do
    let a ← r
    let as ← many r n
    return a :: as

/-- Fail unless the condition holds. -/
def check (p : Bool) : Reader Unit := fun bs => if p then some ((), bs) else none

/-- A word that was read stands at the front. -/
lemma eq_append_of_word {w n : ℕ} {bs rest : List UInt8} (h : (word w).run bs = some (n, rest)) :
    bs = le w n ++ rest ∧ n < 256 ^ w := by
  unfold word at h
  rw [run_bind] at h
  obtain ⟨⟨bs', rest'⟩, htake, hpure⟩ := bind_eq_some_iff.mp h
  simp only [take, run] at htake
  split_ifs at htake with hw
  cases htake
  cases hpure
  have hlen : (bs.take w).length = w := by simp [hw]
  have hle := le_ofLe (bs.take w)
  have hlt := ofLe_lt (bs.take w)
  rw [hlen] at hle hlt
  rw [hle, take_append_drop]
  exact ⟨rfl, hlt⟩

/-- The reader gives `a` back from the encoding `bs`, and leaves what follows. -/
def Reads {α : Type} (r : Reader α) (bs : List UInt8) (a : α) : Prop :=
  ∀ rest, r.run (bs ++ rest) = some (a, rest)

section Reads

variable {α β : Type} {r : Reader α} {f : α → Reader β} {bs bs' : List UInt8} {a : α} {b : β}

lemma Reads.bind (hr : Reads r bs a) (hf : Reads (f a) bs' b) : Reads (r >>= f) (bs ++ bs') b := by
  intro rest
  rw [run_bind, append_assoc, hr]
  exact hf rest

lemma reads_pure (a : α) : Reads (pure a) [] a := fun _ => rfl

/-- A last step that reads nothing more. -/
lemma Reads.map (hr : Reads r bs a) (hf : Reads (f a) [] b) : Reads (r >>= f) bs b := by
  have := hr.bind hf
  rwa [append_nil] at this

/-- A function of what was read. -/
lemma Reads.fmap (hr : Reads r bs a) (g : α → β) : Reads (g <$> r) bs (g a) := by
  intro rest
  rw [run_map, hr]
  rfl

lemma reads_take (bs : List UInt8) : Reads (take bs.length) bs bs := by
  intro rest
  simp [take, run]

lemma reads_take_of_length {n : ℕ} (h : bs.length = n) : Reads (take n) bs bs := by
  subst h
  exact reads_take bs

lemma reads_word {w n : ℕ} (h : n < 256 ^ w) : Reads (word w) (le w n) n := by
  have htake : Reads (take w) (le w n) (le w n) := reads_take_of_length (length_le w n)
  have hpure : Reads (pure (ofLe (le w n)) : Reader ℕ) [] n := by
    rw [ofLe_le h]
    exact reads_pure n
  exact htake.map hpure

lemma reads_bigWord {w n : ℕ} (h : n < 256 ^ w) : Reads (bigWord w) (be w n) n := by
  have htake : Reads (take w) (be w n) (be w n) := reads_take_of_length (length_be w n)
  have hpure : Reads (pure (ofLe (be w n).reverse) : Reader ℕ) [] n := by
    rw [be, reverse_reverse, ofLe_le h]
    exact reads_pure n
  exact htake.map hpure

lemma reads_block {n : ℕ} (b : Block n) : Reads (block n) b.val b := by
  intro rest
  have hlen := b.property
  simp [block, run, hlen]

/-- Encodings that stand one after the other. -/
lemma reads_many {encode : α → List UInt8} {as : List α} (h : ∀ a ∈ as, Reads r (encode a) a) :
    Reads (many r as.length) (as.flatMap encode) as := by
  induction as with
  | nil => exact reads_pure []
  | cons a as ih =>
    refine (h a (by simp)).bind ?_
    exact (ih fun b hb => h b (by simp [hb])).map (reads_pure _)

/-- A condition that holds is passed without reading. -/
lemma Reads.check {p : Bool} {g : Reader β} (hp : p = true) (hg : Reads g bs b) :
    Reads (check p >>= fun _ => g) bs b := by
  have hcheck : Reads (Bytes.check p) [] () := by
    intro rest
    simp [Bytes.check, run, hp]
  exact hcheck.bind hg

end Reads

/-! ### What was read -/

section Run

variable {α β : Type} {r : Reader α} {f : α → Reader β} {bs rest : List UInt8} {a : α} {b : β}

lemma run_bind_eq_some : (r >>= f).run bs = some (b, rest) ↔
    ∃ a mid, r.run bs = some (a, mid) ∧ (f a).run mid = some (b, rest) := by
  refine bind_eq_some_iff.trans ⟨?_, ?_⟩
  · rintro ⟨⟨a, mid⟩, ha, hb⟩
    exact ⟨a, mid, ha, hb⟩
  · rintro ⟨a, mid, ha, hb⟩
    exact ⟨(a, mid), ha, hb⟩

lemma run_pure_eq_some {a' : α} :
    (pure a : Reader α).run bs = some (a', rest) ↔ a = a' ∧ bs = rest := by
  constructor
  · intro h
    cases h
    exact ⟨rfl, rfl⟩
  · rintro ⟨rfl, rfl⟩
    rfl

lemma run_fmap_eq_some {g : α → β} : (g <$> r).run bs = some (b, rest) ↔
    ∃ a, r.run bs = some (a, rest) ∧ g a = b := by
  rw [run_map]
  refine map_eq_some_iff.trans ⟨?_, ?_⟩
  · rintro ⟨⟨a, mid⟩, ha, hb⟩
    cases hb
    exact ⟨a, ha, rfl⟩
  · rintro ⟨a, ha, rfl⟩
    exact ⟨(a, rest), ha, rfl⟩

lemma run_check_eq_some {p : Bool} {u : Unit} :
    (check p).run bs = some (u, rest) ↔ p = true ∧ bs = rest := by
  unfold check run
  cases p <;> simp

lemma run_lift_eq_some {o : Option α} :
    (liftM o : Reader α).run bs = some (a, rest) ↔ o = some a ∧ bs = rest := by
  cases o with
  | none => exact ⟨nofun, nofun⟩
  | some a' =>
    refine (run_pure_eq_some (a := a')).trans ?_
    rw [some.injEq]

lemma run_take_eq_some {n : ℕ} {xs : List UInt8} :
    (take n).run bs = some (xs, rest) ↔ bs = xs ++ rest ∧ xs.length = n := by
  constructor
  · intro h
    simp only [take, run] at h
    split_ifs at h with hn
    cases h
    exact ⟨(take_append_drop n bs).symm, by simp [hn]⟩
  · rintro ⟨rfl, hlen⟩
    exact reads_take_of_length hlen rest

lemma run_bigWord_eq_some {w n : ℕ} :
    (bigWord w).run bs = some (n, rest) ↔ bs = be w n ++ rest ∧ n < 256 ^ w := by
  constructor
  · intro h
    obtain ⟨xs, mid, htake, hpure⟩ := run_bind_eq_some.mp h
    obtain ⟨rfl, hlen⟩ := run_take_eq_some.mp htake
    obtain ⟨rfl, rfl⟩ := run_pure_eq_some.mp hpure
    have hle := le_ofLe xs.reverse
    have hlt := ofLe_lt xs.reverse
    rw [length_reverse, hlen] at hle hlt
    rw [be, hle, reverse_reverse]
    exact ⟨rfl, hlt⟩
  · rintro ⟨rfl, hlt⟩
    exact reads_bigWord hlt rest

/-- The reader takes exactly the encoding of what it gives. -/
def Takes (r : Reader α) (encode : α → List UInt8) : Prop :=
  ∀ ⦃bs a rest⦄, r.run bs = some (a, rest) → bs = encode a ++ rest

lemma takes_block (n : ℕ) : Takes (block n) Subtype.val := by
  intro bs b rest h
  simp only [block, run] at h
  split_ifs at h
  cases h
  exact (take_append_drop n bs).symm

/-- Values that were read one after the other. -/
lemma Takes.many {encode : α → List UInt8} (hr : Takes r encode) {n : ℕ} {as : List α}
    (h : (many r n).run bs = some (as, rest)) : bs = as.flatMap encode ++ rest ∧ as.length = n := by
  induction n generalizing bs as with
  | zero =>
    obtain ⟨rfl, rfl⟩ := run_pure_eq_some.mp h
    exact ⟨rfl, rfl⟩
  | succ n ih =>
    obtain ⟨a, mid, ha, h⟩ := run_bind_eq_some.mp h
    obtain ⟨as', mid', has, h⟩ := run_bind_eq_some.mp h
    obtain ⟨rfl, rfl⟩ := run_pure_eq_some.mp h
    obtain ⟨rfl, hlen⟩ := ih has
    rw [hr ha, flatMap_cons, append_assoc, length_cons, hlen]
    exact ⟨rfl, rfl⟩

end Run

/-! ### Torn encodings -/

/-- What follows the bytes that were read makes no difference. -/
def Stable {α : Type} (r : Reader α) : Prop :=
  ∀ bs a rest more, r.run bs = some (a, rest) → r.run (bs ++ more) = some (a, rest ++ more)

section Stable

variable {α β : Type} {r : Reader α} {f : α → Reader β} {bs : List UInt8} {a : α}

lemma Stable.bind (hr : Stable r) (hf : ∀ a, Stable (f a)) : Stable (r >>= f) := by
  intro bs b rest more h
  rw [run_bind] at h ⊢
  obtain ⟨⟨a, rest'⟩, ha, hb⟩ := bind_eq_some_iff.mp h
  rw [hr _ _ _ more ha]
  exact hf a _ _ _ more hb

lemma stable_pure (a : α) : Stable (pure a) := by
  intro bs b rest more h
  cases h
  rfl

lemma stable_take (n : ℕ) : Stable (take n) := by
  intro bs a rest more h
  unfold take run at h ⊢
  dsimp only at h ⊢
  split_ifs at h with hn
  cases h
  rw [if_pos (hn.trans (by simp)), take_append_of_le_length hn,
    drop_append_of_le_length hn]

lemma stable_block (n : ℕ) : Stable (block n) := by
  intro bs a rest more h
  unfold block run at h ⊢
  dsimp only at h ⊢
  split_ifs at h with hn
  cases h
  rw [dif_pos (hn.trans (by simp))]
  simp [take_append_of_le_length hn, drop_append_of_le_length hn]

lemma stable_word (w : ℕ) : Stable (word w) := (stable_take w).bind fun _ => stable_pure _

lemma stable_check (p : Bool) : Stable (check p) := by
  intro bs a rest more h
  unfold check run at h ⊢
  dsimp only at h ⊢
  split_ifs at h with hp
  cases h
  rw [if_pos hp]

/-- An encoding of which the end is missing is not read. -/
lemma Stable.torn (hr : Stable r) (h : Reads r bs a) {n : ℕ} (hn : n < bs.length) :
    r.run (bs.take n) = none := by
  rw [eq_none_iff_forall_ne_some]
  rintro ⟨b, rest⟩ hb
  have hfull := hr _ _ _ (bs.drop n) hb
  have hread := h []
  rw [append_nil] at hread
  rw [take_append_drop, hread, some_inj, Prod.mk.injEq] at hfull
  have hempty := (append_eq_nil_iff.mp hfull.2.symm).2
  rw [drop_eq_nil_iff] at hempty
  omega

end Stable

end Bytes
