import Mathlib

/-!
# Programs that may crash

A program over states `σ` either returns a value or crashes, and leaves a state behind in both
cases. `Prog.Sat` is its total semantics as a pair of postconditions, one for each outcome, with
the rules that take a program apart.
-/

namespace Crash

/-- A program over states `σ`; the result `none` is a crash. -/
def Prog (σ α : Type) : Type := σ → Option α × σ

variable {σ α β : Type}

namespace Prog

instance : Monad (Prog σ) where
  pure a := fun s => (some a, s)
  bind m f := fun s =>
    match m s with
    | (some a, s') => f a s'
    | (none, s') => (none, s')

/-- Run `f` on each element in turn. -/
def forEach (xs : List α) (f : α → Prog σ Unit) : Prog σ Unit :=
  match xs with
  | [] => pure ()
  | x :: xs => do
    f x
    forEach xs f

/-- From state `s` the program returns with `Q` or crashes with `C`. -/
def Sat (m : Prog σ α) (s : σ) (Q : α → σ → Prop) (C : σ → Prop) : Prop :=
  match m s with
  | (some a, s') => Q a s'
  | (none, s') => C s'

variable {m : Prog σ α} {s : σ} {Q Q' : α → σ → Prop} {C C' : σ → Prop}

@[simp]
lemma sat_pure (a : α) : Sat (pure a : Prog σ α) s Q C ↔ Q a s := Iff.rfl

@[simp]
lemma sat_bind (f : α → Prog σ β) {Q : β → σ → Prop} :
    Sat (m >>= f) s Q C ↔ Sat m s (fun a s' => Sat (f a) s' Q C) C := by
  simp only [Sat, bind]
  rcases m s with ⟨_ | a, s'⟩ <;> rfl

@[simp]
lemma sat_ite (p : Prop) [Decidable p] (m1 m2 : Prog σ α) :
    Sat (if p then m1 else m2) s Q C ↔ (p → Sat m1 s Q C) ∧ (¬ p → Sat m2 s Q C) := by
  split_ifs with hp <;> simp [hp]

/-- What `sat_ite` asks for of a branch whose condition is known. -/
lemma on_true {A B : Prop} (h : A) : (true = true → A) ∧ (¬ true = true → B) :=
  ⟨fun _ => h, fun hne => absurd rfl hne⟩

lemma on_false {A B : Prop} (h : B) : (false = true → A) ∧ (¬ false = true → B) :=
  ⟨nofun, fun _ => h⟩

section

variable (hm : Sat m s Q C) (hQ : ∀ a s', Q a s' → Q' a s')
include hm hQ

lemma Sat.mono (hC : ∀ s', C s' → C' s') :
    Sat m s Q' C' := by
  revert hm
  unfold Sat
  rcases m s with ⟨_ | a, s'⟩
  · exact hC s'
  · exact hQ a s'

/-- The rule of consequence for the normal outcome. -/
lemma Sat.imp : Sat m s Q' C :=
  hm.mono hQ fun _ => id

end

/-- What holds of a program that has returned. -/
lemma Sat.returned {a : α} (hm : Sat m s Q C) (ha : (m s).1 = some a) : Q a (m s).2 := by
  revert hm ha
  unfold Sat
  rcases m s with ⟨_ | b, s'⟩
  · exact nofun
  · rintro hQ ⟨⟩
    exact hQ

/-- The invariant rule for loops over a list. -/
lemma Sat.forEach {xs : List α} {f : α → Prog σ Unit} {I : σ → Prop} (hI : I s)
    (hf : ∀ x ∈ xs, ∀ s, I s → Sat (f x) s (fun _ => I) C) :
    Sat (Prog.forEach xs f) s (fun _ => I) C := by
  induction xs generalizing s with
  | nil => exact hI
  | cons x xs ih =>
    simp only [forEach, sat_bind]
    refine (hf x (by simp) s hI).imp fun _ s' hs' => ?_
    exact ih hs' fun y hy => hf y (by simp [hy])

end Prog

end Crash
