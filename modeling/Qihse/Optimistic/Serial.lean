import Mathlib

/-!
# Optimistic execution and serial execution

Transactions run against a database of keys and values. Each one reads every key of its footprint
at some moment of its own and installs its writes when it commits. If no other commit wrote a key
of the footprint between that moment and the commit, the run has the same effect as executing the
transactions one at a time in commit order.
-/

namespace Optimistic

/-- A transaction: the keys it reads, the keys it writes, and the values it writes after what it
has seen, which is no more than the values of the keys it reads. -/
structure Commit (K V : Type*) where
  footprint : Set K
  writes : Set K
  body : (K → V) → K → V
  body_congr : ∀ v v' : K → V, (∀ k ∈ footprint, v k = v' k) → body v = body v'

variable {K V : Type*}

open Classical in
/-- The database after a transaction that has seen `view`. -/
noncomputable def Commit.install (c : Commit K V) (view db : K → V) : K → V :=
  fun k => if k ∈ c.writes then c.body view k else db k

lemma Commit.install_congr (c : Commit K V) {view view' db : K → V}
    (h : ∀ k ∈ c.footprint, view k = view' k) : c.install view db = c.install view' db := by
  unfold install
  rw [c.body_congr view view' h]

/-- A run of the first `n` of a sequence of transactions: `db j` is the database after `j` commits,
and transaction `j` has seen key `k` as it was after `seen j k` commits. -/
structure Execution (K V : Type*) where
  commit : ℕ → Commit K V
  n : ℕ
  db : ℕ → K → V
  seen : ℕ → K → ℕ
  step : ∀ j < n, db (j + 1) = (commit j).install (fun k => db (seen j k) k) (db j)

/-- The serial execution in commit order. -/
noncomputable def serial (commit : ℕ → Commit K V) (db : K → V) : ℕ → K → V
  | 0 => db
  | j + 1 => (commit j).install (serial commit db j) (serial commit db j)

namespace Execution

variable (x : Execution K V)

/-- No commit between the moment a key was seen and the transaction's own commit wrote the key. -/
def Current : Prop :=
  ∀ j < x.n, ∀ k ∈ (x.commit j).footprint, x.seen j k ≤ j ∧
    ∀ i, x.seen j k ≤ i → i < j → k ∉ (x.commit i).writes

variable {x}

/-- A key that no commit writes keeps its value. -/
lemma db_eq_of_unwritten {k : K} {i j : ℕ} (hij : i ≤ j) (hj : j ≤ x.n)
    (h : ∀ l, i ≤ l → l < j → k ∉ (x.commit l).writes) : x.db i k = x.db j k := by
  induction j, hij using Nat.le_induction with
  | base => rfl
  | succ j hij ih =>
    rw [ih (by omega) fun l hl hlj => h l hl (by omega), x.step j (by omega)]
    exact (if_neg (h j hij (by omega))).symm

lemma Current.seen_eq (h : x.Current) {j : ℕ} (hj : j < x.n) {k : K}
    (hk : k ∈ (x.commit j).footprint) : x.db (x.seen j k) k = x.db j k :=
  db_eq_of_unwritten (h j hj k hk).1 hj.le (h j hj k hk).2

/-- A current execution is the serial one, after every commit. -/
lemma Current.eq_serial (h : x.Current) {j : ℕ} (hj : j ≤ x.n) :
    x.db j = serial x.commit (x.db 0) j := by
  induction j with
  | zero => rfl
  | succ j ih =>
    have ih := ih (by omega)
    rw [x.step j (by omega), serial, ← ih]
    exact Commit.install_congr _ fun k hk => h.seen_eq (by omega) hk

end Execution

end Optimistic
