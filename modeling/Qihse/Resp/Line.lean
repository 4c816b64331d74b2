import Qihse.Packed.Compare

/-!
# Lines of the protocol

`qihse_resp_find_crlf` looks for a carriage return and a line feed in blocks of sixteen bytes and
then byte by byte. `findCrlf_eq_some_iff` says what it finds: a block whose last byte is a carriage
return ends a line there, whether a line feed follows or not.
-/

namespace Qihse.Resp

open List Packed

def cr : UInt8 := 0x0d

def lf : UInt8 := 0x0a

/-- The loop over the bytes that are left after the blocks. -/
def scanPair : List UInt8 → ℕ → Option ℕ
  | a :: b :: rest, i => if a = cr ∧ b = lf then some i else scanPair (b :: rest) (i + 1)
  | _, _ => none

/-- The loop over blocks of sixteen bytes. -/
def findFrom (data : List UInt8) : ℕ → ℕ → Option ℕ
  | 0, _ => none
  | fuel + 1, i =>
    if i + 16 ≤ data.length then
      let idx := equalOrdered [cr, lf] ((data.drop i).take 16)
      if idx < 16 then some (i + idx)
      else if i + 16 < data.length ∧ data[i + 15]? = some cr ∧ data[i + 16]? = some lf then
        some (i + 15)
      else findFrom data fuel (i + 16)
    else scanPair (data.drop i) i

/-- `qihse_resp_find_crlf`: the place of the carriage return. -/
def findCrlf (data : List UInt8) (start : ℕ) : Option ℕ :=
  if data.length < start then none else findFrom data (data.length + 1) start

/-! ### What is found -/

/-- A search from `start` stops here: at a carriage return that is followed by a line feed or is the
last byte of a block. -/
def Stops (data : List UInt8) (start p : ℕ) : Prop :=
  data[p]? = some cr ∧ (data[p + 1]? = some lf ∨ (p - start) % 16 = 15)

/-- The place where a search stops first. -/
structure LineEnd (data : List UInt8) (start p : ℕ) : Prop where
  start_le : start ≤ p
  stops : Stops data start p
  first : ∀ q, start ≤ q → q < p → ¬ Stops data start q

section LineEnd

variable {data : List UInt8} {start i p q fuel : ℕ}

lemma LineEnd.eq (hp : LineEnd data start p) (hq : LineEnd data start q) : p = q := by
  obtain hlt | heq | hgt := lt_trichotomy p q
  · exact absurd hp.stops (hq.first p hp.start_le hlt)
  · exact heq
  · exact absurd hq.stops (hp.first q hq.start_le hgt)

lemma LineEnd.lt_length (hp : LineEnd data start p) : p < data.length := by
  by_contra hge
  have hnone := hp.stops.1
  rw [getElem?_eq_none (by omega)] at hnone
  cases hnone

/-- The first place from `i` on with a property, if there is one. -/
def First (P : ℕ → Prop) (i : ℕ) : Option ℕ → Prop
  | some p => i ≤ p ∧ P p ∧ ∀ q, i ≤ q → q < p → ¬ P q
  | none => ∀ q, i ≤ q → ¬ P q

lemma First.skip {P : ℕ → Prop} {j : ℕ} {r : Option ℕ} (h : First P j r) (hij : i ≤ j)
    (hnot : ∀ q, i ≤ q → q < j → ¬ P q) : First P i r := by
  have hall : ∀ q, i ≤ q → (j ≤ q → ¬ P q) → ¬ P q := fun q hq hfrom =>
    (lt_or_ge q j).elim (hnot q hq) hfrom
  cases r with
  | none => exact fun q hq => hall q hq (h q)
  | some => exact ⟨hij.trans h.1, h.2.1, fun q hq hlt => hall q hq fun hj => h.2.2 q hj hlt⟩

lemma first_scanPair {bs : List UInt8} {i : ℕ} (h : data.drop i = bs) :
    First (fun p => data[p]? = some cr ∧ data[p + 1]? = some lf) i (scanPair bs i) := by
  have hget : ∀ k, data[i + k]? = bs[k]? := fun k => by rw [← h, getElem?_drop]
  match bs with
  | [] | [_] =>
    rintro q hq ⟨-, hlf⟩
    obtain ⟨k, rfl⟩ := Nat.exists_eq_add_of_le hq
    rw [add_assoc, hget] at hlf
    simp at hlf
  | a :: b :: rest =>
    have hhere : data[i]? = some cr ∧ data[i + 1]? = some lf ↔ a = cr ∧ b = lf := by
      rw [hget 1, ← add_zero i, hget 0]
      simp
    rw [scanPair]
    split_ifs with hpair
    · exact ⟨le_rfl, hhere.mpr hpair, fun q hq hlt => absurd hq (not_le.mpr hlt)⟩
    · have hrest : data.drop (i + 1) = b :: rest := by rw [← drop_drop, h, drop_one, tail_cons]
      refine (first_scanPair hrest).skip (Nat.le_succ i) fun q hq hlt => ?_
      obtain rfl : q = i := by omega
      exact mt hhere.mp hpair

/-- The comparison of a block finds the first stop in it. -/
lemma equalOrdered_block (hblock : i + 16 ≤ data.length) (hi : start ≤ i)
    (hmod : (i - start) % 16 = 0) :
    (∃ j < 16, equalOrdered [cr, lf] ((data.drop i).take 16) = j ∧
      Stops data start (i + j) ∧ ∀ k < j, ¬ Stops data start (i + k)) ∨
    (equalOrdered [cr, lf] ((data.drop i).take 16) = 16 ∧
      ∀ k < 16, ¬ Stops data start (i + k)) := by
  have hlen : ((data.drop i).take 16).length = 16 := by
    rw [length_take, length_drop]
    omega
  have hget (k : ℕ) (hk : k < 16) : ((data.drop i).take 16)[k]? = data[i + k]? := by
    rw [getElem?_take_of_lt hk, getElem?_drop]
  have hstops (k : ℕ) (hk : k < 16) :
      orderedAt [cr, lf] ((data.drop i).take 16) k = true ↔ Stops data start (i + k) := by
    have hdist : (i + k - start) % 16 = k := by omega
    have hall : orderedAt [cr, lf] ((data.drop i).take 16) k = true ↔
        data[i + k]? = some cr ∧ (16 ≤ k + 1 ∨ ((data.drop i).take 16)[k + 1]? = some lf) := by
      have hrange : List.range [cr, lf].length = [0, 1] := rfl
      rw [orderedAt, hrange, hlen]
      simp [not_le.mpr hk, hget k hk]
    rw [hall, Stops, hdist]
    obtain hlast | hinner := lt_or_ge 14 k
    · have hk15 : k = 15 := by omega
      simp [hk15]
    · rw [hget (k + 1) (by omega)]
      have hne : ¬ 16 ≤ k + 1 := by omega
      have hne' : ¬ k = 15 := by omega
      simp only [hne, hne', false_or, or_false, add_assoc]
  have hnot (k : ℕ) (hk : k < 16)
      (hfalse : orderedAt [cr, lf] ((data.drop i).take 16) k = false) :
      ¬ Stops data start (i + k) := by
    rw [← hstops k hk, hfalse]
    exact Bool.false_ne_true
  rw [equalOrdered, hlen]
  obtain ⟨hlt, hp, hbefore⟩ | ⟨heq, hnone⟩ :=
    firstIndex_cases 16 (orderedAt [cr, lf] ((data.drop i).take 16))
  · exact .inl ⟨_, hlt, rfl, (hstops _ hlt).mp hp, fun k hk => hnot k (by omega) (hbefore k hk)⟩
  · exact .inr ⟨heq, fun k hk => hnot k hk (hnone k hk)⟩

lemma first_findFrom (hfuel : data.length < i + 16 * fuel) (hi : start ≤ i)
    (hmod : (i - start) % 16 = 0) : First (Stops data start) i (findFrom data fuel i) := by
  have hpast : ∀ {q}, data.length ≤ q → ¬ Stops data start q := fun hq hstop => by
    simp [Stops, getElem?_eq_none hq] at hstop
  induction fuel generalizing i with
  | zero => exact fun q hq => hpast (by omega)
  | succ fuel ih =>
    rw [findFrom]
    by_cases hblock : i + 16 ≤ data.length
    · rw [if_pos hblock]
      dsimp only
      obtain ⟨j, hj, heq, hstop, hfirst⟩ | ⟨heq, hnone⟩ := equalOrdered_block hblock hi hmod
      · rw [heq, if_pos hj]
        refine ⟨Nat.le_add_right i j, hstop, fun q hq hlt => ?_⟩
        obtain ⟨k, rfl⟩ := Nat.exists_eq_add_of_le hq
        exact hfirst k (by omega)
      · rw [heq, if_neg (lt_irrefl 16)]
        -- the extra test never fires: a carriage return at the end of the block was found before
        have hlast : ¬ (i + 16 < data.length ∧ data[i + 15]? = some cr ∧
            data[i + 16]? = some lf) := by
          rintro ⟨-, hcr, hlf⟩
          exact hnone 15 (by decide) ⟨hcr, .inl hlf⟩
        rw [if_neg hlast]
        refine (ih (by omega) (by omega) (by omega)).skip (by omega) fun q hq hlt => ?_
        obtain ⟨k, rfl⟩ := Nat.exists_eq_add_of_le hq
        exact hnone k (by omega)
    · -- fewer than sixteen bytes are left, so only a real line end can stop the search
      rw [if_neg hblock]
      have hreal : ∀ q, i ≤ q →
          (Stops data start q ↔ data[q]? = some cr ∧ data[q + 1]? = some lf) := by
        refine fun q hq => and_congr_right fun hcr => or_iff_left fun hdist => ?_
        rw [getElem?_eq_none (by omega)] at hcr
        cases hcr
      have hscan := first_scanPair (Eq.refl (data.drop i))
      cases hr : scanPair (data.drop i) i with
      | none =>
        rw [hr] at hscan
        exact fun q hq => mt (hreal q hq).mp (hscan q hq)
      | some p =>
        rw [hr] at hscan
        exact ⟨hscan.1, (hreal p hscan.1).mpr hscan.2.1,
          fun q hq hlt => mt (hreal q hq).mp (hscan.2.2 q hq hlt)⟩

/-- The search finds the first stop, and nothing when there is none. -/
theorem findCrlf_eq_some_iff : findCrlf data start = some p ↔ LineEnd data start p := by
  rw [findCrlf]
  split_ifs with hstart
  · refine ⟨nofun, fun h => ?_⟩
    have hlt := h.lt_length
    have hle := h.start_le
    omega
  · have hfirst : First (Stops data start) start (findFrom data (data.length + 1) start) :=
      first_findFrom (by omega) le_rfl (by simp)
    cases hr : findFrom data (data.length + 1) start with
    | none =>
      rw [hr] at hfirst
      exact ⟨nofun, fun h => absurd h.stops (hfirst p h.start_le)⟩
    | some q =>
      rw [hr] at hfirst
      have hq : LineEnd data start q := ⟨hfirst.1, hfirst.2.1, hfirst.2.2⟩
      rw [Option.some_inj]
      exact ⟨fun h => h ▸ hq, fun h => hq.eq h⟩

/-- A line that is found stays where it is when more bytes arrive. -/
lemma LineEnd.append (hp : LineEnd data start p) (more : List UInt8) :
    LineEnd (data ++ more) start p := by
  have hlt := hp.lt_length
  have hget (q : ℕ) (hq : q < data.length) : (data ++ more)[q]? = data[q]? :=
    getElem?_append_left hq
  refine ⟨hp.start_le, ⟨by rw [hget p hlt]; exact hp.stops.1, ?_⟩, fun q hq hqp hstop => ?_⟩
  · obtain hlf | hblock := hp.stops.2
    · have hlt' : p + 1 < data.length := by
        by_contra hge
        rw [getElem?_eq_none (by omega)] at hlf
        cases hlf
      exact .inl (by rw [hget _ hlt', hlf])
    · exact .inr hblock
  · refine hp.first q hq hqp ⟨by rw [← hget q (by omega)]; exact hstop.1, ?_⟩
    rw [← hget (q + 1) (by omega)]
    exact hstop.2

lemma findCrlf_append (h : findCrlf data start = some p) (more : List UInt8) :
    findCrlf (data ++ more) start = some p := by
  rw [findCrlf_eq_some_iff] at h ⊢
  exact h.append more

end LineEnd

end Qihse.Resp
