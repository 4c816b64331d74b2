import Mathlib

/-!
# Open-addressed tables

A table of `n` slots with linear probing. A key is stored at the first free slot from its home slot
on, so it can be found as long as no slot before it is freed: `Reachable`.
-/

namespace Probing

open Function

variable {κ ν : Type}

/-- The content of the slots. -/
abbrev Table (κ ν : Type) : Type := ℕ → Option (κ × ν)

section

variable [DecidableEq κ]

/-- Look at no more than `m` slots from slot `i` on: the slot that holds the key (`true`), or the
first free one (`false`). -/
def probe (n : ℕ) (t : Table κ ν) (k : κ) : ℕ → ℕ → Option (ℕ × Bool)
  | 0, _ => none
  | m + 1, i =>
    match t i with
    | none => some (i, false)
    | some (k', _) => if k' = k then some (i, true) else probe n t k m ((i + 1) % n)

/-- The slots that `probe` passes over. -/
def passed (n : ℕ) (t : Table κ ν) (k : κ) : ℕ → ℕ → List ℕ
  | 0, _ => []
  | m + 1, i =>
    match t i with
    | none => []
    | some (k', _) => if k' = k then [] else i :: passed n t k m ((i + 1) % n)

end

/-- The slot holds another key. -/
def Other (t : Table κ ν) (k : κ) (i : ℕ) : Prop := ∃ k' v, t i = some (k', v) ∧ k' ≠ k

/-! ### Probing -/

/-- The first slot of a probe. -/
lemma slot_zero {n i : ℕ} (hi : i < n) : (i + 0) % n = i := Nat.mod_eq_of_lt hi

/-- The slots behind the next one are the slots behind this one. -/
lemma slot_succ (n i e : ℕ) : ((i + 1) % n + e) % n = (i + (e + 1)) % n := by
  rw [Nat.mod_add_mod, add_assoc, add_comm 1 e]

section Probe

variable [DecidableEq κ] {n : ℕ} {t : Table κ ν} {k : κ} {v : ν} {m i : ℕ}

lemma probe_of_other (h : Other t k i) : probe n t k (m + 1) i = probe n t k m ((i + 1) % n) := by
  obtain ⟨k', v', ht, hk⟩ := h
  simp [probe, ht, hk]

lemma passed_of_other (h : Other t k i) :
    passed n t k (m + 1) i = i :: passed n t k m ((i + 1) % n) := by
  obtain ⟨k', v', ht, hk⟩ := h
  simp [passed, ht, hk]

lemma probe_eq_of_mem (hi : i < n) {d : ℕ} (hd : d < m)
    (hother : ∀ e < d, Other t k ((i + e) % n)) (ht : t ((i + d) % n) = some (k, v)) :
    probe n t k m i = some ((i + d) % n, true) := by
  induction d generalizing m i with
  | zero =>
    obtain ⟨m, rfl⟩ := Nat.exists_eq_add_of_lt hd
    rw [slot_zero hi] at ht
    rw [slot_zero hi]
    simp [probe, ht]
  | succ d ih =>
    obtain ⟨m, rfl⟩ := Nat.exists_eq_add_of_le' (Nat.one_le_of_lt hd)
    have hfirst := hother 0 (Nat.succ_pos d)
    rw [slot_zero hi] at hfirst
    rw [probe_of_other hfirst, ih (Nat.mod_lt _ (Nat.zero_lt_of_lt hi)) (by omega) ?_ ?_,
      slot_succ]
    · intro e he
      rw [slot_succ]
      exact hother (e + 1) (Nat.succ_lt_succ he)
    · rwa [slot_succ]

lemma mem_passed (hi : i < n) {d : ℕ} (hd : d ≤ m) (hother : ∀ e < d, Other t k ((i + e) % n))
    {e : ℕ} (he : e < d) : (i + e) % n ∈ passed n t k m i := by
  induction d generalizing m i e with
  | zero => exact absurd he (Nat.not_lt_zero e)
  | succ d ih =>
    obtain ⟨m, rfl⟩ := Nat.exists_eq_add_of_le' (Nat.one_le_of_lt hd)
    have hfirst := hother 0 (Nat.succ_pos d)
    rw [slot_zero hi] at hfirst
    rw [passed_of_other hfirst, List.mem_cons]
    cases e with
    | zero => exact .inl (slot_zero hi)
    | succ e =>
      rw [← slot_succ]
      refine .inr (ih (Nat.mod_lt _ (Nat.zero_lt_of_lt hi)) (Nat.le_of_succ_le_succ hd) ?_
        (Nat.lt_of_succ_lt_succ he))
      intro e he
      rw [slot_succ]
      exact hother (e + 1) (Nat.succ_lt_succ he)

lemma eq_some_of_probe {s : ℕ} (h : probe n t k m i = some (s, true)) : ∃ v, t s = some (k, v) := by
  induction m generalizing i with
  | zero => simp [probe] at h
  | succ m ih =>
    unfold probe at h
    split at h
    · simp at h
    · next k' v' ht =>
      split_ifs at h with hk
      · cases h
        exact ⟨v', hk ▸ ht⟩
      · exact ih h

lemma free_of_probe (hi : i < n) {s : ℕ} (h : probe n t k m i = some (s, false)) :
    t s = none ∧ ∃ d < m, (i + d) % n = s ∧ ∀ e < d, Other t k ((i + e) % n) := by
  induction m generalizing i with
  | zero => simp [probe] at h
  | succ m ih =>
    unfold probe at h
    split at h
    · next ht =>
      cases h
      refine ⟨ht, 0, Nat.succ_pos m, Nat.mod_eq_of_lt hi, ?_⟩
      exact fun e he => absurd he (Nat.not_lt_zero e)
    · next k' v' ht =>
      rw [ite_eq_iff'] at h
      have hk : k' ≠ k := fun hk => by simpa using h.1 hk
      obtain ⟨hs, d, hd, hslot, hother⟩ := ih (Nat.mod_lt _ (Nat.zero_lt_of_lt hi)) (h.2 hk)
      refine ⟨hs, d + 1, Nat.succ_lt_succ hd, ?_, ?_⟩
      · rw [← hslot, slot_succ]
      · intro e he
        cases e with
        | zero => exact ⟨k', v', by rwa [slot_zero hi], hk⟩
        | succ e =>
          rw [← slot_succ]
          exact hother e (Nat.lt_of_succ_lt_succ he)

lemma other_of_probe_eq_none (hi : i < n) (h : probe n t k m i = none) :
    ∀ e < m, Other t k ((i + e) % n) := by
  induction m generalizing i with
  | zero => exact fun e he => absurd he (Nat.not_lt_zero e)
  | succ m ih =>
    unfold probe at h
    split at h
    · simp at h
    · next k' v' ht =>
      split_ifs at h with hk
      intro e he
      cases e with
      | zero => exact ⟨k', v', by rwa [slot_zero hi], hk⟩
      | succ e =>
        rw [← slot_succ]
        exact ih (Nat.mod_lt _ (Nat.zero_lt_of_lt hi)) h e (Nat.lt_of_succ_lt_succ he)

end Probe

/-! ### Tables in which every key is found -/

/-- From the home slot of a stored key on, every slot before it holds another key. -/
def Reachable (n : ℕ) (home : κ → ℕ) (t : Table κ ν) : Prop :=
  ∀ ⦃j k v⦄, t j = some (k, v) →
    ∃ d < n, (home k + d) % n = j ∧ ∀ e < d, Other t k ((home k + e) % n)

variable {n : ℕ} {home : κ → ℕ} {t : Table κ ν} {k : κ} {v : ν} {s j : ℕ}

lemma reachable_empty : Reachable n home (fun _ => none : Table κ ν) := by
  intro j k v h
  cases h

lemma Reachable.lt (h : Reachable n home t) (hj : t j = some (k, v)) : j < n := by
  obtain ⟨d, hd, rfl, -⟩ := h hj
  exact Nat.mod_lt _ (Nat.zero_lt_of_lt hd)

/-- A slot that is replaced by one with the same key is no obstacle to the others. -/
lemma Other.update {k' : κ} {i : ℕ} (h : Other t k' i) (hs : i = s → ∃ v', t s = some (k, v')) :
    Other (Function.update t s (some (k, v))) k' i := by
  by_cases hi : i = s
  · subst hi
    obtain ⟨v', hv'⟩ := hs rfl
    obtain ⟨k1, v1, ht, hne⟩ := h
    rw [hv'] at ht
    cases ht
    exact ⟨k, v, update_self _ _ _, hne⟩
  · obtain ⟨k1, v1, ht, hne⟩ := h
    exact ⟨k1, v1, by rwa [update_of_ne hi], hne⟩

/-- The value of a stored key is changed. -/
lemma Reachable.overwrite (h : Reachable n home t) {v' : ν} (hs : t s = some (k, v')) :
    Reachable n home (Function.update t s (some (k, v))) := by
  intro j k1 v1 hj
  obtain ⟨v2, hv2⟩ : ∃ v2, t j = some (k1, v2) := by
    by_cases hjs : j = s
    · subst hjs
      rw [update_self] at hj
      cases hj
      exact ⟨v', hs⟩
    · rw [update_of_ne hjs] at hj
      exact ⟨v1, hj⟩
  obtain ⟨d, hd, hslot, hother⟩ := h hv2
  exact ⟨d, hd, hslot, fun e he => (hother e he).update fun _ => ⟨v', hs⟩⟩

variable [DecidableEq κ]

/-- No stored key is behind the slot on its way from its home slot. -/
def clear (n : ℕ) (home : κ → ℕ) (t : Table κ ν) (s : ℕ) : Bool :=
  (List.range n).all fun j =>
    match t j with
    | none => true
    | some (k, _) => s ∉ passed n t k n (home k)

section

variable (hhome : ∀ k, home k < n)
include hhome

section

variable (h : Reachable n home t)
include h

lemma Reachable.probe_eq (hj : t j = some (k, v)) : probe n t k n (home k) = some (j, true) := by
  obtain ⟨d, hd, rfl, hother⟩ := h hj
  exact probe_eq_of_mem (hhome k) hd hother hj

/-- A key is stored once. -/
lemma Reachable.eq_of_key {j' : ℕ} {v' : ν} (hj : t j = some (k, v))
    (hj' : t j' = some (k, v')) : j = j' := by
  simpa using (h.probe_eq hhome hj).symm.trans (h.probe_eq hhome hj')

/-- A new key is stored at the free slot that was found for it. -/
lemma Reachable.insert (hs : probe n t k n (home k) = some (s, false)) :
    Reachable n home (Function.update t s (some (k, v))) := by
  obtain ⟨hfree, d, hd, hslot, hother⟩ := free_of_probe (hhome k) hs
  have hkeep : ∀ {k' i}, Other t k' i → Other (Function.update t s (some (k, v))) k' i := by
    intro k' i ho
    refine ho.update fun hi => ?_
    obtain ⟨k1, v1, ht, -⟩ := ho
    rw [hi, hfree] at ht
    cases ht
  intro j k1 v1 hj
  by_cases hjs : j = s
  · subst hjs
    rw [update_self] at hj
    cases hj
    exact ⟨d, hd, hslot, fun e he => hkeep (hother e he)⟩
  · rw [update_of_ne hjs] at hj
    obtain ⟨d1, hd1, hslot1, hother1⟩ := h hj
    exact ⟨d1, hd1, hslot1, fun e he => hkeep (hother1 e he)⟩

/-- A slot is freed that no stored key is behind. -/
lemma Reachable.free (hs : clear n home t s = true) :
    Reachable n home (Function.update t s none) := by
  intro j k v hj
  have hjs : j ≠ s := by
    rintro rfl
    rw [update_self] at hj
    cases hj
  rw [update_of_ne hjs] at hj
  obtain ⟨d, hd, hslot, hother⟩ := h hj
  have hclear := List.all_eq_true.mp hs j (List.mem_range.mpr (h.lt hj))
  simp only [hj, decide_eq_true_eq] at hclear
  refine ⟨d, hd, hslot, fun e he => ?_⟩
  obtain ⟨k', v', ht, hne⟩ := hother e he
  have hes : (home k + e) % n ≠ s := by
    intro heq
    apply hclear
    rw [← heq]
    exact mem_passed (hhome k) hd.le hother he
  exact ⟨k', v', by rwa [update_of_ne hes], hne⟩

/-- With fewer keys than slots there is always a slot for a key. -/
lemma Reachable.probe_ne_none (K : Finset κ)
    (hK : ∀ j k v, t j = some (k, v) → k ∈ K) (hcard : K.card < n) (k : κ) :
    probe n t k n (home k) ≠ none := by
  intro hnone
  have hother := other_of_probe_eq_none (hhome k) hnone
  -- the keys of all slots, in the order of the probe
  let key : ℕ → κ := fun e => ((t ((home k + e) % n)).map Prod.fst).getD k
  have hkey : ∀ e < n, ∃ v, t ((home k + e) % n) = some (key e, v) := by
    intro e he
    obtain ⟨k', v', ht, -⟩ := hother e he
    exact ⟨v', by simp [key, ht]⟩
  have hmaps : ∀ e ∈ Finset.range n, key e ∈ K := by
    intro e he
    obtain ⟨v, hv⟩ := hkey e (Finset.mem_range.mp he)
    exact hK _ _ _ hv
  obtain ⟨a, ha, b, hb, hne, heq⟩ :=
    Finset.exists_ne_map_eq_of_card_lt_of_maps_to (by simpa using hcard) hmaps
  rw [Finset.mem_range] at ha hb
  obtain ⟨v, hv⟩ := hkey a ha
  obtain ⟨v', hv'⟩ := hkey b hb
  rw [← heq] at hv'
  have hslot : home k + a ≡ home k + b [MOD n] := h.eq_of_key hhome hv hv'
  exact hne ((Nat.ModEq.add_left_cancel' _ hslot).eq_of_lt_of_lt ha hb)

end

end

end Probing
