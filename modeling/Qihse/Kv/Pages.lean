import Qihse.Kv.Delta

/-!
# Pages without gaps

A page promises every record up to its resume point. That holds after a record has been pushed
exactly when the record opened no gap: it fits and nothing smaller was turned away before, or the
records it displaces are all larger. Since records differ in size, neither is a matter of course.
-/

namespace Qihse.Kv

open List Option Collector DeltaRecord

namespace DeltaRecord

variable {a b c : DeltaRecord}

lemma before_iff : a.before b = true ↔
    a.changeSeq < b.changeSeq ∨ a.changeSeq = b.changeSeq ∧ a.key < b.key := by
  simp [before]

lemma notAfter_iff : NotAfter a b ↔
    a.changeSeq < b.changeSeq ∨ a.changeSeq = b.changeSeq ∧ ¬ b.key < a.key := by
  rw [NotAfter, ← Bool.not_eq_true, before_iff]
  grind

instance : IsTrans DeltaRecord NotAfter where
  trans a b c hab hbc := by
    rw [notAfter_iff] at *
    obtain hab | ⟨hab, hk⟩ := hab
    · left
      omega
    · obtain hbc | ⟨hbc, hk'⟩ := hbc
      · left
        omega
      · exact .inr ⟨hab.trans hbc, List.le_trans hk hk'⟩

instance : Std.Total NotAfter where
  total a b := by
    rw [notAfter_iff, notAfter_iff]
    have : ¬ b.key < a.key ∨ ¬ a.key < b.key := List.le_total a.key b.key
    grind

end DeltaRecord

/-- The bytes of some records. -/
def costs (recs : List DeltaRecord) : ℕ := (recs.map cost).sum

lemma costs_sublist {recs recs' : List DeltaRecord} (h : recs'.Sublist recs) :
    costs recs' ≤ costs recs :=
  (h.map _).sum_le_sum (by simp)

/-- Records with different sequences. -/
def SeqsDistinct (recs : List DeltaRecord) : Prop := (recs.map changeSeq).Nodup

section Distinct

variable {recs : List DeltaRecord} {a b l : DeltaRecord}

lemma SeqsDistinct.eq (h : SeqsDistinct recs) (ha : a ∈ recs) (hb : b ∈ recs)
    (hab : a.changeSeq = b.changeSeq) : a = b :=
  inj_on_of_nodup_map h ha hb hab

lemma SeqsDistinct.nodup (h : SeqsDistinct recs) : recs.Nodup := List.Nodup.of_map _ h

lemma SeqsDistinct.sublist (h : SeqsDistinct recs) {recs' : List DeltaRecord}
    (hsub : recs'.Sublist recs) : SeqsDistinct recs' :=
  List.Nodup.sublist (hsub.map _) h

namespace Collector

/-- The search finds a record that is before no other. -/
lemma largest_spec : (largest recs = none → recs = []) ∧
    ∀ l, largest recs = some l → l ∈ recs ∧ ∀ r ∈ recs, l.before r = false := by
  induction recs using List.reverseRecOn with
  | nil => exact ⟨fun _ => rfl, fun l hl => by simp [largest] at hl⟩
  | append_singleton recs r ih =>
    have hirrefl : r.before r = false := by
      rw [← Bool.not_eq_true, before_iff]
      grind
    unfold largest at ih ⊢
    rw [foldl_append, foldl_cons, foldl_nil]
    generalize recs.foldl _ none = acc at ih ⊢
    cases acc with
    | none =>
      have hnil := ih.1 rfl
      subst hnil
      refine ⟨by simp, fun l hl => ?_⟩
      obtain rfl : r = l := by simpa using hl
      simpa using hirrefl
    | some q =>
      obtain ⟨hmem, hmax⟩ := ih.2 q rfl
      refine ⟨fun h => by dsimp only at h; split_ifs at h, fun l hl => ?_⟩
      dsimp only at hl
      split_ifs at hl with hqr
      · obtain rfl : r = l := by simpa using hl
        have hqr' : q.NotAfter r := by
          simpa [NotAfter, hqr] using Std.Total.total (r := NotAfter) q r
        exact ⟨by simp, forall_mem_append.mpr ⟨fun x hx => IsTrans.trans x q r (hmax x hx) hqr',
          forall_mem_singleton.mpr hirrefl⟩⟩
      · obtain rfl : q = l := by simpa using hl
        exact ⟨by simp [hmem], forall_mem_append.mpr ⟨hmax,
          forall_mem_singleton.mpr (by simpa using hqr)⟩⟩

/-- With different sequences every other record is smaller than the largest. -/
lemma lt_largest (hd : SeqsDistinct recs) (hl : largest recs = some l) (ha : a ∈ recs)
    (hne : a ≠ l) : a.changeSeq < l.changeSeq := by
  obtain ⟨hmem, hmax⟩ := largest_spec.2 l hl
  have hnot := hmax a ha
  rw [← Bool.not_eq_true, before_iff, not_or] at hnot
  exact lt_of_le_of_ne (not_lt.mp hnot.1) fun h => hne (hd.eq ha hmem h)

/-! ### Evictions -/

variable {lim : Limits} {c : Collector} {cost n : ℕ}

lemma full_iff : c.full lim cost = true ↔
    lim.maxRecords ≤ c.recs.length ∨ lim.maxBytes < c.bytes + cost := by
  simp [full]

/-- What the eviction loop leaves: a lower part of the records, and no more than it has to. -/
structure Evicted (lim : Limits) (cost : ℕ) (c c' : Collector) : Prop where
  sublist : c'.recs.Sublist c.recs
  bytes : c'.bytes = costs c'.recs
  room : c'.recs = [] ∨ c'.full lim cost = false
  lower : ∀ e ∈ c.recs, e ∉ c'.recs → ∀ k ∈ c'.recs, k.changeSeq < e.changeSeq
  needed : ∀ e ∈ c.recs, e ∉ c'.recs →
    lim.maxRecords ≤ (c.recs.filter fun k => decide (k.changeSeq ≤ e.changeSeq)).length ∨
      lim.maxBytes < costs (c.recs.filter fun k => decide (k.changeSeq ≤ e.changeSeq)) + cost
  truncated : c'.truncated = (c.truncated || decide (c'.recs ≠ c.recs))
  resume : c'.resume = c.resume

lemma evicted_refl (hb : c.bytes = costs c.recs)
    (hroom : c.recs = [] ∨ c.full lim cost = false) : Evicted lim cost c c where
  sublist := List.Sublist.refl _
  bytes := hb
  room := hroom
  lower := fun e he hne => absurd he hne
  needed := fun e he hne => absurd he hne
  truncated := by simp
  resume := rfl

lemma evicted_makeRoom (hd : SeqsDistinct c.recs) (hb : c.bytes = costs c.recs)
    (hn : c.recs.length ≤ n) : Evicted lim cost c (makeRoom lim cost n c) := by
  induction n generalizing c with
  | zero => exact evicted_refl hb (.inl (length_eq_zero_iff.mp (Nat.le_zero.mp hn)))
  | succ n ih =>
    unfold makeRoom
    cases hl : largest c.recs with
    | none => exact evicted_refl hb (.inl (largest_spec.1 hl))
    | some l =>
      split_ifs with hfull
      swap
      · exact evicted_refl hb (.inr (by simpa using hfull))
      obtain ⟨hmem, -⟩ := largest_spec.2 l hl
      have hsum : l.cost + costs (c.recs.erase l) = costs c.recs := sum_map_erase _ hmem
      have hrest := @ih (c.evict l) (hd.sublist erase_sublist)
        (by simp only [evict]; omega)
        (by simp only [evict, length_erase_of_mem hmem]; omega)
      have hshorter : (makeRoom lim cost n (c.evict l)).recs ≠ c.recs := by
        intro h
        have h1 := hrest.sublist.length_le
        have h2 := length_pos_of_mem hmem
        rw [h] at h1
        simp only [evict, length_erase_of_mem hmem] at h1
        omega
      -- below a record other than the largest nothing has changed
      have hbelow : ∀ e ∈ c.recs, e ≠ l →
          ((c.recs.erase l).filter fun k => decide (k.changeSeq ≤ e.changeSeq)) =
            c.recs.filter fun k => decide (k.changeSeq ≤ e.changeSeq) := by
        intro e he hne
        rw [← erase_filter]
        refine erase_of_not_mem ?_
        simp only [mem_filter, decide_eq_true_eq, not_and, not_le]
        exact fun _ => lt_largest hd hl he hne
      refine ⟨hrest.sublist.trans erase_sublist, hrest.bytes, hrest.room, ?_, ?_, ?_,
        hrest.resume⟩
      · intro e he hout k hk
        by_cases hne : e = l
        · subst hne
          have hk' := hrest.sublist.subset hk
          simp only [evict, hd.nodup.mem_erase_iff] at hk'
          exact lt_largest hd hl hk'.2 hk'.1
        · exact hrest.lower e ((mem_erase_of_ne hne).mpr he) hout k hk
      · intro e he hout
        by_cases hne : e = l
        · subst hne
          have hall : (c.recs.filter fun k => decide (k.changeSeq ≤ e.changeSeq)) = c.recs := by
            rw [filter_eq_self]
            intro k hk
            rw [decide_eq_true_eq]
            by_cases hke : k = e
            · rw [hke]
            · exact (lt_largest hd hl hk hke).le
          rw [hall, ← hb]
          exact full_iff.mp hfull
        · have := hrest.needed e ((mem_erase_of_ne hne).mpr he) hout
          simp only [evict] at this
          rwa [hbelow e he hne] at this
      · have ht : (c.evict l).truncated = true := rfl
        rw [hrest.truncated, ht, decide_eq_true hshorter, Bool.true_or, Bool.or_true]

/-! ### One record -/

/-- What a collector knows of the records that were pushed so far. -/
structure Inv (lim : Limits) (since : ℕ) (seen : List DeltaRecord) (c : Collector) : Prop where
  subset : c.recs ⊆ seen
  distinct : SeqsDistinct c.recs
  bytes : c.bytes = costs c.recs
  maxRecords : c.recs.length ≤ lim.maxRecords
  maxBytes : c.bytes ≤ lim.maxBytes
  truncated : c.truncated = false → seen ⊆ c.recs
  nonempty : c.truncated = true → c.recs ≠ []
  resume : c.resume = since

/-- Every record that was turned away is larger than those that are kept. -/
def NoGap (seen : List DeltaRecord) (c : Collector) : Prop :=
  ∀ q ∈ seen, q ∉ c.recs → ∀ k ∈ c.recs, k.changeSeq < q.changeSeq

/-- The record is before the largest that is kept, if there is one. -/
def beforeLargest (c : Collector) (r : DeltaRecord) : Bool :=
  match largest c.recs with
  | none => true
  | some l => r.before l

/-- The condition on a record, with those that were pushed before it: where it fits, it is smaller
than all that were turned away; where it displaces others, it fits beside all that are smaller. -/
def keepsOrder (lim : Limits) (seen : List DeltaRecord) (c : Collector) (r : DeltaRecord) : Bool :=
  if c.full lim r.cost then
    !c.beforeLargest r || decide (costs (c.recs.filter fun k =>
      decide (k.changeSeq < r.changeSeq)) + r.cost ≤ lim.maxBytes)
  else seen.all fun q => decide (q ∈ c.recs) || decide (r.changeSeq < q.changeSeq)

variable {since : ℕ} {seen : List DeltaRecord} {r : DeltaRecord}

lemma inv_init (lim : Limits) (since : ℕ) : Inv lim since [] (init since) where
  subset := nil_subset _
  distinct := nodup_nil
  bytes := rfl
  maxRecords := Nat.zero_le _
  maxBytes := Nat.zero_le _
  truncated := fun _ => nil_subset _
  nonempty := by simp [init]
  resume := rfl

/-- A record that comes in, after the evictions that make room for it. -/
lemma Inv.add (inv : Inv lim since seen c) {c' : Collector} (hev : Evicted lim r.cost c c')
    (hpos : 0 < lim.maxRecords) (hcost : r.cost ≤ lim.maxBytes)
    (hnew : ∀ q ∈ seen, q.changeSeq ≠ r.changeSeq) : Inv lim since (seen ++ [r]) (c'.add r) := by
  have hbytes : c'.bytes + r.cost = costs (c'.recs ++ [r]) := by
    simp [costs, hev.bytes]
  refine ⟨?_, ?_, hbytes, ?_, ?_, ?_, by simp [Collector.add], hev.resume.trans inv.resume⟩
  · intro q hq
    exact mem_append.mpr ((mem_append.mp hq).imp_left fun hq =>
      inv.subset (hev.sublist.subset hq))
  · change ((c'.recs ++ [r]).map changeSeq).Nodup
    rw [map_append, nodup_append]
    refine ⟨inv.distinct.sublist hev.sublist, nodup_singleton _, ?_⟩
    intro x hx y hy
    obtain ⟨q, hq, rfl⟩ := List.mem_map.mp hx
    simp only [map_cons, map_nil, mem_singleton] at hy
    rw [hy]
    exact hnew q (inv.subset (hev.sublist.subset hq))
  · change (c'.recs ++ [r]).length ≤ lim.maxRecords
    rw [length_append, length_singleton]
    obtain hnil | hroom := hev.room
    · rw [hnil]
      exact hpos
    · rw [← Bool.not_eq_true, full_iff, not_or, not_le] at hroom
      exact hroom.1
  · change c'.bytes + r.cost ≤ lim.maxBytes
    obtain hnil | hroom := hev.room
    · rw [hev.bytes, hnil]
      simpa [costs] using hcost
    · rw [← Bool.not_eq_true, full_iff, not_or, not_lt] at hroom
      exact hroom.2
  · intro ht
    change c'.truncated = false at ht
    rw [hev.truncated, Bool.or_eq_false_iff, decide_eq_false_iff_not, not_not] at ht
    intro q hq
    refine mem_append.mpr ((mem_append.mp hq).imp_left fun hq => ?_)
    rw [ht.2]
    exact inv.truncated ht.1 hq

lemma push_cases (hpos : 0 < lim.maxRecords) (hcost : r.cost ≤ lim.maxBytes) :
    c.push lim r = some
      (if c.full lim r.cost && !c.beforeLargest r then { c with truncated := true }
      else (makeRoom lim r.cost c.recs.length c).add r) := by
  unfold push
  rw [if_neg hpos.ne', if_neg (not_lt.mpr hcost)]
  change (if c.full lim r.cost && !c.beforeLargest r then _ else _) = _
  split_ifs <;> rfl

lemma noGap_add (hfresh : r ∉ seen) : (c.add r).NoGap (seen ++ [r]) ↔ ∀ q ∈ seen, q ∉ c.recs →
    r.changeSeq < q.changeSeq ∧ ∀ k ∈ c.recs, k.changeSeq < q.changeSeq := by
  constructor
  · intro h q hq hout
    have hadd : q ∉ (c.add r).recs := by
      simp only [add, mem_append, mem_singleton, not_or]
      exact ⟨hout, fun hqr => hfresh (hqr ▸ hq)⟩
    have hlt := h q (mem_append_left _ hq) hadd
    exact ⟨hlt r (by simp [add]), fun k hk => hlt k (by simp [add, hk])⟩
  · intro h q hq hout k hk
    simp only [add, mem_append, mem_singleton, not_or] at hq hout hk
    obtain ⟨hr, hkept⟩ := h q (hq.resolve_right hout.2) hout.1
    obtain hk | rfl := hk
    · exact hkept k hk
    · exact hr

/-- A record that displaces others opens no gap exactly when it fits beside all smaller ones. -/
lemma noGap_add_iff (inv : Inv lim since seen c) {c' : Collector}
    (hev : Evicted lim r.cost c c') (hbytes : (c'.add r).bytes ≤ lim.maxBytes)
    (hfull : c.full lim r.cost = true) (hbefore : c.beforeLargest r = true)
    (hpos : 0 < lim.maxRecords) (hcost : r.cost ≤ lim.maxBytes)
    (hnew : ∀ q ∈ seen, q.changeSeq ≠ r.changeSeq) (hgap : c.NoGap seen) :
    (c'.add r).NoGap (seen ++ [r]) ↔
      costs (c.recs.filter fun k => decide (k.changeSeq < r.changeSeq)) + r.cost ≤
        lim.maxBytes := by
  rw [noGap_add fun h => hnew r h rfl]
  obtain ⟨l, hl⟩ : ∃ l, largest c.recs = some l := by
    refine ne_none_iff_exists'.mp fun h => ?_
    rw [full_iff, inv.bytes, largest_spec.1 h] at hfull
    simp only [costs, length_nil, map_nil, sum_nil, zero_add] at hfull
    omega
  obtain ⟨hmem, -⟩ := largest_spec.2 l hl
  have hrl : r.changeSeq < l.changeSeq := by
    simp only [beforeLargest, hl, before_iff] at hbefore
    exact hbefore.resolve_right fun h => hnew l (inv.subset hmem) h.1.symm
  set low := c.recs.filter fun k => decide (k.changeSeq < r.changeSeq)
  constructor
  · intro h
    -- no smaller record has been evicted
    have hkept : ∀ k ∈ c.recs, k.changeSeq < r.changeSeq → k ∈ c'.recs := by
      intro k hk hlt
      by_contra hout
      have := (h k (inv.subset hk) hout).1
      omega
    have hfilter : (c'.recs.filter fun k => decide (k.changeSeq < r.changeSeq)) = low := by
      refine (hev.sublist.filter _).eq_of_length_le ?_
      refine (inv.distinct.nodup.filter _).length_le_of_subset ?_
      intro k hk
      rw [mem_filter, decide_eq_true_eq] at hk ⊢
      exact ⟨hkept k hk.1 hk.2, hk.2⟩
    calc costs low + r.cost
        ≤ costs c'.recs + r.cost := by
          rw [← hfilter]
          exact Nat.add_le_add_right (costs_sublist filter_sublist) _
      _ = (c'.add r).bytes := by rw [← hev.bytes]; rfl
      _ ≤ lim.maxBytes := hbytes
  · intro hfits
    have hlarger : ∀ e ∈ c.recs, e ∉ c'.recs → r.changeSeq < e.changeSeq := by
      intro e he hout
      by_contra hle
      have hlt : e.changeSeq < r.changeSeq :=
        lt_of_le_of_ne (not_lt.mp hle) (hnew e (inv.subset he))
      have hsub : (c.recs.filter fun k => decide (k.changeSeq ≤ e.changeSeq)).Sublist low := by
        refine monotone_filter_right _ fun k hk => ?_
        rw [decide_eq_true_eq] at hk ⊢
        omega
      -- the largest record is not below, so the number of records is no obstacle
      have hcount : low.length < c.recs.length := by
        refine length_filter_lt_length_iff_exists.mpr ⟨l, hmem, ?_⟩
        rw [decide_eq_true_eq]
        omega
      have hmax := inv.maxRecords
      have hlen := hsub.length_le
      have hsum := costs_sublist hsub
      obtain hneed | hneed := hev.needed e he hout <;> omega
    intro q hq hout
    by_cases hin : q ∈ c.recs
    · exact ⟨hlarger q hin hout, hev.lower q hin hout⟩
    · exact ⟨hrl.trans (hgap q hq hin l hmem), fun k hk => hgap q hq hin k (hev.sublist.subset hk)⟩

/-- A push succeeds, keeps the bookkeeping, and keeps the page without gaps exactly under the
condition. -/
lemma push_spec (inv : Inv lim since seen c) (hpos : 0 < lim.maxRecords)
    (hcost : r.cost ≤ lim.maxBytes) (hnew : ∀ q ∈ seen, q.changeSeq ≠ r.changeSeq) :
    ∃ c', c.push lim r = some c' ∧ Inv lim since (seen ++ [r]) c' ∧
      (c.NoGap seen → (c'.NoGap (seen ++ [r]) ↔ c.keepsOrder lim seen r = true)) := by
  rw [push_cases hpos hcost]
  refine ⟨_, rfl, ?_⟩
  have hev : Evicted lim r.cost c (makeRoom lim r.cost c.recs.length c) :=
    evicted_makeRoom inv.distinct inv.bytes (le_refl _)
  cases hfull : c.full lim r.cost with
  | false =>
    -- it fits: nothing is evicted
    have hsame : (makeRoom lim r.cost c.recs.length c) = c := by
      cases hn : c.recs.length with
      | zero => rfl
      | succ =>
        unfold makeRoom
        cases largest c.recs with
        | none => rfl
        | some => simp [hfull]
    rw [hsame] at hev
    rw [Bool.false_and, if_neg Bool.false_ne_true, hsame]
    refine ⟨inv.add hev hpos hcost hnew, fun hgap => ?_⟩
    simp only [keepsOrder, hfull, Bool.false_eq_true, if_false, List.all_eq_true, Bool.or_eq_true,
      decide_eq_true_eq, noGap_add fun h => hnew r h rfl]
    constructor
    · intro h q hq
      by_cases hin : q ∈ c.recs
      · exact .inl hin
      · exact .inr (h q hq hin).1
    · exact fun h q hq hout => ⟨(h q hq).resolve_left hout, hgap q hq hout⟩
  | true =>
    cases hbefore : c.beforeLargest r with
    | false =>
      -- it is turned away, and larger than all that are kept
      obtain ⟨l, hl⟩ : ∃ l, largest c.recs = some l := by
        refine ne_none_iff_exists'.mp fun h => ?_
        simp [beforeLargest, h] at hbefore
      obtain ⟨hmem, -⟩ := largest_spec.2 l hl
      have hlr : l.changeSeq < r.changeSeq := by
        simp only [beforeLargest, hl, ← Bool.not_eq_true, before_iff, not_or] at hbefore
        exact lt_of_le_of_ne (not_lt.mp hbefore.1) (hnew l (inv.subset hmem))
      refine ⟨{ inv with
          subset := fun q hq => mem_append_left _ (inv.subset hq), truncated := by simp
          nonempty := fun _ => ne_nil_of_mem hmem },
        fun hgap => ?_⟩
      refine iff_of_true ?_ (by simp [keepsOrder, hfull, hbefore])
      intro q hq hout k hk
      obtain hq | hq := mem_append.mp hq
      · exact hgap q hq hout k hk
      · rw [mem_singleton.mp hq]
        by_cases hkl : k = l
        · rw [hkl]
          exact hlr
        · exact (lt_largest inv.distinct hl hk hkl).trans hlr
    | true =>
      have inv' := inv.add hev hpos hcost hnew
      refine ⟨inv', fun hgap => ?_⟩
      rw [keepsOrder, if_pos hfull, hbefore, Bool.not_true, Bool.false_or, decide_eq_true_eq]
      exact noGap_add_iff inv hev inv'.maxBytes hfull hbefore hpos hcost hnew hgap

/-! ### All records of a walk -/

/-- The condition on every record of a walk, in the state in which it comes. -/
def keepsOrderAll (lim : Limits) (seen : List DeltaRecord) (c : Collector) :
    List DeltaRecord → Bool
  | [] => true
  | r :: rs => c.keepsOrder lim seen r &&
      (c.push lim r).all fun c' => c'.keepsOrderAll lim (seen ++ [r]) rs

variable {rs : List DeltaRecord}

lemma SeqsDistinct.fresh (hd : SeqsDistinct (seen ++ r :: rs)) :
    ∀ q ∈ seen, q.changeSeq ≠ r.changeSeq := by
  intro q hq h
  unfold SeqsDistinct at hd
  rw [map_append, nodup_append] at hd
  exact hd.2.2 _ (List.mem_map_of_mem hq) _ (List.mem_map_of_mem mem_cons_self) h

section

variable (inv : Inv lim since seen c) (hpos : 0 < lim.maxRecords)
  (hcost : ∀ r ∈ rs, r.cost ≤ lim.maxBytes) (hd : SeqsDistinct (seen ++ rs))
include inv hpos hcost hd

lemma pushAll_inv :
    ∃ c', c.pushAll lim rs = some c' ∧ Inv lim since (seen ++ rs) c' := by
  induction rs generalizing seen c with
  | nil => exact ⟨c, rfl, by simpa using inv⟩
  | cons r rs ih =>
    obtain ⟨c1, hpush, inv1, -⟩ := push_spec inv hpos (hcost r (by simp)) (SeqsDistinct.fresh hd)
    obtain ⟨c', hall, inv'⟩ := ih inv1 (fun q hq => hcost q (mem_cons_of_mem _ hq))
      (by simpa using hd)
    exact ⟨c', by simp [pushAll, hpush, hall], by simpa using inv'⟩

/-- Every moment of the walk is without gaps exactly when each of its records meets the
condition. -/
lemma noGap_pushAll_iff (hgap : c.NoGap seen) :
    (∀ n c', c.pushAll lim (rs.take n) = some c' → c'.NoGap (seen ++ rs.take n)) ↔
      c.keepsOrderAll lim seen rs = true := by
  induction rs generalizing seen c with
  | nil =>
    refine iff_of_true (fun n c' h => ?_) rfl
    rw [take_nil] at h ⊢
    simp only [pushAll, some.injEq] at h
    rw [← h, append_nil]
    exact hgap
  | cons r rs ih =>
    obtain ⟨c1, hpush, inv1, hiff⟩ := push_spec inv hpos (hcost r (by simp))
      (SeqsDistinct.fresh hd)
    have hiff := hiff hgap
    have ih := fun hgap1 => @ih c1 (seen ++ [r]) inv1
      (fun q hq => hcost q (mem_cons_of_mem _ hq)) (by simpa using hd) hgap1
    simp only [keepsOrderAll, hpush, all_some, Bool.and_eq_true]
    constructor
    · intro h
      have hone : c1.NoGap (seen ++ [r]) := h 1 c1 (by simp [pushAll, hpush])
      refine ⟨hiff.mp hone, (ih hone).mp fun n c' hn => ?_⟩
      simpa using h (n + 1) c' (by simp [pushAll, hpush, hn])
    · rintro ⟨hone, hrest⟩ n c' hn
      cases n with
      | zero =>
        simp only [take_zero, pushAll, some.injEq] at hn
        rw [← hn, take_zero, append_nil]
        exact hgap
      | succ n =>
        simp only [take_succ_cons, pushAll, hpush, bind_some] at hn
        simpa using (ih (hiff.mpr hone)).mpr hrest n c' hn

end

/-! ### Pages -/

lemma mem_page : r ∈ (c.page lim).records ↔ r ∈ c.recs :=
  mem_insertionSort _

/-- The resume point of a page with a limit is the sequence of its last record. -/
lemma page_resume (hpos : 0 < lim.maxRecords) : c.recs = [] ∧ (c.page lim).resume = c.resume ∨
      ∃ l ∈ c.recs, (c.page lim).resume = l.changeSeq ∧
        ∀ k ∈ c.recs, k.changeSeq ≤ l.changeSeq := by
  have hsorted : (c.page lim).records.Pairwise NotAfter :=
    pairwise_insertionSort _ c.recs
  have hresume : (c.page lim).resume =
      ((c.page lim).records.getLast?).elim c.resume changeSeq := if_pos hpos.ne'
  obtain hnil | ⟨front, l, hrecs⟩ := eq_nil_or_concat' (c.page lim).records
  · refine .inl ⟨?_, by rw [hresume, hnil]; rfl⟩
    have hperm := perm_insertionSort NotAfter c.recs
    rw [show c.recs.insertionSort _ = [] from hnil] at hperm
    exact hperm.symm.eq_nil
  · have hl : l ∈ (c.page lim).records := by rw [hrecs]; simp
    refine .inr ⟨l, mem_page.mp hl, by simp [hresume, hrecs], fun k hk => ?_⟩
    have hk' : k ∈ front ++ [l] := hrecs ▸ mem_page.mpr hk
    rw [hrecs, pairwise_append] at hsorted
    obtain hk' | hk' := mem_append.mp hk'
    · have := hsorted.2.2 k hk' l (by simp)
      rw [notAfter_iff] at this
      omega
    · rw [mem_singleton.mp hk']

end Collector

/-- The page holds every one of the records up to its resume point. -/
def Page.Covers (p : Page) (recs : List DeltaRecord) : Prop :=
  ∀ r ∈ recs, r.changeSeq ≤ p.resume → r ∈ p.records

lemma covers_page_iff {lim : Limits} {since : ℕ} {seen : List DeltaRecord} {c : Collector}
    (inv : c.Inv lim since seen) (hpos : 0 < lim.maxRecords)
    (hsince : ∀ r ∈ seen, since < r.changeSeq) : (c.page lim).Covers seen ↔ c.NoGap seen := by
  constructor
  · intro h q hq hout k hk
    by_contra hle
    refine hout (mem_page.mp (h q hq ?_))
    obtain ⟨hnil, -⟩ | ⟨l, -, hl, hmax⟩ := page_resume (c := c) hpos
    · rw [hnil] at hk
      cases hk
    · have := hmax k hk
      omega
  · intro h r hr hle
    rw [mem_page]
    by_contra hout
    obtain ⟨-, hres⟩ | ⟨l, hl, hres, -⟩ := page_resume (c := c) hpos
    · have := hsince r hr
      rw [hres, inv.resume] at hle
      omega
    · have := h r hr hout l hl
      omega

end Distinct

/-! ### Exports -/

section Export

variable (lim : Limits) (access : Access) (glob : Key → Bool) (now : ℕ) (entries : List Entry)

/-- The records that a walk collects from, after a sequence. -/
def deltas (since : ℕ) : List DeltaRecord :=
  (entries.filter (Entry.wanted access glob since now)).map Entry.delta

/-- The condition on every record of the walk of an export. -/
def exportKeepsOrder (since : ℕ) : Bool :=
  (init since).keepsOrderAll lim [] (deltas access glob now entries since)

/-- Follow the resume points until an export reports that it is complete, in at most `n` calls. -/
def follow : ℕ → ℕ → Option (List DeltaRecord)
  | 0, _ => none
  | n + 1, since =>
    (exportIncrementalBoundedComplete lim access glob since now entries).bind fun p =>
      if p.complete then some p.records else (follow n p.resume).map (p.records ++ ·)

/-- The condition on every export that is made while the resume points are followed. -/
def followKeepsOrder : ℕ → ℕ → Bool
  | 0, _ => true
  | n + 1, since => exportKeepsOrder lim access glob now entries since &&
      (exportIncrementalBoundedComplete lim access glob since now entries).all fun p =>
        p.complete || followKeepsOrder n p.resume

variable {lim access glob now entries} {since : ℕ}

lemma wanted_iff {e : Entry} : e.wanted access glob since now = true ↔
    e.wanted access glob 0 now = true ∧ since < e.payload.changeSeq := by
  unfold Entry.wanted
  by_cases h : e.payload.changeSeq ≤ since
  · simp [h]
  · have : e.payload.changeSeq ≠ 0 := by omega
    simp [h]
    omega

lemma deltas_eq_filter (since : ℕ) : deltas access glob now entries since =
    (deltas access glob now entries 0).filter fun r => decide (since < r.changeSeq) := by
  unfold deltas
  rw [List.filter_map, List.filter_filter]
  congr 1
  refine filter_congr fun e _ => ?_
  rw [Bool.eq_iff_iff, wanted_iff, Bool.and_eq_true, Function.comp_apply, decide_eq_true_eq,
    and_comm]
  rfl

lemma deltas_later {resume : ℕ} (h : since ≤ resume) : deltas access glob now entries resume =
    (deltas access glob now entries since).filter fun r => decide (resume < r.changeSeq) := by
  rw [deltas_eq_filter resume, deltas_eq_filter since, List.filter_filter]
  refine filter_congr fun r _ => ?_
  rw [Bool.eq_iff_iff, Bool.and_eq_true, decide_eq_true_eq, decide_eq_true_eq]
  omega

lemma lt_of_mem_deltas {r : DeltaRecord} (hr : r ∈ deltas access glob now entries since) :
    since < r.changeSeq := by
  rw [deltas_eq_filter, mem_filter, decide_eq_true_eq] at hr
  exact hr.2

lemma deltas_sublist (since : ℕ) : (deltas access glob now entries since).Sublist
    (deltas access glob now entries 0) := by
  rw [deltas_eq_filter since]
  exact filter_sublist

section

variable (hpos : 0 < lim.maxRecords)
  (hcost : ∀ r ∈ deltas access glob now entries 0, r.cost ≤ lim.maxBytes)
  (hd : SeqsDistinct (deltas access glob now entries 0))
include hpos hcost hd

/-- An export collects its records and succeeds. -/
lemma export_collects (hbytes : 0 < lim.maxBytes) (since : ℕ) :
    ∃ c, (init since).pushAll lim (deltas access glob now entries since) = some c ∧
      c.Inv lim since (deltas access glob now entries since) ∧
      exportIncrementalBoundedComplete lim access glob since now entries = some (c.page lim) := by
  have hsub := @deltas_sublist access glob now entries since
  have hcost' : ∀ r ∈ deltas access glob now entries since, r.cost ≤ lim.maxBytes :=
    fun r hr => hcost r (hsub.subset hr)
  obtain ⟨c, hc, inv⟩ := pushAll_inv (inv_init lim since) hpos hcost'
    (by simpa using hd.sublist hsub)
  refine ⟨c, hc, by simpa using inv, ?_⟩
  unfold exportIncrementalBoundedComplete exportIncremental
  rw [if_neg (by omega)]
  exact congrArg (Option.map _) hc

/-- Under the condition the page covers its records. -/
lemma export_covers (hbytes : 0 < lim.maxBytes)
    (hkeeps : exportKeepsOrder lim access glob now entries since = true) :
    ∃ p, exportIncrementalBoundedComplete lim access glob since now entries = some p ∧
      p.Covers (deltas access glob now entries since) := by
  obtain ⟨c, hc, inv, hexport⟩ := export_collects hpos hcost hd hbytes since
  have hsub := @deltas_sublist access glob now entries since
  have hall := (noGap_pushAll_iff (inv_init lim since) hpos
    (fun r hr => hcost r (hsub.subset hr)) (by simpa using hd.sublist hsub)
    (by simp [NoGap])).mpr hkeeps
  have hgap := hall (deltas access glob now entries since).length c (by rwa [take_length])
  rw [take_length] at hgap
  exact ⟨_, hexport, (covers_page_iff inv hpos fun r hr => lt_of_mem_deltas hr).mpr hgap⟩

/-- Following the resume points under the condition delivers every record exactly once. -/
lemma follow_perm (hbytes : 0 < lim.maxBytes) {n : ℕ}
    (hn : (deltas access glob now entries since).length < n)
    (hkeeps : followKeepsOrder lim access glob now entries n since = true) :
    ∃ ds, follow lim access glob now entries n since = some ds ∧
      ds.Perm (deltas access glob now entries since) := by
  induction n generalizing since with
  | zero => omega
  | succ n ih =>
    obtain ⟨c, hc, inv, hexport⟩ := export_collects hpos hcost hd hbytes since
    have hdist := hd.sublist (deltas_sublist since)
    have hpage : (c.page lim).records.Perm c.recs := perm_insertionSort _ _
    simp only [followKeepsOrder, hexport, all_some, Bool.and_eq_true] at hkeeps
    simp only [follow, hexport, bind_some]
    cases ht : c.truncated with
    | false =>
      have hcomplete : (c.page lim).complete = true := by simp [page, ht]
      rw [if_pos hcomplete]
      refine ⟨_, rfl, hpage.trans ?_⟩
      exact (perm_ext_iff_of_nodup inv.distinct.nodup hdist.nodup).mpr fun r =>
        ⟨fun h => inv.subset h, fun h => inv.truncated ht h⟩
    | true =>
      have hcomplete : (c.page lim).complete = false := by simp [page, ht]
      rw [hcomplete, Bool.false_or] at hkeeps
      rw [hcomplete, if_neg Bool.false_ne_true]
      obtain ⟨hnil, -⟩ | ⟨l, hl, hres, hmax⟩ := page_resume (c := c) hpos
      · exact absurd hnil (inv.nonempty ht)
      have hlater := @deltas_later access glob now entries since (c.page lim).resume
        (by rw [hres]; exact (lt_of_mem_deltas (inv.subset hl)).le)
      have hshorter : (deltas access glob now entries (c.page lim).resume).length < n := by
        have : (deltas access glob now entries (c.page lim).resume).length <
            (deltas access glob now entries since).length := by
          rw [hlater]
          refine length_filter_lt_length_iff_exists.mpr ⟨l, inv.subset hl, ?_⟩
          simp [hres]
        omega
      obtain ⟨ds, hds, hperm⟩ := ih hshorter hkeeps.2
      refine ⟨_, by rw [hds]; rfl, ?_⟩
      -- the page is what is not after its resume point
      have hfront : c.recs.Perm ((deltas access glob now entries since).filter fun r =>
          !decide ((c.page lim).resume < r.changeSeq)) := by
        refine (perm_ext_iff_of_nodup inv.distinct.nodup (hdist.nodup.filter _)).mpr fun r => ?_
        rw [mem_filter, Bool.not_eq_true', decide_eq_false_iff_not, not_lt]
        constructor
        · intro hr
          exact ⟨inv.subset hr, by rw [hres]; exact hmax r hr⟩
        · rintro ⟨hr, hle⟩
          obtain ⟨p, hp, hcovers⟩ := export_covers hpos hcost hd hbytes hkeeps.1
          obtain rfl := some.inj (hexport.symm.trans hp)
          exact hpage.mem_iff.mp (hcovers r hr hle)
      rw [hlater] at hperm
      refine ((hpage.trans hfront).append hperm).trans ?_
      exact perm_append_comm.trans (filter_append_perm _ _)

end

/-- The beginnings of what is left of a list are what is left of its beginnings. -/
lemma exists_take_filter {α : Type*} (p : α → Bool) (l : List α) (m : ℕ) :
    ∃ n, (l.take n).filter p = (l.filter p).take m := by
  obtain ⟨front, hfront, heq⟩ := prefix_filter_iff.mp (List.take_prefix m (l.filter p))
  exact ⟨front.length, by rw [← prefix_iff_eq_take.mp hfront, heq]⟩

lemma exists_deltas_take (since m : ℕ) : ∃ n, deltas access glob now (entries.take n) since =
    (deltas access glob now entries since).take m := by
  obtain ⟨n, hn⟩ := exists_take_filter (Entry.wanted access glob since now) entries m
  exact ⟨n, by rw [deltas, deltas, hn, map_take]⟩

lemma exists_take_deltas (since n : ℕ) : ∃ m, deltas access glob now (entries.take n) since =
    (deltas access glob now entries since).take m := by
  have hprefix : deltas access glob now (entries.take n) since <+:
      deltas access glob now entries since := ((List.take_prefix n entries).filter _).map _
  exact ⟨_, prefix_iff_eq_take.mp hprefix⟩

/-- An export skips nothing, at any moment of its walk, exactly when each record meets the
condition; and where that is so for all exports that follow one another, the records that they
deliver are those after the first sequence, each once. -/
theorem export_skips_nothing_iff (hpos : 0 < lim.maxRecords) (hbytes : 0 < lim.maxBytes)
    (hcost : ∀ r ∈ deltas access glob now entries 0, r.cost ≤ lim.maxBytes)
    (hd : SeqsDistinct (deltas access glob now entries 0)) (since : ℕ) :
    ((∀ n, ∃ p, exportIncrementalBoundedComplete lim access glob since now (entries.take n) =
        some p ∧ p.Covers (deltas access glob now (entries.take n) since)) ↔
      exportKeepsOrder lim access glob now entries since = true) ∧
    (followKeepsOrder lim access glob now entries (entries.length + 1) since = true →
      ∃ ds, follow lim access glob now entries (entries.length + 1) since = some ds ∧
        ds.Perm (deltas access glob now entries since)) := by
  have hsub := @deltas_sublist access glob now entries since
  have hall := noGap_pushAll_iff (inv_init lim since) hpos
    (fun r hr => hcost r (hsub.subset hr)) (by simpa using hd.sublist hsub)
    (by simp [NoGap])
  -- the export of a beginning collects from a beginning of the records
  have hpart : ∀ n, ∃ c, (init since).pushAll lim
      (deltas access glob now (entries.take n) since) = some c ∧
      exportIncrementalBoundedComplete lim access glob since now (entries.take n) =
        some (c.page lim) ∧ ((c.page lim).Covers (deltas access glob now (entries.take n) since) ↔
          c.NoGap (deltas access glob now (entries.take n) since)) := by
    intro n
    obtain ⟨m, hm⟩ := @exists_take_deltas access glob now entries 0 n
    have hpre : (deltas access glob now (entries.take n) 0).Sublist
        (deltas access glob now entries 0) := hm ▸ take_sublist _ _
    obtain ⟨c, hc, inv, hexport⟩ := export_collects hpos
      (fun r hr => hcost r (hpre.subset hr)) (hd.sublist hpre) hbytes since
    exact ⟨c, hc, hexport, covers_page_iff inv hpos fun r hr => lt_of_mem_deltas hr⟩
  refine ⟨⟨fun h => hall.mp fun m c hc => ?_, fun h n => ?_⟩, fun h => ?_⟩
  · obtain ⟨n, hn⟩ := @exists_deltas_take access glob now entries since m
    obtain ⟨c', hc', hexport, hcovers⟩ := hpart n
    rw [hn] at hc' hcovers
    obtain rfl : c' = c := Option.some.inj (hc'.symm.trans hc)
    obtain ⟨p, hp, hpc⟩ := h n
    rw [hexport, some.injEq] at hp
    rw [hn, ← hp] at hpc
    exact hcovers.mp hpc
  · obtain ⟨c, hc, hexport, hcovers⟩ := hpart n
    obtain ⟨m, hm⟩ := @exists_take_deltas access glob now entries since n
    refine ⟨_, hexport, hcovers.mpr ?_⟩
    rw [hm] at hc ⊢
    exact hall.mpr h m c hc
  · refine follow_perm hpos hcost hd hbytes ?_ h
    rw [deltas, length_map]
    exact Nat.lt_succ_of_le (length_filter_le _ _)

end Export

namespace Sample

/-- A record whose value has the given length. -/
def entry (key : UInt8) (length seq : ℕ) : Entry :=
  ⟨[key], ⟨List.replicate length 120, 0, seq, 0, 0, false⟩⟩

def limits : Limits := ⟨10, 400⟩

/-- The second record does not fit beside the first, and the third does. -/
def uneven : List Entry := [entry 97 39 1, entry 98 89 2, entry 99 9 3]

/-- The page and the pages that follow leave out the second record. -/
theorem export_skips_second :
    (∀ r ∈ deltas cleared (fun _ => true) 0 uneven 0, r.cost ≤ limits.maxBytes) ∧
    SeqsDistinct (deltas cleared (fun _ => true) 0 uneven 0) ∧
    (exportIncrementalBoundedComplete limits cleared (fun _ => true) 0 0 uneven).map
        (fun p => (p.records.map changeSeq, p.resume, p.complete)) =
      some ([1, 3], 3, false) ∧
    (follow limits cleared (fun _ => true) 0 uneven (uneven.length + 1) 0).map
        (List.map changeSeq) = some [1, 3] := by
  unfold SeqsDistinct
  decide +kernel

/-- Records of one size, in no order of their sequences. -/
def even : List Entry := [entry 97 9 4, entry 98 9 1, entry 99 9 3, entry 100 9 2]

theorem export_skips_nothing_even :
    (∀ n, ∃ p, exportIncrementalBoundedComplete limits cleared (fun _ => true) 0 0 (even.take n) =
        some p ∧ p.Covers (deltas cleared (fun _ => true) 0 (even.take n) 0)) ∧
    ∃ ds, follow limits cleared (fun _ => true) 0 even (even.length + 1) 0 = some ds ∧
      ds.Perm (deltas cleared (fun _ => true) 0 even 0) := by
  have h := @export_skips_nothing_iff limits cleared (fun _ => true) 0 even (by decide) (by decide)
    (by decide) (by unfold SeqsDistinct; decide) 0
  exact ⟨h.1.mpr (by decide), h.2 (by decide +kernel)⟩

end Sample

end Qihse.Kv
