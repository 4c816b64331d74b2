import Qihse.Mvcc.View

/-!
# Reading against a map

The reference of a read is a plain map to which the operations that the snapshot sees are applied
in order. The newest-first walk agrees with it wherever no transaction deletes a row that has a
version of a younger one (`LateDeleteFree`): then a seen intent hides everything below it, and the
answer is what the newest settled node says.
-/

namespace Qihse.Mvcc

open List Option Store Version Change

/-! ### The reference -/

abbrev Reference : Type := UInt8 → Key → Option Value

def Reference.empty : Reference := fun _ _ => none

/-- What a change leaves of a value. -/
def Change.onValue : Change → Option Value
  | .insert value => some value
  | .update value => some value
  | .delete => none

def Reference.apply (r : Reference) (m : Mutation) : Reference :=
  fun e k => if e = m.engineId ∧ k = m.key then m.change.onValue else r e k

/-- The operations of committed transactions with an id up to the snapshot, applied in order. -/
def reference (committed : ℕ → Bool) (snapshot : ℕ) (log : List (ℕ × Mutation)) : Reference :=
  ((log.filter fun x => decide (x.1 ≤ snapshot) && committed x.1).map Prod.snd).foldl
    Reference.apply Reference.empty

/-! ### Stores and the operations they were built by -/

/-- Apply the operations of a log one after the other, all of them with success. -/
def Store.applyAll (s : Store) : List (ℕ × Mutation) → Option Store
  | [] => some s
  | (t, m) :: log => (s.mutate t m).bind fun s' => s'.applyAll log

lemma Store.applyAll_append (s : Store) (log log' : List (ℕ × Mutation)) :
    s.applyAll (log ++ log') = (s.applyAll log).bind fun s' => s'.applyAll log' := by
  induction log generalizing s with
  | nil => rfl
  | cons x log ih =>
    obtain ⟨t, m⟩ := x
    simp only [cons_append, applyAll]
    cases s.mutate t m with
    | none => rfl
    | some s' => simpa using ih s'

/-- No transaction deletes a row that has a version of a younger one. -/
def LateDeleteFree (log : List (ℕ × Mutation)) : Prop :=
  log.Pairwise fun a b => a.2.engineId = b.2.engineId → a.2.key = b.2.key →
    a.2.change ≠ .delete → b.2.change = .delete → a.1 ≤ b.1

/-! ### Chains -/

/-- Each mark in the chain names a node above it, or one of the ids in `ids`. -/
def Marked (ids : List ℕ) : List Version → Prop
  | [] => True
  | v :: below => (v.xmax ≠ 0 → v.xmax ∈ ids) ∧ Marked (v.xmin :: ids) below

/-- An intent is not older than the data below it. -/
def IntentsYoungest : List Version → Prop
  | [] => True
  | v :: below =>
    (v.isDelete → ∀ w ∈ below, ¬ w.isDelete → w.xmin ≤ v.xmin) ∧ IntentsYoungest below

/-- What the newest settled node of a chain says. -/
def newest (committed : ℕ → Bool) (snapshot : ℕ) (chain : List Version) : Option Value :=
  match chain.find? (settled committed snapshot) with
  | some v => if v.isDelete then none else some v.value
  | none => none

section Chains

variable {committed : ℕ → Bool} {snapshot txn : ℕ} {chain : List Version}

variable {ids : List ℕ}

lemma Marked.mono {ids' : List ℕ} (h : Marked ids chain) (hsub : ids ⊆ ids') :
    Marked ids' chain := by
  induction chain generalizing ids ids' with
  | nil => trivial
  | cons v below ih =>
    exact ⟨fun hv => hsub (h.1 hv), ih h.2 (cons_subset_cons _ hsub)⟩

lemma Marked.supersede (h : Marked ids chain) (ht : txn ∈ ids) :
    Marked ids (supersede txn chain) := by
  induction chain generalizing ids with
  | nil => trivial
  | cons v below ih =>
    unfold supersede
    split_ifs with hdel hmax
    · exact ⟨h.1, ih h.2 (mem_cons_of_mem _ ht)⟩
    · exact ⟨fun _ => ht, h.2⟩
    · exact h

lemma Marked.onChain (h : Marked [] chain) (c : Change) : Marked [] (c.onChain txn chain) := by
  have hup : Marked [txn] chain := h.mono (nil_subset _)
  cases c with
  | insert => exact ⟨fun hc => absurd rfl hc, hup⟩
  | update => exact ⟨fun hc => absurd rfl hc, hup.supersede (mem_singleton_self txn)⟩
  | delete =>
    unfold Change.onChain
    split_ifs
    · trivial
    · exact ⟨fun hc => absurd rfl hc, hup⟩

/-- Superseding marks a version and changes nothing else of any node. -/
lemma exists_of_mem_supersede {w : Version} (hw : w ∈ supersede txn chain) :
    ∃ v ∈ chain, v.xmin = w.xmin ∧ v.isDelete = w.isDelete ∧ v.value = w.value := by
  induction chain with
  | nil => simp [supersede] at hw
  | cons v below ih =>
    unfold supersede at hw
    split_ifs at hw with hdel hmax
    · obtain rfl | hw := mem_cons.mp hw
      · exact ⟨w, by simp, rfl, rfl, rfl⟩
      · obtain ⟨u, hu, h⟩ := ih hw
        exact ⟨u, mem_cons_of_mem _ hu, h⟩
    · obtain rfl | hw := mem_cons.mp hw
      · exact ⟨v, by simp, rfl, rfl, rfl⟩
      · exact ⟨w, mem_cons_of_mem _ hw, rfl, rfl, rfl⟩
    · exact ⟨w, hw, rfl, rfl, rfl⟩

lemma IntentsYoungest.supersede (h : IntentsYoungest chain) :
    IntentsYoungest (supersede txn chain) := by
  induction chain with
  | nil => trivial
  | cons v below ih =>
    unfold Store.supersede
    split_ifs with hdel hmax
    · refine ⟨fun hd w hw hwd => ?_, ih h.2⟩
      obtain ⟨u, hu, hmin, hdel', -⟩ := exists_of_mem_supersede hw
      rw [← hmin]
      exact h.1 hd u hu (by rw [hdel']; exact hwd)
    · exact ⟨fun hd => absurd hd hdel, h.2⟩
    · exact h

lemma newest_supersede :
    newest committed snapshot (supersede txn chain) = newest committed snapshot chain := by
  induction chain with
  | nil => rfl
  | cons v below ih =>
    unfold supersede
    split_ifs with hdel hmax
    · unfold newest at ih ⊢
      rw [find?_cons, find?_cons]
      cases v.settled committed snapshot with
      | true => rfl
      | false => exact ih
    · unfold newest
      rw [find?_cons, find?_cons]
      have hset : settled committed snapshot { v with xmax := txn } =
          v.settled committed snapshot := rfl
      rw [hset]
      cases v.settled committed snapshot <;> rfl
    · rfl

lemma newest_cons (v : Version) (below : List Version) : newest committed snapshot (v :: below) =
      if v.settled committed snapshot then (if v.isDelete then none else some v.value)
      else newest committed snapshot below := by
  unfold newest
  rw [find?_cons]
  cases v.settled committed snapshot <;> rfl

/-- A node that is not settled is not seen. -/
lemma Version.see_of_not_settled {v : Version} (h : v.settled committed snapshot = false) :
    v.see committed snapshot = none := by
  unfold see
  rw [h, if_neg Bool.false_ne_true]
  split_ifs with hdel hvis
  · rfl
  · have := settled_of_visible hvis
    simp [h] at this
  · rfl

/-- Below an intent that is younger than all data, nothing is answered. -/
lemma answer_eq_none {d : ℕ} {ds : List ℕ} {nodes : List Seen} (hd : d ∈ ds)
    (h : ∀ x value, Seen.data x value ∈ nodes → x ≤ d) : answer ds nodes = none := by
  induction nodes generalizing ds with
  | nil => rfl
  | cons n nodes ih =>
    have hrest : ∀ x value, Seen.data x value ∈ nodes → x ≤ d :=
      fun x value hx => h x value (mem_cons_of_mem _ hx)
    cases n with
    | intent => exact ih (by simp [hd]) hrest
    | data x value =>
      have hany : ds.any (fun d => decide (x ≤ d)) = true := by
        simp only [List.any_eq_true, decide_eq_true_eq]
        exact ⟨d, hd, h x value (by simp)⟩
      simp only [answer, hany, if_true]
      exact ih hd hrest

lemma mem_view_data {x : ℕ} {value : Value}
    (h : Seen.data x value ∈ view committed snapshot chain) :
    ∃ v ∈ chain, ¬ v.isDelete ∧ v.xmin = x := by
  obtain ⟨v, hv, hsee⟩ := mem_filterMap.mp h
  unfold see at hsee
  split_ifs at hsee with hdel hset hvis
  · simp at hsee
  · simp only [some.injEq, Seen.data.injEq] at hsee
    exact ⟨v, hv, hdel, hsee.1⟩

/-- The answer is what the newest settled node says, once the nodes above are passed. -/
lemma answer_view (hmarked : Marked ids chain) (hyoung : IntentsYoungest chain)
    (hown : IntentsOwn chain) (hids : ∀ i ∈ ids, i ≤ snapshot → committed i = false) :
    answer [] (view committed snapshot chain) = newest committed snapshot chain := by
  induction chain generalizing ids with
  | nil => rfl
  | cons v below ih =>
    rw [newest_cons]
    cases hset : v.settled committed snapshot with
    | false =>
      have hview : view committed snapshot (v :: below) = view committed snapshot below := by
        simp [view, see_of_not_settled hset]
      rw [hview, if_neg (by simp)]
      refine ih hmarked.2 hyoung.2 (fun w hw => hown w (mem_cons_of_mem _ hw)) ?_
      intro i hi hle
      obtain rfl | hi := mem_cons.mp hi
      · simpa [settled, hle] using hset
      · exact hids i hi hle
    | true =>
      cases hdel : v.isDelete with
      | true =>
        have hview : view committed snapshot (v :: below) =
            .intent v.deleteSnapshot :: view committed snapshot below := by
          simp [view, see, hdel, hset]
        rw [hview, if_pos rfl]
        change answer [v.deleteSnapshot] _ = none
        refine answer_eq_none (mem_singleton_self _) ?_
        intro x value hx
        obtain ⟨w, hw, hwd, rfl⟩ := mem_view_data hx
        rw [hown v (by simp) hdel]
        exact hyoung.1 hdel w hw hwd
      | false =>
        -- a mark of this version names a node above, and none of those is settled
        have hvis : v.visible committed snapshot = true := by
          simp only [settled, Bool.and_eq_true, decide_eq_true_eq] at hset
          unfold visible
          rw [if_neg (by omega), if_neg (by simp [hset.2])]
          split_ifs with hzero hlt
          · rfl
          · rfl
          · have := hids v.xmax (hmarked.1 hzero) (by omega)
            simp [this]
        have hview : view committed snapshot (v :: below) =
            .data v.xmin v.value :: view committed snapshot below := by
          simp [view, see, hdel, hvis]
        rw [hview]
        simp [answer]

end Chains

/-! ### Reading a store built by a log -/

/-- What holds of the chain of a key in a store built by `log`. -/
structure Store.Follows (s : Store) (log : List (ℕ × Mutation)) : Prop where
  own : s.Own
  marked : ∀ e k, Marked [] (s.chain e k)
  data : ∀ e k, ∀ v ∈ s.chain e k, ¬ v.isDelete →
    ∃ x ∈ log, x.1 = v.xmin ∧ x.2.engineId = e ∧ x.2.key = k ∧ x.2.change ≠ .delete
  newest : ∀ committed snapshot e k,
    newest committed snapshot (s.chain e k) = reference committed snapshot log e k

section Follows

variable {s s' : Store} {log : List (ℕ × Mutation)} {t : ℕ} {m : Mutation}

lemma reference_concat (committed : ℕ → Bool) (snapshot : ℕ) (e : UInt8) (k : Key) :
    reference committed snapshot (log ++ [(t, m)]) e k =
      if (t ≤ snapshot ∧ committed t = true) ∧ e = m.engineId ∧ k = m.key then m.change.onValue
      else reference committed snapshot log e k := by
  unfold reference
  rw [filter_append, map_append, foldl_append]
  by_cases h : t ≤ snapshot ∧ committed t = true
  · simp [h, Reference.apply]
  · have hfilter : [(t, m)].filter (fun x => decide (x.1 ≤ snapshot) && committed x.1) = [] := by
      simp only [filter_eq_nil_iff, mem_singleton]
      rintro x rfl
      simpa using h
    rw [hfilter, if_neg fun hc => h hc.1]
    rfl

/-- A new operation on a chain is what the newest node says, if the snapshot sees it. -/
lemma newest_onChain (committed : ℕ → Bool) (snapshot : ℕ) (c : Change) (chain : List Version) :
    newest committed snapshot (c.onChain t chain) =
      if t ≤ snapshot ∧ committed t = true then c.onValue else newest committed snapshot chain := by
  have hsettled : ∀ {v : Version} {x y : Option Value}, v.xmin = t →
      (if v.settled committed snapshot then x else y) =
        if t ≤ snapshot ∧ committed t = true then x else y := by
    intro v x y hv
    simp [settled, hv]
  cases c with
  | insert =>
    unfold onChain
    rw [newest_cons, hsettled rfl]
    rfl
  | update =>
    unfold onChain
    rw [newest_cons, hsettled rfl, newest_supersede]
    rfl
  | delete =>
    unfold onChain
    split_ifs with hnil hrel hrel
    · rfl
    · rw [hnil]
    · rw [newest_cons, hsettled rfl, if_pos hrel]
      rfl
    · rw [newest_cons, hsettled rfl, if_neg hrel]

lemma Store.follows_empty : empty.Follows [] where
  own := own_empty
  marked := fun _ _ => trivial
  data := fun e k v hv => by cases hv
  newest := fun _ _ _ _ => rfl

section

variable (h : s.Follows log)
include h

lemma Store.Follows.mutate (hm : s.mutate t m = some s') : s'.Follows (log ++ [(t, m)]) where
  own := h.own.mutate hm
  marked e k := by
    rw [chain_mutate hm]
    split_ifs
    · exact (h.marked e k).onChain m.change
    · exact h.marked e k
  data e k v hv hd := by
    have hold : ∀ w ∈ s.chain e k, w.xmin = v.xmin → ¬ w.isDelete →
        ∃ x ∈ log ++ [(t, m)], x.1 = v.xmin ∧ x.2.engineId = e ∧ x.2.key = k ∧
          x.2.change ≠ .delete := by
      intro w hw hmin hwd
      obtain ⟨x, hx, hx'⟩ := h.data e k w hw hwd
      exact ⟨x, by simp [hx], by rw [← hmin]; exact hx'⟩
    rw [chain_mutate hm] at hv
    split_ifs at hv with hk
    · cases hc : m.change with
      | insert =>
        rw [hc] at hv
        obtain rfl | hv := mem_cons.mp hv
        · exact ⟨(t, m), by simp, rfl, hk.1.symm, hk.2.symm, by simp [hc]⟩
        · exact hold v hv rfl hd
      | update =>
        rw [hc] at hv
        obtain rfl | hv := mem_cons.mp hv
        · exact ⟨(t, m), by simp, rfl, hk.1.symm, hk.2.symm, by simp [hc]⟩
        · obtain ⟨w, hw, hmin, hdel, -⟩ := exists_of_mem_supersede hv
          exact hold w hw hmin (by rw [hdel]; exact hd)
      | delete =>
        rw [hc] at hv
        unfold onChain at hv
        split_ifs at hv
        · simp at hv
        · obtain rfl | hv := mem_cons.mp hv
          · exact absurd rfl hd
          · exact hold v hv rfl hd
    · exact hold v hv rfl hd
  newest committed snapshot e k := by
    rw [reference_concat, chain_mutate hm]
    by_cases hk : e = m.engineId ∧ k = m.key
    · rw [if_pos hk, newest_onChain, h.newest]
      simp [hk]
    · rw [if_neg hk, h.newest, if_neg fun hc => hk hc.2]

lemma Store.Follows.applyAll {rest : List (ℕ × Mutation)}
    (hs : s.applyAll rest = some s') : s'.Follows (log ++ rest) := by
  induction rest generalizing s log with
  | nil =>
    simp only [applyAll, some.injEq] at hs
    subst hs
    simpa using h
  | cons x rest ih =>
    obtain ⟨t, m⟩ := x
    simp only [applyAll, bind_eq_some_iff] at hs
    obtain ⟨s1, hm, hs⟩ := hs
    simpa using ih (h.mutate hm) hs

section

variable (hyoung : ∀ e k, IntentsYoungest (s.chain e k))
include hyoung

/-- Deleting a row that a younger transaction wrote nothing to keeps the intents youngest. -/
lemma Store.Follows.young_mutate (hm : s.mutate t m = some s')
    (hdel : m.change = .delete → ∀ x ∈ log, x.2.engineId = m.engineId → x.2.key = m.key →
      x.2.change ≠ .delete → x.1 ≤ t) (e : UInt8) (k : Key) : IntentsYoungest (s'.chain e k) := by
  rw [chain_mutate hm]
  split_ifs with hk
  · cases hc : m.change with
    | insert => exact ⟨by simp [create], hyoung e k⟩
    | update => exact ⟨by simp [create], (hyoung e k).supersede⟩
    | delete =>
      unfold onChain
      split_ifs
      · trivial
      · refine ⟨fun _ w hw hwd => ?_, hyoung e k⟩
        obtain ⟨x, hx, hmin, he, hk', hput⟩ := h.data e k w hw hwd
        rw [← hmin]
        exact hdel hc x hx (he.trans hk.1) (hk'.trans hk.2) hput
  · exact hyoung e k

/-- Without late deletes the intents of a chain are the youngest. -/
lemma Store.Follows.intentsYoungest {rest : List (ℕ × Mutation)} (hs : s.applyAll rest = some s')
    (hfree : LateDeleteFree (log ++ rest)) (e : UInt8) (k : Key) :
    IntentsYoungest (s'.chain e k) := by
  induction rest generalizing s log with
  | nil =>
    simp only [Store.applyAll, some.injEq] at hs
    subst hs
    exact hyoung e k
  | cons x rest ih =>
    obtain ⟨t, m⟩ := x
    simp only [Store.applyAll, bind_eq_some_iff] at hs
    obtain ⟨s1, hm, hs⟩ := hs
    have hpair := pairwise_append.mp hfree
    refine ih (h.mutate hm) (h.young_mutate hyoung hm ?_) hs (by simpa using hfree)
    intro hc x hx he hk hput
    exact hpair.2.2 x hx (t, m) (by simp) he hk hput hc

/-- A store that follows a log, with its intents youngest, is read as the reference of the log. -/
lemma Store.Follows.read_eq (e : UInt8) (k : Key) (snapshot : ℕ) (committed : ℕ → Bool) :
    s.read e k snapshot committed = reference committed snapshot log e k := by
  rw [h.own.read_eq, ← h.newest]
  exact answer_view (h.marked e k) (hyoung e k) (h.own e k) (by simp)

end

end

end Follows

/-! ### What the operations of a log leave in its store -/

variable {s : Store} {t : ℕ} {m : Mutation}

lemma Store.length_key_of_mutate {s' : Store} (hm : s.mutate t m = some s')
    (hput : m.change ≠ .delete) : m.key.length < maxKey := by
  obtain ⟨e, k, c⟩ := m
  by_contra hlen
  have hlen : maxKey ≤ k.length := not_lt.mp hlen
  cases c with
  | insert => simp [mutate, insert, hlen] at hm
  | update => simp [mutate, update, hlen] at hm
  | delete => exact hput rfl

/-- Where a writing call with a short key fails, it is a delete of a row without versions. -/
lemma Store.mutate_eq_none (hm : s.mutate t m = none)
    (hlen : m.change ≠ .delete → m.key.length < maxKey) :
    m.change = .delete ∧ s.chain m.engineId m.key = [] := by
  obtain ⟨e, k, c⟩ := m
  cases c with
  | insert | update =>
    have hlen : ¬ maxKey ≤ k.length := not_le.mpr (hlen (by simp))
    simp only [mutate, update, insert, hlen, if_false] at hm
    cases hr : s.rowLookup e k <;> simp [hr] at hm
  | delete =>
    refine ⟨rfl, ?_⟩
    simp only [mutate, delete] at hm
    cases hr : s.rowLookup e k with
    | none => simp [chain, hr]
    | some =>
      rw [chain_of_rowLookup hr]
      by_contra hne
      simp [hr, hne] at hm

lemma mem_supersede {txn : ℕ} {chain : List Version} {v : Version} (hv : v ∈ chain) :
    ∃ w ∈ supersede txn chain, w.xmin = v.xmin ∧ w.isDelete = v.isDelete := by
  induction chain with
  | nil => cases hv
  | cons q below ih =>
    unfold supersede
    obtain rfl | hv := mem_cons.mp hv
    · split_ifs with hdel hmax
      · exact ⟨v, by simp, rfl, rfl⟩
      · exact ⟨_, mem_cons_self, rfl, rfl⟩
      · exact ⟨v, by simp, rfl, rfl⟩
    · split_ifs with hdel hmax
      · obtain ⟨w, hw, h⟩ := ih hv
        exact ⟨w, mem_cons_of_mem _ hw, h⟩
      · exact ⟨v, mem_cons_of_mem _ hv, rfl, rfl⟩
      · exact ⟨v, mem_cons_of_mem _ hv, rfl, rfl⟩

/-- No writing call removes a version. -/
lemma Store.mem_chain_mutate {s' : Store} (hm : s.mutate t m = some s') {e : UInt8} {k : Key}
    {v : Version} (hv : v ∈ s.chain e k) :
    ∃ w ∈ s'.chain e k, w.xmin = v.xmin ∧ w.isDelete = v.isDelete := by
  rw [chain_mutate hm]
  split_ifs
  · cases m.change with
    | insert => exact ⟨v, mem_cons_of_mem _ hv, rfl, rfl⟩
    | update =>
      obtain ⟨w, hw, h⟩ := mem_supersede hv
      exact ⟨w, mem_cons_of_mem _ hw, h⟩
    | delete =>
      unfold onChain
      rw [if_neg (ne_nil_of_mem hv)]
      exact ⟨v, mem_cons_of_mem _ hv, rfl, rfl⟩
  · exact ⟨v, hv, rfl, rfl⟩

variable {log : List (ℕ × Mutation)}

/-- Every insert and update of a log has left its version, under a key that is short enough. -/
lemma Store.mem_chain_applyAll (hs : empty.applyAll log = some s) {x : ℕ × Mutation}
    (hx : x ∈ log) (hput : x.2.change ≠ .delete) : x.2.key.length < maxKey ∧
      ∃ v ∈ s.chain x.2.engineId x.2.key, v.xmin = x.1 ∧ v.isDelete = false := by
  induction log using List.reverseRecOn generalizing s with
  | nil => cases hx
  | append_singleton log y ih =>
    rw [applyAll_append, bind_eq_some_iff] at hs
    obtain ⟨s1, hs1, hs⟩ := hs
    obtain ⟨t, m⟩ := y
    simp only [applyAll, bind_eq_some_iff, some.injEq] at hs
    obtain ⟨s2, hm, rfl⟩ := hs
    obtain hx | hx := mem_append.mp hx
    · obtain ⟨hlen, v, hv, hmin, hdel⟩ := ih hs1 hx
      obtain ⟨w, hw, hwmin, hwdel⟩ := mem_chain_mutate hm hv
      exact ⟨hlen, w, hw, hwmin.trans hmin, hwdel.trans hdel⟩
    · rw [mem_singleton] at hx
      subst hx
      refine ⟨length_key_of_mutate hm hput, ?_⟩
      rw [chain_mutate hm, if_pos ⟨rfl, rfl⟩]
      cases hc : m.change with
      | insert | update => exact ⟨_, mem_cons_self, rfl, rfl⟩
      | delete => exact absurd hc hput

/-- A delete that finds nothing to delete is one that the reference does not notice. -/
lemma Store.Follows.skip (h : s.Follows log) (hdel : m.change = .delete)
    (hnil : s.chain m.engineId m.key = []) : s.Follows (log ++ [(t, m)]) where
  own := h.own
  marked := h.marked
  data e k v hv hd := by
    obtain ⟨x, hx, h'⟩ := h.data e k v hv hd
    exact ⟨x, by simp [hx], h'⟩
  newest committed snapshot e k := by
    rw [reference_concat, h.newest]
    split_ifs with hk
    · rw [← h.newest, hk.2.1, hk.2.2, hnil, hdel]
      rfl
    · rfl

/-- Reading a store that a log without late deletes built is reading the reference of that log. -/
lemma Store.read_eq_reference (hs : empty.applyAll log = some s)
    (hfree : LateDeleteFree log) (e : UInt8) (k : Key) (snapshot : ℕ) (committed : ℕ → Bool) :
    s.read e k snapshot committed = reference committed snapshot log e k := by
  have hfollows : s.Follows log := by simpa using follows_empty.applyAll hs
  exact hfollows.read_eq
    (follows_empty.intentsYoungest (fun _ _ => trivial) hs (by simpa using hfree)) e k
    snapshot committed

end Qihse.Mvcc
