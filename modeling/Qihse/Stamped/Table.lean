import Mathlib

/-!
# Tables of places with stamped owners

Updates give places to owners, and a table keeps the last stamp of each owner: an update with a
lower stamp than that of its owner is passed over, one with the stamp zero never is. An update for
an owner that the table does not know takes the places from whoever has them. `converges_iff` says
for which updates the owners do not depend on the order in which they come, and how often.
-/

namespace Stamped

open List Option Function

structure Update (P O : Type) where
  owner : O
  stamp : ℕ
  covers : P → Bool

/-- The stamps of the owners that are known, and who has which place. -/
structure Table (P O : Type) where
  stamp : O → Option ℕ
  owner : P → Option O

namespace Table

variable {P O : Type}

/-- Who has the places of an update after it. -/
def target (t : Table P O) (u : Update P O) : Option O := (t.stamp u.owner).map fun _ => u.owner

/-- The update is not passed over. -/
def Takes (t : Table P O) (u : Update P O) : Prop :=
  ∀ e, t.stamp u.owner = some e → u.stamp = 0 ∨ e ≤ u.stamp

/-- The update is taken in some order of the updates. -/
def Live (t : Table P O) (us : List (Update P O)) (u : Update P O) : Prop :=
  ∀ e, t.stamp u.owner = some e →
    u.stamp = 0 ∨ e ≤ u.stamp ∨ ∃ z ∈ us, z.owner = u.owner ∧ z.stamp = 0

/-- The update is taken in every order of the updates. -/
def Firm (t : Table P O) (us : List (Update P O)) (u : Update P O) : Prop :=
  ∀ e, t.stamp u.owner = some e →
    u.stamp = 0 ∨ e ≤ u.stamp ∧ ∀ z ∈ us, z.owner = u.owner → z.stamp ≤ u.stamp

/-- All updates for a place that can be taken are for one owner, who has the place already or has an
update for it that is always taken. -/
def Decided (t : Table P O) (us : List (Update P O)) (p : P) : Prop :=
  ∀ u ∈ us, u.covers p = true → t.Live us u →
    (∀ u' ∈ us, u'.covers p = true → t.Live us u' → t.target u' = t.target u) ∧
      (t.owner p = t.target u ∨
        ∃ u' ∈ us, u'.covers p = true ∧ t.target u' = t.target u ∧ t.Firm us u')

/-- The updates in any order and any number of times, but each at least once. -/
def Delivers (us ds : List (Update P O)) : Prop := ∀ u, u ∈ ds ↔ u ∈ us

variable {t t' : Table P O} {u : Update P O} {us ds : List (Update P O)} {p : P}

lemma Firm.live (h : t.Firm us u) : t.Live us u := fun e he =>
  (h e he).imp_right fun hle => .inl hle.1

/-- The update with the greatest stamp of an owner. -/
lemma exists_greatest (hu : u ∈ us) :
    ∃ z ∈ us, z.owner = u.owner ∧ ∀ x ∈ us, x.owner = u.owner → x.stamp ≤ z.stamp := by
  have hfinite : {x | x ∈ us ∧ x.owner = u.owner}.Finite :=
    (finite_toSet us).subset fun x hx => hx.1
  obtain ⟨z, hz, hmax⟩ := Set.exists_max_image _ Update.stamp hfinite ⟨u, hu, rfl⟩
  exact ⟨z, hz.1, hz.2, fun x hx ho => hmax x ⟨hx, ho⟩⟩

/-! ### Tables that are reached -/

/-- The table was reached from another one by updates of the list. -/
structure Follows (t : Table P O) (us : List (Update P O)) (t' : Table P O) : Prop where
  known : ∀ o, t'.stamp o = none ↔ t.stamp o = none
  given : ∀ o e, t'.stamp o = some e → t.stamp o = some e ∨ ∃ z ∈ us, z.owner = o ∧ z.stamp = e
  above : ∀ o e e', t.stamp o = some e → t'.stamp o = some e' →
    e ≤ e' ∨ ∃ z ∈ us, z.owner = o ∧ z.stamp = 0

lemma Follows.refl (t : Table P O) (us : List (Update P O)) : t.Follows us t where
  known _ := Iff.rfl
  given _ _ he := .inl he
  above o e e' he he' := by
    rw [he, some_inj] at he'
    exact .inl he'.le

lemma Follows.target_eq (h : t.Follows us t') (u : Update P O) : t'.target u = t.target u := by
  have hknown := h.known u.owner
  unfold target
  cases hs : t.stamp u.owner with
  | none => rw [hknown.mpr hs]
  | some =>
    cases hs' : t'.stamp u.owner with
    | none =>
      rw [hknown.mp hs'] at hs
      cases hs
    | some => rfl

lemma Follows.live (h : t.Follows us t') (ht : t'.Takes u) : t.Live us u := by
  intro e he
  cases hs : t'.stamp u.owner with
  | none =>
    rw [(h.known _).mp hs] at he
    cases he
  | some e' =>
    rcases ht e' hs with hzero | hle
    · exact .inl hzero
    · rcases h.above _ e e' he hs with hle' | hz
      · exact .inr (.inl (hle'.trans hle))
      · exact .inr (.inr hz)

lemma Follows.takes (h : t.Follows us t') (hfirm : t.Firm us u) : t'.Takes u := by
  intro e' he'
  cases hs : t.stamp u.owner with
  | none =>
    rw [(h.known _).mpr hs] at he'
    cases he'
  | some e =>
    rcases hfirm e hs with hzero | ⟨hle, hmax⟩
    · exact .inl hzero
    · rcases h.given _ e' he' with hsame | ⟨z, hz, hzo, hze⟩
      · rw [hs, some_inj] at hsame
        exact .inr (hsame ▸ hle)
      · exact .inr (hze ▸ hmax z hz hzo)

/-! ### One update -/

section Apply

variable [DecidableEq O]

def apply (t : Table P O) (u : Update P O) : Table P O :=
  match t.stamp u.owner with
  | none => { t with owner := fun p => if u.covers p then none else t.owner p }
  | some e =>
    if u.stamp ≠ 0 ∧ u.stamp < e then t
    else
      { stamp := Function.update t.stamp u.owner (some u.stamp)
        owner := fun p => if u.covers p then some u.owner else t.owner p }

/-- The table after some updates. -/
def deliver (t : Table P O) (ds : List (Update P O)) : Table P O := ds.foldl apply t

lemma deliver_append (t : Table P O) (ds ds' : List (Update P O)) :
    t.deliver (ds ++ ds') = (t.deliver ds).deliver ds' :=
  foldl_append

lemma apply_of_not_takes (h : ¬ t.Takes u) : t.apply u = t := by
  unfold Takes at h
  push Not at h
  obtain ⟨e, he, hne, hlt⟩ := h
  rw [apply, he]
  exact if_pos ⟨hne, hlt⟩

lemma apply_of_takes {e : ℕ} (h : t.Takes u) (he : t.stamp u.owner = some e) :
    t.apply u = ⟨Function.update t.stamp u.owner (some u.stamp),
      fun p => if u.covers p then some u.owner else t.owner p⟩ := by
  rw [apply, he]
  refine if_neg ?_
  rintro ⟨hne, hlt⟩
  exact (h e he).elim hne hlt.not_ge

lemma owner_apply_of_takes (h : t.Takes u) (p : P) :
    (t.apply u).owner p = if u.covers p then t.target u else t.owner p := by
  cases he : t.stamp u.owner with
  | none =>
    rw [apply, target, he]
    rfl
  | some =>
    rw [apply_of_takes h he, target, he]
    rfl

lemma stamp_apply_of_takes {e : ℕ} (h : t.Takes u) (he : t.stamp u.owner = some e) :
    (t.apply u).stamp = Function.update t.stamp u.owner (some u.stamp) := by
  rw [apply_of_takes h he]

lemma stamp_apply_of_unknown (h : t.stamp u.owner = none) : (t.apply u).stamp = t.stamp := by
  rw [apply, h]

lemma owner_apply_of_not_covers (t : Table P O) (h : u.covers p = false) :
    (t.apply u).owner p = t.owner p := by
  by_cases ht : t.Takes u
  · rw [owner_apply_of_takes ht, if_neg (by rw [h]; exact Bool.false_ne_true)]
  · rw [apply_of_not_takes ht]

lemma stamp_apply_of_ne (t : Table P O) {o : O} (h : u.owner ≠ o) :
    (t.apply u).stamp o = t.stamp o := by
  by_cases ht : t.Takes u
  · cases he : t.stamp u.owner with
    | none => rw [stamp_apply_of_unknown he]
    | some => rw [stamp_apply_of_takes ht he, update_of_ne h.symm]
  · rw [apply_of_not_takes ht]

/-! ### Updates of a list -/

lemma Follows.apply (h : t.Follows us t') (hu : u ∈ us) : t.Follows us (t'.apply u) := by
  by_cases ht : t'.Takes u
  · cases hs : t'.stamp u.owner with
    | none =>
      have hstamp := stamp_apply_of_unknown hs
      exact ⟨hstamp ▸ h.known, hstamp ▸ h.given, hstamp ▸ h.above⟩
    | some e1 =>
      have hstamp := stamp_apply_of_takes ht hs
      refine ⟨fun o => ?_, fun o e he => ?_, fun o e e' he he' => ?_⟩
      · rw [hstamp, update_apply]
        split_ifs with ho
        · rw [ho, ← h.known u.owner, hs]
          simp
        · exact h.known o
      · rw [hstamp, update_apply] at he
        split_ifs at he with ho
        · exact .inr ⟨u, hu, ho.symm, some_inj.mp he⟩
        · exact h.given o e he
      · rw [hstamp, update_apply] at he'
        split_ifs at he' with ho
        · rw [some_inj] at he'
          subst ho he'
          rcases ht e1 hs with hzero | hle
          · exact .inr ⟨u, hu, rfl, hzero⟩
          · exact (h.above _ e e1 he hs).imp_left fun hle' => hle'.trans hle
        · exact h.above o e e' he he'
  · rwa [apply_of_not_takes ht]

/-! ### Runs -/

section

variable (h : t.Follows us t') (hds : ∀ x ∈ ds, x ∈ us)
include h hds

lemma Follows.deliver :
    t.Follows us (t'.deliver ds) :=
  List.foldlRecOn ds _ h fun _ ht x hx => ht.apply (hds x hx)

section

variable {o : Option O} (ho : ∀ x ∈ ds, x.covers p = true → t.Live us x → t.target x = o)
include ho

/-- Once the owner has the place it keeps it. -/
lemma Follows.owner_stays (hp : t'.owner p = o) :
    (t'.deliver ds).owner p = o := by
  refine (List.foldlRecOn (motive := fun t1 => t.Follows us t1 ∧ t1.owner p = o) ds _ ⟨h, hp⟩
    fun t1 ⟨h, hp⟩ x hx => ⟨h.apply (hds x hx), ?_⟩).2
  by_cases ht : t1.Takes x
  · rw [owner_apply_of_takes ht]
    split_ifs with hc
    · rw [h.target_eq]
      exact ho x hx hc (h.live ht)
    · exact hp
  · rwa [apply_of_not_takes ht]

/-- An update that is always taken gives the place to its owner. -/
lemma Follows.owner_taken (hu : u ∈ ds)
    (hcovers : u.covers p = true) (hfirm : t.Firm us u) : (t'.deliver ds).owner p = o := by
  obtain ⟨pre, post, rfl⟩ := append_of_mem hu
  simp only [forall_mem_append, forall_mem_cons] at hds ho
  have hpre := h.deliver hds.1
  rw [deliver_append]
  refine (hpre.apply hds.2.1).owner_stays hds.2.2 ho.2.2 ?_
  rw [owner_apply_of_takes (hpre.takes hfirm), if_pos hcovers, hpre.target_eq]
  exact ho.2.1 hcovers hfirm.live

end

/-- Without updates for a place that can be taken, the place stays as it is. -/
lemma Follows.owner_untouched (hp : ∀ x ∈ ds, x.covers p = true → ¬ t.Live us x) :
    (t'.deliver ds).owner p = t'.owner p := by
  exact h.owner_stays hds (fun x hx hc hl => absurd hl (hp x hx hc)) rfl

end

lemma Decided.owner_eq (h : t.Decided us p) (hds : Delivers us ds) :
    (∀ u ∈ us, u.covers p = true → t.Live us u → (t.deliver ds).owner p = t.target u) ∧
      ((∀ u ∈ us, u.covers p = true → ¬ t.Live us u) → (t.deliver ds).owner p = t.owner p) := by
  have hsub : ∀ x ∈ ds, x ∈ us := fun x hx => (hds x).mp hx
  refine ⟨fun u hu hc hl => ?_, fun hnone => ?_⟩
  · obtain ⟨hsame, hp⟩ := h u hu hc hl
    have ho : ∀ x ∈ ds, x.covers p = true → t.Live us x → t.target x = t.target u :=
      fun x hx => hsame x (hsub x hx)
    rcases hp with hp | ⟨u', hu', hc', -, hfirm⟩
    · exact (Follows.refl t us).owner_stays hsub ho hp
    · exact (Follows.refl t us).owner_taken hsub ho ((hds u').mpr hu') hc' hfirm
  · exact (Follows.refl t us).owner_untouched hsub fun x hx => hnone x (hsub x hx)

/-! ### Orders with different results -/

lemma stamp_deliver_of_ne (t : Table P O) {o : O} (h : ∀ x ∈ ds, x.owner ≠ o) :
    (t.deliver ds).stamp o = t.stamp o :=
  List.foldlRecOn (motive := fun t' => t'.stamp o = t.stamp o) ds _ rfl fun t' ht x hx =>
    (stamp_apply_of_ne t' (h x hx)).trans ht

/-- After the updates for the other owners, and perhaps one with stamp zero, an update that can be
taken is taken. -/
lemma Live.exists_takes (hl : t.Live us u) : ∃ pre : List (Update P O), (∀ x ∈ pre, x ∈ us) ∧
      ((t.deliver (us.filter fun x => decide (x.owner ≠ u.owner))).deliver pre).Takes u := by
  have hstamp : (t.deliver (us.filter fun x => decide (x.owner ≠ u.owner))).stamp u.owner =
      t.stamp u.owner :=
    stamp_deliver_of_ne t fun x hx => of_decide_eq_true (mem_filter.mp hx).2
  by_cases ht : t.Takes u
  · refine ⟨[], fun x hx => absurd hx not_mem_nil, fun e he => ht e ?_⟩
    rwa [← hstamp]
  · unfold Takes at ht
    push Not at ht
    obtain ⟨e, he, hne, hlt⟩ := ht
    obtain ⟨z, hz, hzo, hzero⟩ := ((hl e he).resolve_left hne).resolve_left hlt.not_ge
    refine ⟨[z], fun x hx => mem_singleton.mp hx ▸ hz, ?_⟩
    generalize t.deliver (us.filter fun x => decide (x.owner ≠ u.owner)) = t1 at hstamp
    have hknown : t1.stamp z.owner = some e := by rw [hzo, hstamp, he]
    intro e' he'
    have happly : (t1.deliver [z]).stamp u.owner = some 0 := by
      show (t1.apply z).stamp u.owner = some 0
      rw [stamp_apply_of_takes (fun _ _ => .inl hzero) hknown, ← hzo, update_self, hzero]
    rw [happly, some_inj] at he'
    exact .inr (he' ▸ Nat.zero_le _)

/-- An update that can be taken decides its places in some order. -/
lemma Live.exists_order (hl : t.Live us u) (hu : u ∈ us) (hc : u.covers p = true) :
    ∃ ds, Delivers us ds ∧ (t.deliver ds).owner p = t.target u := by
  obtain ⟨pre, hpre, htakes⟩ := hl.exists_takes
  set others := us.filter fun x => decide (x.owner ≠ u.owner) with hothers
  set own := us.filter fun x => decide (x.owner = u.owner) with hown
  have hothers' : ∀ x ∈ others, x ∈ us := fun x hx => (mem_filter.mp hx).1
  have hown' : ∀ x ∈ own, x ∈ us := fun x hx => (mem_filter.mp hx).1
  refine ⟨(others ++ pre) ++ u :: own, fun x => ⟨fun hx => ?_, fun hx => ?_⟩, ?_⟩
  · rcases mem_append.mp hx with hx | hx
    · exact (mem_append.mp hx).elim (hothers' x) (hpre x)
    · rcases mem_cons.mp hx with rfl | hx
      · exact hu
      · exact hown' x hx
  · by_cases ho : x.owner = u.owner
    · exact mem_append_right _ (mem_cons_of_mem _ (mem_filter.mpr ⟨hx, by simpa⟩))
    · exact mem_append_left _ (mem_append_left _ (mem_filter.mpr ⟨hx, by simpa⟩))
  · rw [deliver_append, deliver_append]
    have hfollows := ((Follows.refl t us).deliver hothers').deliver hpre
    refine (hfollows.apply hu).owner_stays hown' (fun x hx _ _ => ?_) ?_
    · rw [target, target, of_decide_eq_true (mem_filter.mp hx).2]
    · rw [owner_apply_of_takes htakes, if_pos hc, hfollows.target_eq]

/-- Updates that are all passed over. -/
lemma deliver_of_not_takes (h : ∀ x ∈ ds, ¬ t.Takes x) : t.deliver ds = t :=
  List.foldlRecOn (motive := (· = t)) ds _ rfl fun _ ht x hx => by
    rw [ht, apply_of_not_takes (h x hx)]

lemma owner_deliver_of_not_covers (t : Table P O) (h : ∀ x ∈ ds, x.covers p = false) :
    (t.deliver ds).owner p = t.owner p :=
  List.foldlRecOn (motive := fun t' => t'.owner p = t.owner p) ds _ rfl fun t' ht x hx =>
    (owner_apply_of_not_covers t' (h x hx)).trans ht

/-- If no update for a place is always taken and all those that can be taken are for one owner, then
in some order none of them is taken. -/
lemma exists_order_untouched (hu : u ∈ us) (hc : u.covers p = true)
    (hsame : ∀ x ∈ us, x.covers p = true → t.Live us x → t.target x = t.target u)
    (hfirm : ∀ x ∈ us, x.covers p = true → t.target x = t.target u → ¬ t.Firm us x) :
    ∃ ds, Delivers us ds ∧ (t.deliver ds).owner p = t.owner p := by
  obtain ⟨z, hz, hzo, hmax⟩ := exists_greatest hu
  -- the owner is known, or else the update itself would always be taken
  obtain ⟨e, he⟩ : ∃ e, t.stamp u.owner = some e := by
    by_contra hnone
    push Not at hnone
    exact hfirm u hu hc rfl fun e he => absurd he (hnone e)
  have htarget : ∀ {x}, x.owner = u.owner → t.target x = t.target u := fun ho => by
    rw [target, target, ho]
  have hez : t.stamp z.owner = some e := by rw [hzo, he]
  have hstamp : ∀ x ∈ us, x.covers p = true → x.owner = u.owner →
      x.stamp ≠ 0 ∧ (x.stamp < e ∨ x.stamp < z.stamp) := by
    intro x hx hxc ho
    have hnot := hfirm x hx hxc (htarget ho)
    unfold Firm at hnot
    push Not at hnot
    obtain ⟨e', he', hne, hlow⟩ := hnot
    rw [ho, he, some_inj] at he'
    refine ⟨hne, or_iff_not_imp_left.mpr fun hle => ?_⟩
    obtain ⟨z', hz', hzo', hlt⟩ := hlow (he' ▸ not_lt.mp hle)
    exact hlt.trans_le (hmax z' hz' (hzo'.trans ho))
  have hzpos : z.stamp ≠ 0 := by
    have hne := (hstamp u hu hc rfl).1
    have hle := hmax u hu rfl
    omega
  have hle_of_takes : t.Takes z → e ≤ z.stamp := fun ht => (ht e hez).resolve_left hzpos
  set t1 := t.apply z with ht1
  have hstamp1 : ∃ e1, t1.stamp u.owner = some e1 ∧ e ≤ e1 ∧ z.stamp ≤ e1 := by
    by_cases ht : t.Takes z
    · refine ⟨z.stamp, ?_, hle_of_takes ht, le_rfl⟩
      rw [ht1, stamp_apply_of_takes ht hez, ← hzo, update_self]
    · refine ⟨e, by rw [ht1, apply_of_not_takes ht, he], le_rfl, ?_⟩
      by_contra hlt
      exact ht fun e' he' => .inr (by rw [hez, some_inj] at he'; omega)
  have hrejected : ∀ x ∈ us, x.covers p = true → ¬ t1.Takes x := by
    intro x hx hxc ht
    by_cases ho : x.owner = u.owner
    · obtain ⟨e1, he1, hle, hle'⟩ := hstamp1
      obtain ⟨hne, hlt⟩ := hstamp x hx hxc ho
      have := (ht e1 (by rw [ho, he1])).resolve_left hne
      omega
    · -- what can be taken is for the owner of the update
      have hx' := hsame x hx hxc (((Follows.refl t us).apply hz).live ht)
      rw [target, target, he] at hx'
      obtain ⟨_, -, heq⟩ := map_eq_some_iff.mp hx'
      exact ho heq
  have howner : t1.owner p = t.owner p := by
    by_cases ht : t.Takes z
    · rw [ht1, owner_apply_of_takes ht]
      refine if_neg fun hzc => hfirm z hz hzc (htarget hzo) fun e' he' => .inr ⟨?_, ?_⟩
      · rw [hez, some_inj] at he'
        exact he' ▸ hle_of_takes ht
      · exact fun x hx ho => hmax x hx (ho.trans hzo)
    · rw [ht1, apply_of_not_takes ht]
  refine ⟨z :: (us.filter (fun x => x.covers p) ++ us.filter fun x => !x.covers p),
    fun x => ?_, ?_⟩
  · rw [mem_cons, (filter_append_perm _ us).mem_iff]
    exact or_iff_right_of_imp fun hx => hx ▸ hz
  · show (t1.deliver _).owner p = t.owner p
    rw [deliver_append, owner_deliver_of_not_covers, deliver_of_not_takes, howner]
    · intro x hx
      exact hrejected x (mem_filter.mp hx).1 (mem_filter.mp hx).2
    · intro x hx
      simpa using (mem_filter.mp hx).2

/-- The owners of the places do not depend on the order of the updates and on their repetitions if
and only if every place is decided. -/
lemma converges_iff (t : Table P O) (us : List (Update P O)) :
    (∀ ds ds', Delivers us ds → Delivers us ds' →
        ∀ p, (t.deliver ds).owner p = (t.deliver ds').owner p) ↔ ∀ p, t.Decided us p := by
  constructor
  · intro h p u hu hc hl
    have hsame : ∀ x ∈ us, x.covers p = true → t.Live us x → t.target x = t.target u := by
      intro x hx hxc hxl
      obtain ⟨ds, hds, hx'⟩ := hxl.exists_order hx hxc
      obtain ⟨ds', hds', hu'⟩ := hl.exists_order hu hc
      rw [← hx', ← hu']
      exact h ds ds' hds hds' p
    refine ⟨hsame, ?_⟩
    by_contra hnot
    push Not at hnot
    obtain ⟨ds, hds, hp⟩ := exists_order_untouched hu hc hsame hnot.2
    obtain ⟨ds', hds', hu'⟩ := hl.exists_order hu hc
    exact hnot.1 (hp.symm.trans ((h ds ds' hds hds' p).trans hu'))
  · intro h ds ds' hds hds' p
    obtain ⟨hlive, hnone⟩ := (h p).owner_eq hds
    obtain ⟨hlive', hnone'⟩ := (h p).owner_eq hds'
    by_cases hex : ∃ u ∈ us, u.covers p = true ∧ t.Live us u
    · obtain ⟨u, hu, hc, hl⟩ := hex
      rw [hlive u hu hc hl, hlive' u hu hc hl]
    · push Not at hex
      rw [hnone hex, hnone' hex]

end Apply

end Table

end Stamped
