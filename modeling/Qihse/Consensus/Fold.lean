import Qihse.Consensus.Membership

/-!
# Facts about the membership fold

When `foldFull` accepts a log, what it returns, and how it moves when the log grows.
-/

namespace Qihse.Consensus

open Option

/-- Whether a joint phase is open at a commit index. -/
def Fold.activeAt (f : Fold) (commit : ℕ) : Bool :=
  if f.endIndex ≠ 0 ∧ f.endIndex ≤ commit then false else decide (f.beginIndex ≠ 0)

variable {f : Fold}

lemma foldFull_eq_some {base : List Member} {es : List Entry} {commit : ℕ} {extra : Option Entry} :
    foldFull base es commit extra = some f ↔
      ∃ g, (Fold.start base).steps (es ++ extra.toList) 1 = some g ∧ 1 ≤ g.members.length ∧
        (g.members.map Member.voteWeight).sum ≠ 0 ∧ f = { g with active := g.activeAt commit } ∧
        (f.active → f.union.length ≤ maxMembers) := by
  unfold foldFull
  cases (Fold.start base).steps (es ++ extra.toList) 1 with
  | none => simp
  | some g =>
    simp only [bind, Option.bind, some.injEq, exists_eq_left', pure, ite_none_left_eq_some]
    constructor
    · rintro ⟨h1, h2, h3, rfl⟩
      exact ⟨not_lt.mp h1, h2, rfl, fun ha => not_lt.mp fun hlt => h3 ⟨ha, hlt⟩⟩
    · rintro ⟨h1, h2, rfl, h3⟩
      exact ⟨not_lt.mpr h1, h2, fun h => absurd (h3 h.1) (not_le.mpr h.2), rfl⟩

lemma Fold.steps_append (f : Fold) (xs ys : List Entry) (k : ℕ) :
    f.steps (xs ++ ys) k = (f.steps xs k).bind fun g => g.steps ys (k + xs.length) := by
  induction xs generalizing f k with
  | nil => rfl
  | cons x xs ih =>
    simp only [List.cons_append, steps, List.length_cons]
    cases f.step x k with
    | none => rfl
    | some => simp only [bind_some, ih, add_assoc, add_comm 1]

lemma foldFull_push (base : List Member) (es : List Entry) (e : Entry) (commit : ℕ) :
    foldFull base (es ++ [e]) commit none = foldFull base es commit (some e) := by
  simp [foldFull]

lemma Node.foldMembership_eq_some {n : Node} {extra : Option Entry} {ms : List Member} :
    n.foldMembership extra = some ms ↔ ∃ f, foldFull n.cfg.members n.entries u64Max extra = some f ∧
        f.members.length ≤ maxMembers ∧ f.members = ms := by
  unfold foldMembership
  cases hf : foldFull n.cfg.members n.entries u64Max extra with
  | none => simp
  | some =>
    obtain ⟨g, -, hlen, -, rfl, -⟩ := foldFull_eq_some.mp hf
    simp only [bind, Option.bind, some.injEq, exists_eq_left', pure]
    split_ifs with h
    · constructor
      · exact nofun
      · rintro ⟨hle, -⟩
        rcases h with h | h
        · exact absurd hlen (by simpa using h)
        · exact absurd hle (by simpa using h)
    · simp only [some.injEq, iff_and_self]
      intro _
      omega

variable {g : Fold} {e : Entry} {k : ℕ}

section

variable (h : f.step e k = some g)
include h

/-- What one entry does to a fold. -/
lemma Fold.step_cases :
    (e.type = .data ∧ g = f) ∨
      (∃ ms, (e.type = .configAdd ∨ e.type = .configRemove) ∧ foldApply f.members e = some ms ∧
        g = { f with members := ms }) ∨
      (e.type = .jointBegin ∧ g = { f with old := f.members, beginIndex := k, endIndex := 0 }) ∨
      (e.type = .jointEnd ∧ g = { f with endIndex := k }) := by
  simp only [step, ite_none_right_eq_some] at h
  obtain ⟨-, h⟩ := h
  generalize e.type = type at h ⊢
  cases type with
  | data =>
    cases h
    exact .inl ⟨rfl, rfl⟩
  | configAdd | configRemove =>
    rw [map_eq_some_iff] at h
    obtain ⟨ms, hms, rfl⟩ := h
    exact .inr (.inl ⟨ms, by simp, hms, rfl⟩)
  | jointBegin =>
    simp only [ite_none_left_eq_some, some.injEq] at h
    exact .inr (.inr (.inl ⟨rfl, h.2.2.symm⟩))
  | jointEnd =>
    simp only [ite_none_left_eq_some, some.injEq] at h
    exact .inr (.inr (.inr ⟨rfl, h.2.symm⟩))

/-- A marker leaves the members alone. -/
lemma Fold.step_members
    (htype : e.type ≠ .configAdd ∧ e.type ≠ .configRemove) : g.members = f.members := by
  obtain ⟨-, rfl⟩ | ⟨ms, ht, -, -⟩ | ⟨-, rfl⟩ | ⟨-, rfl⟩ := step_cases h
  · rfl
  · exact absurd ht (not_or.mpr htype)
  · rfl
  · rfl

section

variable (htype : e.type = .configAdd ∨ e.type = .configRemove)
include htype

/-- Any other configuration entry changes the members by `foldApply`. -/
lemma Fold.eq_of_step_change :
    ∃ ms, foldApply f.members e = some ms ∧ g = { f with members := ms } := by
  obtain ⟨ht, -⟩ | ⟨ms, -, hms⟩ | ⟨ht, -⟩ | ⟨ht, -⟩ := step_cases h
  · exact absurd htype (by simp [ht])
  · exact ⟨ms, hms⟩
  · exact absurd htype (by simp [ht])
  · exact absurd htype (by simp [ht])

lemma Fold.step_change : foldApply f.members e = some g.members := by
  obtain ⟨ms, hms, rfl⟩ := eq_of_step_change h htype
  exact hms

end

lemma Fold.step_valid : e.configEntryValid := by
  unfold step at h
  by_contra hno
  rw [if_neg hno] at h
  exact absurd h nofun

end

/-- Over any entries, a property of the members is kept if the changes of configuration keep it. -/
lemma Fold.steps_members {P : List Member → Prop} (hP : ∀ {e ms ms'}, e.configEntryValid →
      e.type = .configAdd ∨ e.type = .configRemove → foldApply ms e = some ms' → P ms → P ms')
    {f g : Fold} {es : List Entry} {k : ℕ} (h : f.steps es k = some g) (hf : P f.members) :
    P g.members := by
  induction es generalizing f k with
  | nil =>
    cases h
    exact hf
  | cons e es ih =>
    obtain ⟨f', hstep, hrest⟩ := bind_eq_some_iff.mp h
    refine ih hrest ?_
    by_cases htype : e.type = .configAdd ∨ e.type = .configRemove
    · exact hP (step_valid hstep) htype (step_change hstep htype) hf
    · rw [step_members hstep (not_or.mp htype)]
      exact hf

/-- One entry more makes one step more. -/
lemma Node.foldMembership_step {n : Node} {e : Entry} {ms ms' : List Member}
    (hold : n.foldMembership none = some ms) (hnew : n.foldMembership (some e) = some ms') :
    ∃ (f g : Fold) (k : ℕ), f.step e k = some g ∧ f.members = ms ∧ g.members = ms' := by
  obtain ⟨f, hf, -, rfl⟩ := foldMembership_eq_some.mp hold
  obtain ⟨f', hf', -, rfl⟩ := foldMembership_eq_some.mp hnew
  obtain ⟨g, hg, -, -, rfl, -⟩ := foldFull_eq_some.mp hf
  obtain ⟨g', hg', -, -, rfl, -⟩ := foldFull_eq_some.mp hf'
  rw [toList_none, List.append_nil] at hg
  rw [toList_some, Fold.steps_append, hg, bind_some, Fold.steps] at hg'
  obtain ⟨h, hstep, hrest⟩ := bind_eq_some_iff.mp hg'
  cases hrest
  exact ⟨g, _, _, hstep, rfl, rfl⟩

end Qihse.Consensus
