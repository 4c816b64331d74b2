import Qihse.Crdt.Dag

/-!
# Convergence of the replicated set

Two managers that get the same upserts, each in its own order, have the same records and the same
root hash, unless two different upserts of an id both have its greatest timestamp: of those the
first one to come stays.
-/

namespace Qihse.Crdt

open List Manager

variable {sha384 : List UInt8 → Digest} {upserts upserts' : List Record} {m : Manager}
  {r x : Record}

/-! ### Runs -/

/-- What a manager has after upserts: of every id the first one with the greatest timestamp. -/
structure Manager.Newest (sha384 : List UInt8 → Digest) (upserts : List Record) (m : Manager) :
    Prop where
  canonical : m = .init ∧ upserts = [] ∨ m.dagRoot.Canonical sha384 8 []
  mem : ∀ x ∈ m.dagRoot.all, x ∈ upserts
  le : ∀ x ∈ m.dagRoot.all, ∀ y ∈ upserts, y.vectorId = x.vectorId → y.timestamp ≤ x.timestamp
  exists_mem : ∀ y ∈ upserts, ∃ x ∈ m.dagRoot.all, x.vectorId = y.vectorId

lemma length_route (id : VectorId) : (route id).length = 8 := by
  rw [route, length_map, length_take, id.2]
  rfl

/-- A tree without nodes takes an upsert as the fresh root does. -/
lemma Manager.upsert_init (r : Record) (q : List Trit) :
    Dag.upsert sha384 r q init.dagRoot = Dag.upsert sha384 r q .null := by
  cases q <;> rfl

/-- The two outcomes of an upsert. -/
lemma Manager.upsert_cases (r : Record) (hm : m = .init ∨ m.dagRoot.Canonical sha384 8 []) :
    ((m.upsert sha384 r).2 = m ∧
        ∃ x ∈ m.dagRoot.all, x.vectorId = r.vectorId ∧ r.timestamp ≤ x.timestamp) ∨
      (m.upsert sha384 r).2.dagRoot.Canonical sha384 8 [] ∧
        (∀ x, x ∈ (m.upsert sha384 r).2.dagRoot.all ↔
          x = r ∨ x ∈ m.dagRoot.all ∧ x.vectorId ≠ r.vectorId) ∧
        ∀ x ∈ m.dagRoot.all, x.vectorId = r.vectorId → x.timestamp < r.timestamp := by
  have hroute : route r.vectorId = [] ++ route r.vectorId := rfl
  rcases hm with rfl | hcanonical
  · have hnull : Dag.Canonical sha384 8 [] .null := Dag.canonical_null
    have hspec := hnull.upsert hroute (length_route _)
    rw [← upsert_init] at hspec
    rcases hspec with ⟨-, x, hx, -⟩ | ⟨dag, hsome, hdag, hmem, -⟩
    · exact absurd hx not_mem_nil
    · right
      rw [upsert, hsome]
      refine ⟨hdag, fun x => ?_, fun x hx => absurd hx not_mem_nil⟩
      exact hmem x
  · rcases hcanonical.upsert hroute (length_route _) with
      ⟨hnone, hold⟩ | ⟨dag, hsome, hdag, hmem, hlt⟩
    · left
      rw [upsert, hnone]
      exact ⟨rfl, hold⟩
    · right
      rw [upsert, hsome]
      exact ⟨hdag, hmem, hlt⟩

namespace Manager.Newest

lemma nil : Newest sha384 [] .init where
  canonical := .inl ⟨rfl, rfl⟩
  mem _ hx := absurd hx not_mem_nil
  le _ hx := absurd hx not_mem_nil
  exists_mem _ hy := absurd hy not_mem_nil

lemma upsert (h : Newest sha384 upserts m) (r : Record) :
    Newest sha384 (upserts ++ [r]) (m.upsert sha384 r).2 := by
  rcases upsert_cases r (h.canonical.imp_left And.left) with
    ⟨hsame, x, hx, hid, hle⟩ | ⟨hcanonical, hmem, hlt⟩
  · have hroot : m.dagRoot.Canonical sha384 8 [] := by
      refine h.canonical.resolve_left fun hinit => ?_
      rw [hinit.1] at hx
      exact absurd hx not_mem_nil
    rw [hsame]
    refine ⟨.inr hroot, fun y hy => mem_append_left _ (h.mem y hy), fun y hy => ?_,
      forall_mem_append.mpr ⟨h.exists_mem, forall_mem_singleton.mpr ⟨x, hx, hid⟩⟩⟩
    refine forall_mem_append.mpr ⟨h.le y hy, forall_mem_singleton.mpr fun hry => ?_⟩
    rwa [hroot.unique hy hx (hry.symm.trans hid.symm)]
  · refine ⟨.inr hcanonical, ?_, ?_, ?_⟩
    · intro y hy
      rcases (hmem y).mp hy with rfl | ⟨hy, -⟩
      · exact mem_append_right _ (mem_singleton_self y)
      · exact mem_append_left _ (h.mem y hy)
    · intro y hy
      rcases (hmem y).mp hy with rfl | ⟨hy, hne⟩
      · refine forall_mem_append.mpr ⟨fun z hz hzy => ?_,
          forall_mem_singleton.mpr fun _ => UInt64.le_refl _⟩
        obtain ⟨x, hx, hxz⟩ := h.exists_mem z hz
        exact UInt64.le_trans (h.le x hx z hz hxz.symm)
          (UInt64.le_of_lt (hlt x hx (hxz.trans hzy)))
      · exact forall_mem_append.mpr
          ⟨h.le y hy, forall_mem_singleton.mpr fun hry => absurd hry.symm hne⟩
    · refine forall_mem_append.mpr ⟨fun y hy => ?_,
        forall_mem_singleton.mpr ⟨r, (hmem r).mpr (.inl rfl), rfl⟩⟩
      obtain ⟨x, hx, hxy⟩ := h.exists_mem y hy
      by_cases hid : x.vectorId = r.vectorId
      · exact ⟨r, (hmem r).mpr (.inl rfl), hid.symm.trans hxy⟩
      · exact ⟨x, (hmem x).mpr (.inr ⟨hx, hid⟩), hxy⟩

lemma applied (sha384 : List UInt8 → Digest) (upserts : List Record) :
    Newest sha384 upserts (.applied sha384 upserts) := by
  have hrun : ∀ (before : List Record) (m : Manager), Newest sha384 before m →
      Newest sha384 (before ++ upserts)
        (upserts.foldl (fun m r => (m.upsert sha384 r).2) m) := by
    induction upserts with
    | nil =>
      intro before m h
      rwa [append_nil]
    | cons r upserts ih =>
      intro before m h
      have := ih (before ++ [r]) _ (h.upsert r)
      rwa [append_assoc] at this
  exact hrun [] .init nil

lemma unique (h : Newest sha384 upserts m) {y : Record} (hx : x ∈ m.dagRoot.all)
    (hy : y ∈ m.dagRoot.all) (hid : x.vectorId = y.vectorId) : x = y := by
  rcases h.canonical with ⟨rfl, -⟩ | hcanonical
  · exact absurd hx not_mem_nil
  · exact hcanonical.unique hx hy hid

lemma record_eq_some (h : Newest sha384 upserts m) (hx : x ∈ m.dagRoot.all) :
    m.record x.vectorId = some x := by
  cases hfind : m.record x.vectorId with
  | none =>
    have := find?_eq_none.mp hfind x hx
    simp at this
  | some y =>
    have hid : y.vectorId = x.vectorId := by simpa using find?_some hfind
    rw [h.unique (mem_of_find?_eq_some hfind) hx hid]

end Manager.Newest

/-- The first upsert of an id stays while none has a greater timestamp. -/
lemma Manager.mem_applied_cons
    (hle : ∀ y ∈ upserts, y.vectorId = x.vectorId → y.timestamp ≤ x.timestamp) :
    x ∈ (applied sha384 (x :: upserts)).dagRoot.all := by
  have hrun : ∀ m : Manager, m.dagRoot.Canonical sha384 8 [] → x ∈ m.dagRoot.all →
      x ∈ (upserts.foldl (fun m r => (m.upsert sha384 r).2) m).dagRoot.all := by
    induction upserts with
    | nil => exact fun _ _ hx => hx
    | cons r upserts ih =>
      intro m hm hx
      have ih := ih fun y hy => hle y (mem_cons_of_mem _ hy)
      rcases upsert_cases r (.inr hm) with ⟨hsame, -⟩ | ⟨hcanonical, hmem, hlt⟩
      · rw [foldl_cons, hsame]
        exact ih m hm hx
      · refine ih _ hcanonical ((hmem x).mpr (.inr ⟨hx, fun hid => ?_⟩))
        exact absurd (hle r mem_cons_self hid.symm) (UInt64.not_le.mpr (hlt x hx hid))
  have hinit : init = .init ∨ init.dagRoot.Canonical sha384 8 [] := .inl rfl
  rcases upsert_cases x hinit with ⟨-, y, hy, -⟩ | ⟨hcanonical, hmem, -⟩
  · exact absurd hy not_mem_nil
  · exact hrun _ hcanonical ((hmem x).mpr (.inl rfl))

/-! ### Convergence -/

/-- Whatever the order of the upserts and however often each comes, the records and the root hash
are the same. -/
def Converges (sha384 : List UInt8 → Digest) (upserts : Multiset Record) : Prop :=
  ∀ l l' : List Record, (∀ r, r ∈ l ↔ r ∈ upserts) → (∀ r, r ∈ l' ↔ r ∈ upserts) →
    (∀ id, (applied sha384 l).record id = (applied sha384 l').record id) ∧
      (applied sha384 l).rootHash = (applied sha384 l').rootHash

/-- No two different upserts of an id both have its greatest timestamp. -/
def Decided (upserts : Multiset Record) : Prop :=
  ∀ u ∈ upserts, ∀ v ∈ upserts, u.vectorId = v.vectorId → u.timestamp = v.timestamp →
    (∀ w ∈ upserts, w.vectorId = u.vectorId → w.timestamp ≤ u.timestamp) → u = v

/-- The records of a manager are those of any other one after the same upserts. -/
lemma Decided.mem_of_mem {S : Multiset Record} (h : Decided S) {l l' : List Record}
    (hl : ∀ r, r ∈ l ↔ r ∈ S) (hl' : ∀ r, r ∈ l' ↔ r ∈ S)
    (hx : x ∈ (applied sha384 l).dagRoot.all) :
    x ∈ (applied sha384 l').dagRoot.all := by
  have hnew := Newest.applied sha384 l
  have hnew' := Newest.applied sha384 l'
  have hxS := (hl x).mp (hnew.mem x hx)
  obtain ⟨y, hy, hid⟩ := hnew'.exists_mem x ((hl' x).mpr hxS)
  have hyS := (hl' y).mp (hnew'.mem y hy)
  have hle := hnew.le x hx y ((hl y).mpr hyS) hid
  have hge := hnew'.le y hy x ((hl' x).mpr hxS) hid.symm
  have heq : x = y := by
    refine h x hxS y hyS hid.symm (UInt64.le_antisymm hge hle) fun w hw hwx => ?_
    exact hnew.le x hx w ((hl w).mpr hw) hwx
  rwa [heq]

/-- The upserts lead to the same manager in every order exactly if no two different ones of an id
both have its greatest timestamp. -/
theorem converges_iff_decided (sha384 : List UInt8 → Digest) (upserts : Multiset Record) :
    Converges sha384 upserts ↔ Decided upserts := by
  constructor
  · intro h u hu v hv hid hts hmax
    -- the one that comes first stays
    have hcover : ∀ w ∈ upserts, ∀ r, r ∈ w :: upserts.toList ↔ r ∈ upserts := by
      intro w hw r
      rw [mem_cons, Multiset.mem_toList, or_iff_right_of_imp]
      rintro rfl
      exact hw
    obtain ⟨hrecord, -⟩ := h _ _ (hcover u hu) (hcover v hv)
    have hu' : u ∈ (applied sha384 (u :: upserts.toList)).dagRoot.all :=
      mem_applied_cons fun y hy => hmax y (Multiset.mem_toList.mp hy)
    have hv' : v ∈ (applied sha384 (v :: upserts.toList)).dagRoot.all := by
      refine mem_applied_cons fun y hy hyv => ?_
      rw [← hts]
      exact hmax y (Multiset.mem_toList.mp hy) (hyv.trans hid.symm)
    have hrecord := hrecord u.vectorId
    rw [(Newest.applied sha384 _).record_eq_some hu', hid,
      (Newest.applied sha384 _).record_eq_some hv'] at hrecord
    exact Option.some_inj.mp hrecord
  · intro h l l' hl hl'
    have hsame : applied sha384 l = applied sha384 l' := by
      have hall : ∀ x, x ∈ (applied sha384 l).dagRoot.all ↔
          x ∈ (applied sha384 l').dagRoot.all := fun x =>
        ⟨h.mem_of_mem hl hl', h.mem_of_mem hl' hl⟩
      have hnil : ∀ {a b : List Record}, (∀ r, r ∈ a ↔ r ∈ upserts) →
          (∀ r, r ∈ b ↔ r ∈ upserts) → a = [] → b = [] := by
        rintro a b ha hb rfl
        exact eq_nil_iff_forall_not_mem.mpr fun r hr =>
          absurd ((ha r).mpr ((hb r).mp hr)) not_mem_nil
      rcases (Newest.applied sha384 l).canonical with ⟨-, rfl⟩ | hcanonical
      · cases hnil hl hl' rfl
        rfl
      rcases (Newest.applied sha384 l').canonical with ⟨-, rfl⟩ | hcanonical'
      · cases hnil hl' hl rfl
        rfl
      exact congrArg mk (hcanonical.ext hcanonical' hall)
    rw [hsame]
    exact ⟨fun _ => rfl, rfl⟩

namespace Sample

def zeros : Digest := ⟨List.replicate 48 0, length_zeroDigest⟩

def ones : Digest := ⟨List.replicate 48 1, rfl⟩

lemma length_zeroId : (List.replicate 16 (0 : UInt8)).length = 16 := rfl

/-- A write of a vector at time 7. -/
def write (payload : Digest) : Record := ⟨⟨List.replicate 16 0, length_zeroId⟩, 7, false, payload⟩

/-- Two replicas that get the same two writes in different orders keep different ones. -/
theorem concurrent_writes_diverge :
    (applied (fun _ => zeros) [write zeros, write ones]).record (write zeros).vectorId =
        some (write zeros) ∧
      (applied (fun _ => zeros) [write ones, write zeros]).record (write zeros).vectorId =
        some (write ones) := by
  decide +kernel

end Sample

end Qihse.Crdt
