import Qihse.Principal.Record

/-!
# The principal store

`qihse_principal_store.c`: the registry that a log of committed records builds, and the authority
that such a log can give away.
-/

open Bytes List Function

namespace Qihse.Principal

/-- `principal_slot_t`. -/
structure Slot where
  user : Option User
  generation : UInt64

/-- `qihse_principal_store_s`, without what binds it to a history. -/
structure Store where
  slots : UInt32 → Slot
  requests : List (Block 16)
  appliedIndex : UInt64
  generation : UInt64

/-- `qihse_principal_apply_result_t`. -/
inductive ApplyResult
  | error | rejected | applied
deriving DecidableEq

namespace Store

/-- `qihse_principal_store_new`. -/
def new (bootstrapOperator : User) : Option Store :=
  if bootstrapOperator.userId = 0 && bootstrapOperator.role = roleOperator &&
      bootstrapOperator.tenantId = tenantSystem &&
      bootstrapOperator.classificationLevel = 0xffff &&
      bootstrapOperator.sciCompartments = 0xffff && bootstrapOperator.passwordSet then
    some ⟨fun id => if id = 0 then ⟨some bootstrapOperator, 1⟩ else ⟨none, 0⟩, [], 0, 0⟩
  else none

/-- `username_taken`. -/
def usernameTaken (s : Store) (exceptId : UInt32) (username : List UInt8) : Bool :=
  (List.range slotCount.toNat).any fun id =>
    UInt32.ofNat id ≠ exceptId &&
      (s.slots (UInt32.ofNat id)).user.any fun user => cString user.username.val = cString username

/-- The check of `qihse_principal_store_apply_committed` against the registry. -/
def authorizes (s : Store) (record : Record) : Bool :=
  let target := s.slots record.targetId
  let actor := s.slots record.actorId
  (actor.user.any fun user =>
    record.authorizeTransition s.generation user actor.generation target.user target.generation) &&
  match record.kind with
  | .put principal => !s.usernameTaken record.targetId principal.username.val
  | .delete => true

/-- `qihse_principal_store_apply_committed`. -/
def applyCommitted (s : Store) (index : UInt64) (payload : List UInt8) : Store × ApplyResult :=
  if s.appliedIndex = 0xffffffffffffffff || index ≠ s.appliedIndex + 1 ||
      s.generation = 0xffffffffffffffff then (s, .error)
  else
    match decode payload with
    | none => ({ s with appliedIndex := index }, .rejected)
    | some record =>
      if record.requestId ∈ s.requests then ({ s with appliedIndex := index }, .rejected)
      else
        let s' := { s with requests := record.requestId :: s.requests, appliedIndex := index }
        if s.authorizes record then
          ({ s' with
              slots := Function.update s.slots record.targetId
                ⟨record.replacement, record.principalGeneration⟩
              generation := s.generation + 1 }, .applied)
        else (s', .rejected)

/-! ### Runs -/

/-- A call of `qihse_principal_store_apply_committed`. -/
structure Call where
  index : UInt64
  payload : List UInt8

def step (s : Store) (c : Call) : Store := (s.applyCommitted c.index c.payload).1

def run (s : Store) (calls : List Call) : Store := calls.foldl step s

/-- The call applies the record, and the live principal is its actor. -/
structure Applies (s : Store) (c : Call) (record : Record) (actor : User) : Prop where
  applied : (s.applyCommitted c.index c.payload).2 = .applied
  decoded : decode c.payload = some record
  actor : (s.slots record.actorId).user = some actor

/-- No record is applied for an operator. -/
def NoOperator (s : Store) (calls : List Call) : Prop :=
  ∀ pre c post record actor, calls = pre ++ c :: post → (s.run pre).Applies c record actor →
    actor.role ≠ roleOperator

end Store

/-- What an actor can do to a slot. -/
inductive Change (actor : User) : Option User → Option User → Prop
  | create {proposed : User} (h : actor.creates proposed = true) :
    Change actor none (some proposed)
  | update {target proposed : User} (h : actor.governs target = true)
    (htenant : target.tenantId = proposed.tenantId) : Change actor (some target) (some proposed)
  | delete {target : User} (h : actor.governs target = true) : Change actor (some target) none

lemma change_of_permitted {record : Record} {actor : User} {target : Option User}
    (h : record.permitted actor target = true) : Change actor target record.replacement := by
  unfold Record.permitted at h
  unfold Record.replacement
  generalize record.kind = kind at h ⊢
  cases kind with
  | delete =>
    cases target with
    | none => cases h
    | some => exact .delete h
  | put =>
    cases target with
    | none =>
      rw [Bool.and_eq_true] at h
      exact .create h.1
    | some =>
      simp only [Bool.and_eq_true, decide_eq_true_eq] at h
      exact .update h.1.1.1 h.1.2

section

variable {actor : User} {old new : Option User}

/-- Whoever touches a principal is of its tenant or of the system. -/
lemma Change.tenant (h : Change actor old new) {user : User}
    (huser : old = some user ∨ new = some user) :
    actor.tenantId = user.tenantId ∨ actor.tenantId = tenantSystem := by
  cases h with
  | create hcreate =>
    rcases huser with huser | huser
    · cases huser
    · cases huser
      exact User.creates_tenant hcreate
  | update hgov htenant =>
    rcases huser with huser | huser
    · cases huser
      exact User.governs_tenant hgov
    · cases huser
      rw [← htenant]
      exact User.governs_tenant hgov
  | delete hgov =>
    rcases huser with huser | huser
    · cases huser
      exact User.governs_tenant hgov
    · cases huser

/-- An actor that is no operator can do no more than create a powerless guest. -/
lemma Change.of_not_operator (h : Change actor old new) (hrole : actor.role ≠ roleOperator) :
    old = none ∧ ∃ user, new = some user ∧ user.Powerless ∧ actor.MayCreateIn user.tenantId := by
  cases h with
  | create hcreate =>
    exact ⟨rfl, _, rfl, User.creates_powerless hcreate hrole, User.creates_tenant hcreate⟩
  | update hgov | delete hgov => simp [User.governs, hrole] at hgov

end

namespace Store

/-- What a call can do: fail, only count, or apply the record. -/
inductive Outcome (s : Store) (index : UInt64) (payload : List UInt8) : Store × ApplyResult → Prop
  | error : Outcome s index payload (s, .error)
  | rejected (requests : List (Block 16)) (hidx : s.appliedIndex ≠ 0xffffffffffffffff)
    (hnext : index = s.appliedIndex + 1) (hreq : s.requests ⊆ requests) :
    Outcome s index payload ({ s with requests := requests, appliedIndex := index }, .rejected)
  | applied (record : Record) (hidx : s.appliedIndex ≠ 0xffffffffffffffff)
    (hnext : index = s.appliedIndex + 1) (hgen : s.generation ≠ 0xffffffffffffffff)
    (hdec : decode payload = some record) (hnew : record.requestId ∉ s.requests)
    (hauth : s.authorizes record) :
    Outcome s index payload ({
      slots := Function.update s.slots record.targetId
        ⟨record.replacement, record.principalGeneration⟩
      requests := record.requestId :: s.requests
      appliedIndex := index
      generation := s.generation + 1 }, .applied)

lemma outcome_applyCommitted (s : Store) (index : UInt64) (payload : List UInt8) :
    Outcome s index payload (s.applyCommitted index payload) := by
  unfold applyCommitted
  split_ifs with hguard
  · exact .error
  · simp only [Bool.or_eq_true, decide_eq_true_eq, not_or, not_not] at hguard
    obtain ⟨⟨hidx, hnext⟩, hgen⟩ := hguard
    cases hdec : decode payload with
    | none => exact .rejected _ hidx hnext (List.Subset.refl _)
    | some record =>
      dsimp only
      split_ifs with hseen hauth
      · exact .rejected _ hidx hnext (List.Subset.refl _)
      · exact .applied record hidx hnext hgen hdec hseen hauth
      · exact .rejected _ hidx hnext (subset_cons_self _ _)

/-- What one call can do to the slots. -/
lemma step_cases (s : Store) (c : Call) : (s.step c).slots = s.slots ∨
      ∃ record actor, s.Applies c record actor ∧ record.targetId ≠ 0 ∧
        Change actor (s.slots record.targetId).user record.replacement ∧
        (s.step c).slots = Function.update s.slots record.targetId
          ⟨record.replacement, record.principalGeneration⟩ := by
  have hout := s.outcome_applyCommitted c.index c.payload
  have happlies : ∀ record actor, (s.applyCommitted c.index c.payload).2 = .applied → _ → _ →
      s.Applies c record actor := fun record actor => Applies.mk
  unfold step
  generalize s.applyCommitted c.index c.payload = r at hout happlies
  cases hout with
  | error | rejected => exact .inl rfl
  | applied record _ _ _ hdec _ hauth =>
    rw [authorizes, Bool.and_eq_true] at hauth
    obtain ⟨actor, hactor, htrans⟩ := Option.any_eq_true _ _ |>.mp hauth.1
    rw [Record.authorizeTransition, Bool.and_eq_true] at htrans
    exact .inr ⟨record, actor, happlies record actor rfl hdec hactor,
      targetId_ne_zero (valid_of_decode hdec), change_of_permitted htrans.2, rfl⟩

/-- A slot that a call changes is the target of the record that it applies. -/
lemma exists_applies_of_ne {s : Store} {c : Call} {id : UInt32}
    (h : ((s.step c).slots id).user ≠ (s.slots id).user) :
    ∃ record actor, s.Applies c record actor ∧ record.targetId = id ∧
      Change actor (s.slots id).user ((s.step c).slots id).user := by
  rcases s.step_cases c with heq | ⟨record, actor, happ, -, hchange, hslots⟩
  · exact absurd (by rw [heq]) h
  · by_cases hid : id = record.targetId
    · subst hid
      refine ⟨record, actor, happ, rfl, ?_⟩
      rw [hslots, update_self]
      exact hchange
    · exact absurd (by rw [hslots, update_of_ne hid]) h

lemma run_append (s : Store) (pre post : List Call) : s.run (pre ++ post) = (s.run pre).run post :=
  foldl_append

/-- The slot of the bootstrap principal is never a target. -/
lemma slots_zero_run (s : Store) (calls : List Call) : (s.run calls).slots 0 = s.slots 0 := by
  induction calls generalizing s with
  | nil => rfl
  | cons c calls ih =>
    have hstep : (s.step c).slots 0 = s.slots 0 := by
      rcases s.step_cases c with heq | ⟨record, actor, -, hzero, -, hslots⟩
      · rw [heq]
      · rw [hslots, update_of_ne hzero.symm]
    exact (ih (s.step c)).trans hstep

section NoOperator

variable {s : Store} {c : Call} {calls : List Call}

section

variable (h : s.NoOperator (c :: calls))
include h

lemma NoOperator.head {record : Record} {actor : User}
    (happ : s.Applies c record actor) : actor.role ≠ roleOperator :=
  h [] c calls record actor rfl happ

lemma NoOperator.tail : (s.step c).NoOperator calls := by
  intro pre c' post record actor heq happ
  exact h (c :: pre) c' post record actor (by rw [heq, cons_append]) happ

/-- A call that is not made for an operator leaves every principal as it is. -/
lemma NoOperator.user_step {id : UInt32} {user : User}
    (huser : (s.slots id).user = some user) : ((s.step c).slots id).user = some user := by
  by_contra hne
  rw [← huser] at hne
  obtain ⟨record, actor, happ, -, hchange⟩ := exists_applies_of_ne hne
  have hnone := (hchange.of_not_operator (h.head happ)).1
  rw [huser] at hnone
  cases hnone

end

section

variable (h : s.NoOperator calls) {id : UInt32} {user : User}
include h

lemma NoOperator.user_run (huser : (s.slots id).user = some user) :
    ((s.run calls).slots id).user = some user := by
  induction calls generalizing s with
  | nil => exact huser
  | cons c calls ih => exact ih h.tail (h.user_step huser)

/-- A principal that was not there before was created as a powerless guest. -/
lemma NoOperator.created (hold : (s.slots id).user = none)
    (hnew : ((s.run calls).slots id).user = some user) :
    user.Powerless ∧ ∃ pre c post record actor, calls = pre ++ c :: post ∧
      (s.run pre).Applies c record actor ∧ record.targetId = id ∧
      actor.MayCreateIn user.tenantId := by
  induction calls generalizing s with
  | nil =>
    rw [run, foldl_nil, hold] at hnew
    cases hnew
  | cons c calls ih =>
    by_cases hstep : ((s.step c).slots id).user = none
    · obtain ⟨hpow, pre, c', post, record, actor, heq, happ, hid, htenant⟩ := ih h.tail hstep hnew
      exact ⟨hpow, c :: pre, c', post, record, actor, by rw [heq, cons_append], happ, hid,
        htenant⟩
    · -- the first call created it, and it stayed as it was
      rw [← hold] at hstep
      obtain ⟨record, actor, happ, hid, hchange⟩ := exists_applies_of_ne hstep
      obtain ⟨-, user', huser', hpow, htenant⟩ := hchange.of_not_operator (h.head happ)
      have hkept := h.tail.user_run huser'
      rw [show (s.step c).run calls = s.run (c :: calls) from rfl, hnew] at hkept
      cases hkept
      exact ⟨hpow, [], c, calls, record, actor, rfl, happ, hid, htenant⟩

end

end NoOperator

/-- Committed records cannot escalate authority: without an operator only powerless guests are
added, principals are touched from their own tenant or the system's only, and the bootstrap
principal stays. -/
theorem no_escalation (s : Store) (calls : List Call) : (s.NoOperator calls →
      (∀ id user, (s.slots id).user = some user → ((s.run calls).slots id).user = some user) ∧
      ∀ id user, (s.slots id).user = none → ((s.run calls).slots id).user = some user →
        user.Powerless ∧ ∃ pre c post record actor, calls = pre ++ c :: post ∧
          (s.run pre).Applies c record actor ∧ record.targetId = id ∧
          actor.MayCreateIn user.tenantId) ∧ (∀ pre c post, calls = pre ++ c :: post → ∀ id,
      ((s.run (pre ++ [c])).slots id).user ≠ ((s.run pre).slots id).user →
        ∃ record actor, (s.run pre).Applies c record actor ∧ record.targetId = id ∧
          ∀ user, ((s.run pre).slots id).user = some user ∨
            ((s.run (pre ++ [c])).slots id).user = some user →
              actor.tenantId = user.tenantId ∨ actor.tenantId = tenantSystem) ∧
    (s.run calls).slots 0 = s.slots 0 := by
  refine ⟨fun h => ⟨fun id user => h.user_run, fun id user => h.created⟩, ?_,
    s.slots_zero_run calls⟩
  intro pre c post _ id hne
  have hstep : s.run (pre ++ [c]) = (s.run pre).step c := s.run_append pre [c]
  rw [hstep] at hne ⊢
  obtain ⟨record, actor, happ, hid, hchange⟩ := exists_applies_of_ne hne
  exact ⟨record, actor, happ, hid, fun user => hchange.tenant⟩

/-! ### Identities -/

/-- A call of `qihse_principal_store_apply_committed` that gets memory or not: without it a record
with a new request id is not applied. -/
def attempt (s : Store) (c : Call) (memory : Bool) : Store × ApplyResult :=
  if !memory && (decode c.payload).any (·.requestId ∉ s.requests) then (s, .error)
  else s.applyCommitted c.index c.payload

/-- The records that calls apply, in order. -/
def applied (s : Store) : List (Call × Bool) → List Record
  | [] => []
  | (c, memory) :: rest =>
    (if (s.attempt c memory).2 = .applied then (decode c.payload).toList else []) ++
      applied (s.attempt c memory).1 rest

def runs (s : Store) (calls : List (Call × Bool)) : Store :=
  calls.foldl (fun s c => (s.attempt c.1 c.2).1) s

lemma outcome_attempt (s : Store) (c : Call) (memory : Bool) :
    Outcome s c.index c.payload (s.attempt c memory) := by
  unfold attempt
  split_ifs
  · exact .error
  · exact s.outcome_applyCommitted c.index c.payload

/-- What the records `rs` have made of a new store. -/
structure Identified (s : Store) (rs : List Record) : Prop where
  names : ∀ id id' user user', (s.slots id).user = some user → (s.slots id').user = some user' →
    cString user.username.val = cString user'.username.val → id = id'
  bounded : ∀ id, (s.slots id).user ≠ none → id < slotCount
  total : s.generation.toNat = rs.length
  generation : ∀ id, (s.slots id).generation.toNat =
    rs.countP (·.targetId = id) + if id = 0 then 1 else 0
  deleted : ∀ r ∈ rs, r.kind = .delete → (s.slots r.targetId).user = none
  requests : ∀ r ∈ rs, r.requestId ∈ s.requests
  once : (rs.map Record.requestId).Nodup

section

variable {s : Store} {record : Record} {rs : List Record}

lemma toNat_succ {n : UInt64} (h : n ≠ 0xffffffffffffffff) : (n + 1).toNat = n.toNat + 1 := by
  have hlt := n.toNat_lt
  have hne : n.toNat ≠ 0xffffffffffffffff := fun hn => h (UInt64.toNat_inj.mp hn)
  rw [UInt64.toNat_add, UInt64.toNat_one, Nat.mod_eq_of_lt]
  omega

lemma ne_of_usernameTaken {id id' : UInt32} {name : List UInt8} {user : User}
    (h : s.usernameTaken id name = false) (hne : id' ≠ id) (hlt : id' < slotCount)
    (huser : (s.slots id').user = some user) : cString user.username.val ≠ cString name := by
  have hmem : id'.toNat ∈ List.range slotCount.toNat :=
    mem_range.mpr (UInt32.lt_iff_toNat_lt.mp hlt)
  simpa [hne, huser] using any_eq_false.mp h _ hmem

/-- A record that is applied continues the generations of its slot, which is in use or new, and its
name is not that of another slot. -/
lemma continues_of_authorizes (hauth : s.authorizes record) :
    ((s.slots record.targetId).user = none → (s.slots record.targetId).generation = 0) ∧
      record.principalGeneration.toNat = (s.slots record.targetId).generation.toNat + 1 ∧
      ∀ user, record.replacement = some user →
        s.usernameTaken record.targetId user.username.val = false := by
  simp only [authorizes, Bool.and_eq_true] at hauth
  obtain ⟨hactor, hname⟩ := hauth
  obtain ⟨actor, -, htrans⟩ := Option.any_eq_true _ _ |>.mp hactor
  simp only [Record.authorizeTransition, Record.fresh, Bool.and_eq_true, decide_eq_true_eq,
    and_assoc] at htrans
  obtain ⟨-, -, -, -, -, -, -, -, htarget, hmax, hgen, -⟩ := htrans
  refine ⟨fun hnone => ?_, ?_, fun user huser => ?_⟩
  · simpa [hnone] using htarget
  · rw [hgen, toNat_succ hmax]
  · unfold Record.replacement at huser
    generalize record.kind = kind at hname huser
    cases kind with
    | put =>
      cases huser
      simpa using hname
    | delete => cases huser

lemma Identified.apply (h : s.Identified rs) (index : UInt64)
    (hgen : s.generation ≠ 0xffffffffffffffff) (hvalid : record.valid)
    (hnew : record.requestId ∉ s.requests) (hauth : s.authorizes record) : Identified {
      slots := Function.update s.slots record.targetId
        ⟨record.replacement, record.principalGeneration⟩
      requests := record.requestId :: s.requests
      appliedIndex := index
      generation := s.generation + 1 } (rs ++ [record]) := by
  obtain ⟨hfresh, hnext, htaken⟩ := continues_of_authorizes hauth
  have hlt : record.targetId < slotCount := by
    simp only [Record.valid, Bool.and_eq_true, decide_eq_true_eq, and_assoc] at hvalid
    exact hvalid.2.1
  have hzero := targetId_ne_zero hvalid
  have hother : ∀ id user user', id ≠ record.targetId → (s.slots id).user = some user →
      record.replacement = some user' →
      cString user.username.val ≠ cString user'.username.val := by
    intro id user user' hid huser huser'
    exact ne_of_usernameTaken (htaken user' huser') hid (h.bounded id (by simp [huser])) huser
  refine ⟨fun id id' user user' => ?_, fun id => ?_, ?_, fun id => ?_, fun r hr hdel => ?_,
    forall_mem_append.mpr ⟨fun r hr => mem_cons_of_mem _ (h.requests r hr),
      forall_mem_singleton.mpr mem_cons_self⟩, ?_⟩
  · simp only [update_apply]
    split_ifs with hid hid' hid'
    · exact fun _ _ _ => hid.trans hid'.symm
    · exact fun huser huser' heq => absurd heq.symm (hother id' user' user hid' huser' huser)
    · exact fun huser huser' heq => absurd heq (hother id user user' hid huser huser')
    · exact h.names id id' user user'
  · simp only [update_apply]
    split_ifs with hid
    · exact fun _ => hid ▸ hlt
    · exact h.bounded id
  · simp [toNat_succ hgen, h.total]
  · have hold := h.generation id
    simp only [countP_append, countP_singleton]
    by_cases hid : id = record.targetId
    · subst hid
      rw [update_self, hnext, hold]
      simp [hzero]
    · rw [update_of_ne hid, hold]
      simp [Ne.symm hid]
  · simp only [update_apply]
    rcases mem_append.mp hr with hr | hr
    · have hnone := h.deleted r hr hdel
      -- the slot has a generation, and a record for a slot without a principal starts with none
      have hne : r.targetId ≠ record.targetId := by
        intro heq
        have hcount := h.generation r.targetId
        rw [heq, hfresh (heq ▸ hnone), ← heq] at hcount
        have hpos : 0 < rs.countP (·.targetId = r.targetId) :=
          countP_pos_iff.mpr ⟨r, hr, by simp⟩
        simp at hcount
        omega
      rw [if_neg hne]
      exact hnone
    · rw [mem_singleton.mp hr] at hdel ⊢
      rw [if_pos rfl, Record.replacement, hdel]
  · rw [map_append, nodup_append]
    refine ⟨h.once, by simp, fun a ha b hb => ?_⟩
    obtain ⟨r, hr, rfl⟩ := mem_map.mp ha
    rw [mem_singleton.mp hb]
    exact fun heq => hnew (heq ▸ h.requests r hr)

lemma Identified.runs (h : s.Identified rs) (calls : List (Call × Bool)) :
    (s.runs calls).Identified (rs ++ s.applied calls) := by
  induction calls generalizing s rs with
  | nil => simpa [Store.runs, applied] using h
  | cons call calls ih =>
    obtain ⟨c, memory⟩ := call
    have hout := s.outcome_attempt c memory
    rw [Store.runs, foldl_cons, ← Store.runs, applied, ← append_assoc]
    refine ih ?_
    generalize s.attempt c memory = r at hout
    cases hout with
    | error => simpa using h
    | rejected requests _ _ hreq =>
      simpa using { h with requests := fun r hr => hreq (h.requests r hr) }
    | applied record _ _ hgen hdec hnew hauth =>
      simpa [hdec] using h.apply c.index hgen (valid_of_decode hdec) hnew hauth

lemma identified_new {bootstrap : User} (hnew : new bootstrap = some s) : s.Identified [] := by
  unfold new at hnew
  split_ifs at hnew
  cases hnew
  refine ⟨fun id id' user user' => ?_, fun id => ?_, rfl, fun id => ?_, nofun, nofun, .nil⟩
  · dsimp only
    split_ifs with hid hid'
    · exact fun _ _ _ => hid.trans hid'.symm
    all_goals simp
  · dsimp only
    split_ifs with hid
    · exact fun _ => hid ▸ by decide
    · simp
  · dsimp only
    split_ifs <;> rfl

end

/-- Whatever is committed to a new store: no two principals have one name, the generations count the
records, a deleted identifier stays free, a request is applied once, and the index counts the calls
that are not errors, which change nothing. -/
theorem principals_identified {bootstrap : User} {s : Store} (hnew : new bootstrap = some s)
    (calls : List (Call × Bool)) : (s.runs calls).Identified (s.applied calls) ∧
      ∀ c memory, if ((s.runs calls).attempt c memory).2 = .error then
          ((s.runs calls).attempt c memory).1 = s.runs calls
        else ((s.runs calls).attempt c memory).1.appliedIndex.toNat =
          (s.runs calls).appliedIndex.toNat + 1 := by
  refine ⟨(identified_new hnew).runs calls, fun c memory => ?_⟩
  have hout := (s.runs calls).outcome_attempt c memory
  generalize (s.runs calls).attempt c memory = r at hout
  cases hout with
  | error => rfl
  | rejected _ hidx hnext | applied _ hidx hnext =>
    rw [if_neg nofun, hnext, toNat_succ hidx]

namespace Sample

lemma length_salt : (List.replicate 16 (0 : UInt8)).length = 16 := rfl

lemma length_hash : (List.replicate 48 (0 : UInt8)).length = 48 := rfl

/-- The operator that a registry starts with. -/
def bootstrap : User where
  userId := 0
  role := roleOperator
  classificationLevel := 0xffff
  sciCompartments := 0xffff
  tenantId := tenantSystem
  username := ⟨List.replicate 64 0, rfl⟩
  canCreateUsers := true
  hardwareTokenPresent := false
  requiresHardwareToken := false
  fido2CredentialId := ⟨List.replicate 64 0, rfl⟩
  verifier := ⟨1, 1, 600000, ⟨List.replicate 16 0, length_salt⟩, ⟨List.replicate 48 0, length_hash⟩⟩
  passwordSet := true
  objectAcl := []

/-- A store with one principal. -/
def only (user : User) : Store :=
  ⟨fun id => if id = 0 then ⟨some user, 1⟩ else ⟨none, 0⟩, [], 0, 0⟩

/-- Principal 0 creates guest 1. -/
def creation : Call := ⟨1, recordMagic ++ le 2 recordVersion ++ [1, 0] ++ le 16 7 ++ le 8 0 ++
  le 4 0 ++ le 8 1 ++ le 8 1 ++ le 4 1 ++ le 4 0 ++ le 2 2 ++ le 7 0 ++ le 64 7 ++ le 64 0 ++
  le 2 1 ++ le 2 1 ++ le 4 600000 ++ le 65 0⟩

/-- The record is applied if the principal may create guests and has another name. -/
lemma exists_guest {user : User} (h : (decode creation.payload).any (fun r => r.actorId = 0 &&
      r.targetId = 1 && r.authorizeTransition 0 user 1 none 0 && r.replacement.any fun guest =>
        cString user.username.val ≠ cString guest.username.val) = true) :
    ∃ guest, (((only user).run [creation]).slots 1).user = some guest := by
  obtain ⟨r, hr, h⟩ := (Option.any_eq_true _ _).mp h
  simp only [Bool.and_eq_true, decide_eq_true_eq, Option.any_eq_true] at h
  obtain ⟨⟨⟨hactor, htarget⟩, hauth⟩, guest, hguest, hfree⟩ := h
  have htaken : (only user).usernameTaken 1 guest.username.val = false := by
    refine any_eq_false.mpr fun i _ => ?_
    simp only [only]
    split_ifs <;> simp [hfree]
  have hallowed : (only user).authorizes r = true := by
    unfold authorizes
    rw [hactor, htarget]
    cases hk : r.kind <;> simp_all [only, Record.replacement]
  refine ⟨guest, ?_⟩
  simp only [run, foldl_cons, foldl_nil, step, applyCommitted, hr]
  rw [if_neg (by simp [only, creation]), if_neg (by simp [only]), if_pos hallowed]
  simp [htarget, hguest]

theorem principals_identified_bootstrap : ∃ s guest, new bootstrap = some s ∧
    ((s.runs [(creation, true)]).slots 1).user = some guest ∧
      (s.runs [(creation, true)]).Identified (s.applied [(creation, true)]) := by
  obtain ⟨guest, h⟩ := @exists_guest bootstrap (by decide +kernel)
  have hruns (s : Store) (c : Call) : s.runs [(c, true)] = s.run [c] := by
    simp [runs, run, attempt, step]
  refine ⟨only bootstrap, guest, rfl, ?_,
    (principals_identified (show new bootstrap = _ from rfl) _).1⟩
  rw [hruns]
  exact h

/-- A delegate, who is no operator. -/
def delegate : User := { bootstrap with role := 1 }

lemma noOperator_delegate : (only delegate).NoOperator [creation] := by
  intro pre c post record actor heq happ
  cases pre with
  | cons => simp at heq
  | nil =>
    have hactor := happ.actor
    simp only [run, foldl_nil, only] at hactor
    split_ifs at hactor
    cases hactor
    decide

theorem no_escalation_delegate : (only delegate).NoOperator [creation] ∧
    ∃ guest, (((only delegate).run [creation]).slots 1).user = some guest ∧ guest.Powerless := by
  obtain ⟨guest, h⟩ := @exists_guest delegate (by decide +kernel)
  have hsafe := (no_escalation (only delegate) [creation]).1 noOperator_delegate
  exact ⟨noOperator_delegate, guest, h, (hsafe.2 1 guest rfl h).1⟩

end Sample

end Store

end Qihse.Principal
