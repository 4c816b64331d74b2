import Qihse.Consensus.Data

/-!
# The membership fold

The effective configuration is the static baseline folded over every configuration entry of the
log, the compacted prefix included. `foldFull` also derives the joint phase: the configuration
`old` that was in force at the latest `jointBegin`, and whether the phase is still open at a given
commit index.
-/

namespace Qihse.Consensus

/-- The member a configuration entry names. -/
def Entry.uuid (e : Entry) : Uuid := Uuid.ofBytes e.payload

/-- The role byte of an extended `configAdd` payload. -/
def Entry.roleByte (e : Entry) : ℕ := (e.payload.getD 16 0).toNat

/-- The weight field of an extended `configAdd` payload. -/
def Entry.weightField (e : Entry) : ℕ :=
  (e.payload.getD 17 0).toNat + 256 * (e.payload.getD 18 0).toNat

/-- `qcs_config_entry_valid`. -/
def Entry.configEntryValid (e : Entry) : Bool :=
  match e.type with
  | .data => true
  | .jointBegin | .jointEnd => e.payload.length = 0 && e.classif = 0 && e.sci = 0
  | .configAdd =>
    (e.payload.length = 16 || e.payload.length = 20) && e.classif = 0 && e.sci = 0 &&
      !e.uuid.isNil &&
      (e.payload.length = 16 || e.roleByte ≤ 2 && e.weightField ≠ 0 && e.weightField ≤ maxWeight)
  | .configRemove =>
    e.payload.length = 16 && e.classif = 0 && e.sci = 0 && !e.uuid.isNil

def MemberRole.ofByte : ℕ → MemberRole
  | 1 => .witness
  | 2 => .learner
  | _ => .voter

def MemberRole.toByte : MemberRole → ℕ
  | .voter => 0
  | .witness => 1
  | .learner => 2

/-- `qcs_entry_role_weight`. -/
def Entry.roleWeight (e : Entry) : MemberRole × ℕ :=
  if e.type = .configAdd ∧ e.payload.length = 20 then (.ofByte e.roleByte, e.weightField)
  else (.voter, 1)

/-- `qcs_fold_apply`; `none` is the overflow flag. -/
def foldApply (members : List Member) (e : Entry) : Option (List Member) :=
  if e.type = .configAdd then
    if members.any (·.id = e.uuid) then some members
    else if maxMembers ≤ members.length then none
    else some (members ++ [⟨e.uuid, e.roleWeight.1, e.roleWeight.2⟩])
  else some (members.eraseP (·.id = e.uuid))

/-- `qcs_fold_t`. -/
structure Fold where
  members : List Member
  old : List Member
  beginIndex : ℕ
  endIndex : ℕ
  active : Bool

/-- `qcs_fold_step`. -/
def Fold.step (f : Fold) (e : Entry) (index : ℕ) : Option Fold :=
  if e.configEntryValid then
    match e.type with
    | .data => some f
    | .configAdd | .configRemove => (foldApply f.members e).map fun ms => { f with members := ms }
    | .jointBegin =>
      if f.beginIndex ≠ 0 ∧ f.endIndex = 0 then none
      else if f.members.length < 1 then none
      else some { f with old := f.members, beginIndex := index, endIndex := 0 }
    | .jointEnd =>
      if f.beginIndex = 0 ∨ f.endIndex ≠ 0 then none
      else some { f with endIndex := index }
  else none

/-- The loop of `qcs_fold_full` over entries whose first one has the given index. -/
def Fold.steps (f : Fold) : List Entry → ℕ → Option Fold
  | [], _ => some f
  | e :: es, index => (f.step e index).bind fun f' => f'.steps es (index + 1)

def Fold.start (base : List Member) : Fold := ⟨base, [], 0, 0, false⟩

/-- The joint voter set: the folded members, then those of `old` that are not among them. -/
def Fold.union (f : Fold) : List Member :=
  f.old.foldl (fun u m => if u.any (·.id = m.id) then u else u ++ [m]) f.members

/-- `qcs_fold_full`. -/
def foldFull (base : List Member) (entries : List Entry) (commit : ℕ) (extra : Option Entry) :
    Option Fold := do
  let f ← (Fold.start base).steps (entries ++ extra.toList) 1
  if f.members.length < 1 then none
  if (f.members.map Member.voteWeight).sum = 0 then none
  let active := if f.endIndex ≠ 0 ∧ f.endIndex ≤ commit then false else decide (f.beginIndex ≠ 0)
  let f := { f with active := active }
  if f.active ∧ maxMembers < f.union.length then none
  return f

namespace Node

variable (cs : Node)

/-- `qcs_fold_membership`, with the member records instead of the bare identifiers. -/
def foldMembership (extra : Option Entry) : Option (List Member) := do
  let f ← foldFull cs.cfg.members cs.entries u64Max extra
  if f.members.length < 1 ∨ maxMembers < f.members.length then none
  return f.members

/-- `qcs_fold_at_commit`. -/
def foldAtCommit : Option Fold := foldFull cs.cfg.members cs.entries cs.commit none

/-- Forget the duck `id`: its slot takes the last tracked one. -/
def dropDuck (ducks : List LameDuck) (id : Uuid) : List LameDuck :=
  match ducks.findIdx? (·.id = id) with
  | none => ducks
  | some d =>
    match ducks.getLast? with
    | none => ducks
    | some l => (ducks.set d l).dropLast

/-- One round of the loop of `qcs_set_membership` that tracks the dropped members. -/
def trackDuck (members : List Member) (lastConfig : ℕ) (ducks : List LameDuck) (old : Member) :
    List LameDuck :=
  if members.any (·.id = old.id) then dropDuck ducks old.id
  else if ducks.any (·.id = old.id) then ducks
  else if maxMembers ≤ ducks.length then ducks
  else ducks ++ [⟨old.id, if lastConfig = 0 then 1 else lastConfig, false⟩]

/-- `qcs_set_membership`. -/
def setMembership (members : List Member) : Node :=
  let carry (xs : List ℕ) (fresh : ℕ) (m : Member) : ℕ :=
    (cs.memberIndex m.id).elim fresh fun j => xs.getD j 0
  let cs' : Node := { cs with
    nextIndex := members.map (carry cs.nextIndex (cs.absLastIndex + 1))
    matchIndex := members.map (carry cs.matchIndex 0)
    members := members
    ducks := cs.members.foldl (trackDuck members cs.lastConfigIndex) cs.ducks
    selfIndex := members.findIdx? (·.id = cs.cfg.self) }
  if cs'.selfIndex = none then
    { cs' with role := .follower, leader := none, votesGrantedMask := 0 }
  else cs'

/-- `qcs_recompute_membership`; `none` when the fold is refused. -/
def recomputeMembership : Option Node :=
  match cs.foldMembership none with
  | none => none
  | some members => if members = cs.members then some cs else some (cs.setMembership members)

/-- Whether member `i` of the effective configuration is marked in a vote or match set. -/
def markedWeight (marked : ℕ → Bool) : ℕ :=
  ((cs.members.zipIdx.filter fun p => marked p.2).map fun p => p.1.voteWeight).sum

/-- The dual count of the joint phase: the weight that the marked members carry in `old`. -/
def markedOldWeight (old : List Member) (marked : ℕ → Bool) : ℕ :=
  ((cs.members.zipIdx.filter fun p => marked p.2).map fun p =>
    (old.find? (·.id = p.1.id)).elim 0 Member.voteWeight).sum

/-- The `C_old` threshold of the joint phase. -/
def oldMajority (old : List Member) : ℕ := (old.map Member.voteWeight).sum / 2 + 1

end Node

end Qihse.Consensus
