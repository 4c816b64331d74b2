import Qihse.Bytes.Codec
import Qihse.Bytes.Text

/-!
# Principal records

`qihse_principal_record.c`: the payloads of the principal log, how they are read, and the rule that
decides whether a committed record may change the registry.
-/

open Bytes

namespace Qihse.Principal

def roleOperator : UInt16 := 0

def roleGuest : UInt16 := 2

def tenantSystem : UInt32 := 0

def tenantInvalid : UInt32 := 0xffffffff

def slotCount : UInt32 := 65536

def objectAclMaxEntries : ℕ := 64

/-- `QIHSE_ACL_READ | QIHSE_ACL_WRITE | QIHSE_ACL_ADMIN`. -/
def aclFlags : UInt8 := 0x07

def pwVerifierVersion1 : UInt16 := 1

def pwAlgPbkdf2HmacSha384 : UInt16 := 1

def pwMinIterations : UInt32 := 600000

def intMax : UInt32 := 0x7fffffff

/-- `qihse_acl_entry_t`. -/
structure AclEntry where
  namespaceId : UInt32
  resourceId : UInt64
  accessFlags : UInt8
deriving DecidableEq

/-- `qihse_password_verifier_t`. -/
structure Verifier where
  version : UInt16
  algorithm : UInt16
  iterations : UInt32
  salt : Block 16
  verifier : Block 48
deriving DecidableEq

/-- `qihse_user_s`. Of the access list the entries in use are given. -/
structure User where
  userId : UInt32
  role : UInt16
  classificationLevel : UInt16
  sciCompartments : UInt16
  tenantId : UInt32
  username : Block 64
  canCreateUsers : Bool
  hardwareTokenPresent : Bool
  requiresHardwareToken : Bool
  fido2CredentialId : Block 64
  verifier : Verifier
  passwordSet : Bool
  objectAcl : List AclEntry
deriving DecidableEq

/-- `qihse_principal_record_kind_t`, with the principal of a put. -/
inductive Kind
  | put (principal : User)
  | delete
deriving DecidableEq

/-- `qihse_principal_record_t`. -/
structure Record where
  kind : Kind
  requestId : Block 16
  expectedRegistryGeneration : UInt64
  actorId : UInt32
  actorGeneration : UInt64
  principalGeneration : UInt64
  targetId : UInt32
deriving DecidableEq

/-! ### Validity -/

/-- `bounded_string`. -/
def boundedString (value : List UInt8) (nonempty requireZeroPadding : Bool) : Bool :=
  (cString value).length < value.length && (!nonempty || cString value ≠ []) &&
    (!requireZeroPadding || (value.drop ((cString value).length + 1)).all (· = 0))

/-- The loop of `qihse_principal_fields_valid` over the access list. -/
def aclValid (acl : List AclEntry) : Bool :=
  acl.all (fun e => e.accessFlags ≠ 0 && e.accessFlags &&& ~~~aclFlags = 0) &&
    decide (acl.Pairwise fun a b => ¬ (a.namespaceId = b.namespaceId ∧ a.resourceId = b.resourceId))

/-- `qihse_principal_fields_valid`. -/
def User.fieldsValid (user : User) (allowRoot : Bool) : Bool :=
  user.userId < slotCount &&
  (user.userId ≠ 0 || (allowRoot && user.role = roleOperator && user.tenantId = tenantSystem &&
    user.classificationLevel = 0xffff && user.sciCompartments = 0xffff)) &&
  user.tenantId ≠ tenantInvalid &&
  user.role ≤ roleGuest &&
  boundedString user.username.val true false &&
  boundedString user.fido2CredentialId.val false false &&
  user.objectAcl.length ≤ objectAclMaxEntries &&
  user.passwordSet &&
  user.verifier.version = pwVerifierVersion1 &&
  user.verifier.algorithm = pwAlgPbkdf2HmacSha384 &&
  pwMinIterations ≤ user.verifier.iterations &&
  user.verifier.iterations ≤ intMax &&
  !user.hardwareTokenPresent &&
  (user.role ≠ roleOperator ||
    (user.classificationLevel = 0xffff && user.sciCompartments = 0xffff)) &&
  aclValid user.objectAcl

/-- `valid_put`. -/
def Record.validPut (record : Record) (principal : User) : Bool :=
  record.targetId ≠ 0 && principal.userId = record.targetId && principal.fieldsValid false

/-- `valid_record`. -/
def Record.valid (record : Record) : Bool :=
  record.targetId ≠ 0 && record.targetId < slotCount && record.actorId < slotCount &&
  record.principalGeneration ≠ 0 && record.actorGeneration ≠ 0 &&
  record.requestId.val.any (· ≠ 0) &&
  match record.kind with
  | .put principal => record.validPut principal
  | .delete => true

/-! ### Decoding -/

def recordMagic : Text := ascii "QPR1"

def recordVersion : ℕ := 1

def recordMaxBytes : ℕ := 2048

def word8 : Reader UInt8 := UInt8.ofNat <$> word 1

def word16 : Reader UInt16 := UInt16.ofNat <$> word 2

def word32 : Reader UInt32 := UInt32.ofNat <$> word 4

def word64 : Reader UInt64 := UInt64.ofNat <$> word 8

/-- A byte that must be 0 or 1. -/
def flag : Reader Bool := do
  let b ← word8
  check (b ≤ 1)
  return b = 1

def aclEntry : Reader AclEntry := do
  let namespaceId ← word32
  let resourceId ← word64
  let accessFlags ← word8
  return ⟨namespaceId, resourceId, accessFlags⟩

/-- The part of a put record behind the common fields. -/
def readUser (targetId : UInt32) : Reader User := do
  let tenantId ← word32
  let role ← word16
  let classificationLevel ← word16
  let sciCompartments ← word16
  let canCreateUsers ← flag
  let requiresHardwareToken ← flag
  let hardwareTokenPresent ← flag
  let username ← block 64
  let fido2CredentialId ← block 64
  let version ← word16
  let algorithm ← word16
  let iterations ← word32
  let salt ← block 16
  let verifier ← block 48
  let aclCount ← word 1
  check (aclCount ≤ objectAclMaxEntries)
  let objectAcl ← many aclEntry aclCount
  return {
    userId := targetId
    role := role
    classificationLevel := classificationLevel
    sciCompartments := sciCompartments
    tenantId := tenantId
    username := username
    canCreateUsers := canCreateUsers
    hardwareTokenPresent := hardwareTokenPresent
    requiresHardwareToken := requiresHardwareToken
    fido2CredentialId := fido2CredentialId
    verifier := ⟨version, algorithm, iterations, salt, verifier⟩
    passwordSet := true
    objectAcl := objectAcl }

/-- The bytes of a record that stand for its kind. A record with another byte is not valid. -/
def readKind (code : ℕ) (targetId : UInt32) : Reader Kind :=
  if code = 1 then Kind.put <$> readUser targetId
  else if code = 2 then pure .delete
  else fun _ => none

def readRecord : Reader Record := do
  let magic ← take 4
  let version ← word 2
  let code ← word 1
  let reserved ← word 1
  let requestId ← block 16
  let expectedRegistryGeneration ← word64
  let actorId ← word32
  let actorGeneration ← word64
  let principalGeneration ← word64
  let targetId ← word32
  let kind ← readKind code targetId
  check (magic = recordMagic && version = recordVersion && reserved = 0)
  return ⟨kind, requestId, expectedRegistryGeneration, actorId, actorGeneration,
    principalGeneration, targetId⟩

/-- The strings of a put are padded with zeros. -/
def Record.canonical (record : Record) : Bool :=
  match record.kind with
  | .put principal =>
    boundedString principal.username.val true true &&
      boundedString principal.fido2CredentialId.val false true
  | .delete => true

/-- `qihse_principal_record_decode`. -/
def decode (data : List UInt8) : Option Record :=
  if data.length > recordMaxBytes then none
  else
    match readRecord.run data with
    | some (record, []) => if record.valid && record.canonical then some record else none
    | _ => none

lemma valid_of_decode {data : List UInt8} {record : Record} (h : decode data = some record) :
    record.valid = true := by
  unfold decode at h
  split_ifs at h
  split at h
  · split_ifs at h with hvalid
    cases h
    exact (Bool.and_eq_true_iff.mp hvalid).1
  · cases h

lemma targetId_ne_zero {record : Record} (h : record.valid = true) : record.targetId ≠ 0 := by
  simp only [Record.valid, Bool.and_eq_true, decide_eq_true_eq, and_assoc] at h
  simpa using h.1

/-! ### Authorization -/

/-- The common conditions of `qihse_principal_record_authorize_transition`. -/
def Record.fresh (record : Record) (registryGeneration : UInt64) (actor : User)
    (actorGeneration : UInt64) (target : Option User) (targetGeneration : UInt64) : Bool :=
  record.valid && actor.role ≤ roleGuest && actor.tenantId ≠ tenantInvalid &&
  record.expectedRegistryGeneration = registryGeneration &&
  registryGeneration ≠ 0xffffffffffffffff &&
  record.actorId = actor.userId &&
  record.actorGeneration = actorGeneration && actorGeneration ≠ 0 &&
  (match target with
    | some t => t.userId = record.targetId && targetGeneration ≠ 0
    | none => targetGeneration = 0) &&
  targetGeneration ≠ 0xffffffffffffffff &&
  record.principalGeneration = targetGeneration + 1

/-- An operator may change or delete the principals of its tenant, a system operator those of
every tenant. -/
def User.governs (actor target : User) : Bool :=
  actor.role = roleOperator &&
    (actor.tenantId = tenantSystem ||
      (target.tenantId = actor.tenantId && target.tenantId ≠ tenantSystem))

/-- What an actor may create: an operator any principal of its tenant, a delegate plain guests. -/
def User.creates (actor proposed : User) : Bool :=
  (actor.role = roleOperator || actor.canCreateUsers) &&
  (actor.tenantId = tenantSystem || proposed.tenantId = actor.tenantId) &&
  (actor.role = roleOperator ||
    (proposed.role = roleGuest && proposed.classificationLevel = 0 &&
      proposed.sciCompartments = 0 && !proposed.canCreateUsers && proposed.objectAcl = []))

/-- The proposed principal has no more authority than the actor. -/
def User.bounds (actor proposed : User) : Bool :=
  actor.role ≤ proposed.role &&
  proposed.classificationLevel ≤ actor.classificationLevel &&
  proposed.sciCompartments &&& actor.sciCompartments = proposed.sciCompartments &&
  (!proposed.canCreateUsers || actor.role = roleOperator || actor.canCreateUsers) &&
  (!actor.requiresHardwareToken || proposed.requiresHardwareToken)

/-- The part of `qihse_principal_record_authorize_transition` that depends on the kind. -/
def Record.permitted (record : Record) (actor : User) (target : Option User) : Bool :=
  match record.kind, target with
  | .delete, none => false
  | .delete, some target => actor.governs target
  | .put proposed, some target =>
    actor.governs target && target.role = proposed.role && target.tenantId = proposed.tenantId &&
      actor.bounds proposed
  | .put proposed, none => actor.creates proposed && actor.bounds proposed

/-- `qihse_principal_record_authorize_transition`. -/
def Record.authorizeTransition (record : Record) (registryGeneration : UInt64) (actor : User)
    (actorGeneration : UInt64) (target : Option User) (targetGeneration : UInt64) : Bool :=
  record.fresh registryGeneration actor actorGeneration target targetGeneration &&
    record.permitted actor target

/-- What an applied record puts into its slot. -/
def Record.replacement (record : Record) : Option User :=
  match record.kind with
  | .put principal => some principal
  | .delete => none

section

variable {actor target proposed : User}

lemma User.governs_tenant (h : actor.governs target = true) :
    actor.tenantId = target.tenantId ∨ actor.tenantId = tenantSystem := by
  simp only [governs, Bool.and_eq_true, Bool.or_eq_true, decide_eq_true_eq] at h
  rcases h.2 with hsys | htenant
  · exact .inr hsys
  · exact .inl htenant.1.symm

/-- The tenants in which an actor may create principals. -/
def User.MayCreateIn (actor : User) (tenant : UInt32) : Prop :=
  actor.tenantId = tenant ∨ actor.tenantId = tenantSystem

/-- A guest without any authority. -/
structure User.Powerless (user : User) : Prop where
  role : user.role = roleGuest
  classificationLevel : user.classificationLevel = 0
  sciCompartments : user.sciCompartments = 0
  canCreateUsers : user.canCreateUsers = false
  objectAcl : user.objectAcl = []

lemma User.creates_tenant (h : actor.creates proposed = true) :
    actor.MayCreateIn proposed.tenantId := by
  simp only [creates, Bool.and_eq_true, Bool.or_eq_true, decide_eq_true_eq] at h
  rcases h.1.2 with hsys | htenant
  · exact .inr hsys
  · exact .inl htenant.symm

lemma User.creates_powerless (h : actor.creates proposed = true)
    (hrole : actor.role ≠ roleOperator) : proposed.Powerless := by
  simp only [creates, Bool.and_eq_true, Bool.or_eq_true, decide_eq_true_eq,
    Bool.not_eq_true'] at h
  obtain ⟨⟨⟨⟨hguest, hclass⟩, hsci⟩, hcreate⟩, hacl⟩ := h.2.resolve_left hrole
  exact ⟨hguest, hclass, hsci, hcreate, hacl⟩

end

end Qihse.Principal
