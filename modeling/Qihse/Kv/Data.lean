import Mathlib

/-!
# Records of the key-value store

The payload of a key in `qihse_kv_store.c`, and the record that a change stream carries. Keys and
values are C strings, given by their bytes without the terminator.
-/

namespace Qihse.Kv

abbrev Key : Type := List UInt8

abbrev Value : Type := List UInt8

/-- `kv_payload_t`. An `expireTimeMs` of zero is no expiry, and `tombstone` is the only flag. -/
structure Payload where
  value : Value
  expireTimeMs : ℕ
  changeSeq : ℕ
  classification : UInt16
  sciCompartment : UInt16
  tombstone : Bool
deriving DecidableEq

/-- A record with a time to live whose time has come. -/
def Payload.expired (p : Payload) (now : ℕ) : Bool :=
  decide (p.expireTimeMs ≠ 0 ∧ p.expireTimeMs ≤ now)

/-- `payload_is_dead`. -/
def Payload.isDead (p : Payload) (now : ℕ) : Bool := p.tombstone || p.expired now

/-- `kv_disk_record_t`, also a key of the memtable with its payload. -/
structure Entry where
  key : Key
  payload : Payload
deriving DecidableEq

/-- What `qihse_auth_can_access` says of one user, by classification and compartment. -/
abbrev Access : Type := UInt16 → UInt16 → Bool

/-- A user with every clearance. -/
def cleared : Access := fun _ _ => true

end Qihse.Kv
