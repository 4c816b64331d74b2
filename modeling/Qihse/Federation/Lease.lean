import Qihse.Federation.Object

/-!
# Leases

The leases of `qihse_federation.c`: a record for every lease, an index from request ids to leases,
and a record for every resource with the last lease that was granted and its fencing epoch. A lease
with a greater epoch is granted while an earlier one is alive, and both are granted then; what tells
them apart is the epoch, which goes up with every lease of a resource.
-/

namespace Qihse.Federation

open Bytes List Option Function UInt64

/-! ### Identifiers -/

abbrev Uuid : Type := { bytes : List UInt8 // bytes.length = 16 }

def hexDigit (n : ℕ) : UInt8 := UInt8.ofNat (if n < 10 then 48 + n else 87 + n)

def hexByte (b : UInt8) : Text := [hexDigit (b.toNat / 16), hexDigit (b.toNat % 16)]

def uuidHex (id : Uuid) : Text := id.1.flatMap hexByte

/-- The bytes with dashes before the fifth, seventh, ninth and eleventh. -/
def uuidFormat (id : Uuid) : Text :=
  (id.1.take 4).flatMap hexByte ++ ascii "-" ++ ((id.1.drop 4).take 2).flatMap hexByte ++
    ascii "-" ++ ((id.1.drop 6).take 2).flatMap hexByte ++ ascii "-" ++
    ((id.1.drop 8).take 2).flatMap hexByte ++ ascii "-" ++ (id.1.drop 10).flatMap hexByte

def uuidHexVal (c : UInt8) : Option ℕ :=
  if 48 ≤ c ∧ c ≤ 57 then some (c.toNat - 48)
  else if 97 ≤ c ∧ c ≤ 102 then some (c.toNat - 87)
  else if 65 ≤ c ∧ c ≤ 70 then some (c.toNat - 55)
  else none

/-- `n` bytes in hexadecimal digits; where `dashes` is set, a dash before a byte is skipped. -/
def hexBytes (dashes : Bool) : ℕ → Text → Option (List UInt8)
  | 0, text => if text.isEmpty then some [] else none
  | n + 1, text =>
    match if dashes && text.head? == some 45 then text.tail else text with
    | hi :: lo :: rest =>
      match uuidHexVal hi, uuidHexVal lo, hexBytes dashes n rest with
      | some h, some l, some bytes => some (UInt8.ofNat (16 * h + l) :: bytes)
      | _, _, _ => none
    | _ => none

lemma length_hexBytes {dashes : Bool} {n : ℕ} {text : Text} {bytes : List UInt8}
    (h : hexBytes dashes n text = some bytes) : bytes.length = n := by
  induction n generalizing text bytes with
  | zero =>
    rw [hexBytes] at h
    split_ifs at h
    cases h
    rfl
  | succ n ih =>
    rw [hexBytes] at h
    split at h
    · split at h
      · next hrest =>
        cases h
        rw [length_cons, ih hrest]
      · cases h
    · cases h

def uuidOfHex (dashes : Bool) (text : Text) : Option Uuid :=
  match h : hexBytes dashes 16 text with
  | none => none
  | some bytes => some ⟨bytes, length_hexBytes h⟩

def uuidParse (text : Text) : Option Uuid := uuidOfHex true text

/-- The identifier in a field of a record; a field that is no identifier leaves the zero one. -/
def uuidFromHex (text : Text) : Uuid := (uuidOfHex false text).getD ⟨List.replicate 16 0, rfl⟩

/-! ### Records -/

inductive LeaseState
  | free
  | granted
  | expired
  | released
  deriving DecidableEq

namespace LeaseState

def code : LeaseState → ℕ
  | free => 0
  | granted => 1
  | expired => 2
  | released => 3

def ofCode : ℕ → Option LeaseState
  | 0 => some free
  | 1 => some granted
  | 2 => some expired
  | 3 => some released
  | _ => none

end LeaseState

/-- `qihse_federation_lease_t`; `holder` is `none` where `has_holder` is not set. -/
structure Lease where
  leaseId : Uuid
  ownerNode : Uuid
  namespaceName : Text
  resourceId : Text
  fencingEpoch : UInt64
  generation : UInt64
  state : LeaseState
  issuedHlcPhysical : UInt64
  expiresHlcPhysical : UInt64
  requestId : Uuid
  issuer : Uuid
  holder : Option UInt32

def leaseEncode (l : Lease) : Text :=
  let tab := ascii "\t"
  fit 1024 (uuidHex l.leaseId ++ tab ++ uuidHex l.ownerNode ++ tab ++ l.resourceId ++ tab ++
    decimal l.fencingEpoch.toNat ++ tab ++ decimal l.generation.toNat ++ tab ++
    decimal l.state.code ++ tab ++ decimal l.issuedHlcPhysical.toNat ++ tab ++
    decimal l.expiresHlcPhysical.toNat ++ tab ++ uuidHex l.requestId ++ tab ++ uuidHex l.issuer ++
    (match l.holder with
      | none => []
      | some user => tab ++ decimal user.toNat))

def leaseFormat : List Directive :=
  [.field 32, .space, .field 32, .space, .field 63, .space, .unsigned 64, .space, .unsigned 64,
    .space, .unsigned 32, .space, .unsigned 64, .space, .unsigned 64, .space, .field 32, .space,
    .field 32, .space, .unsigned 32]

/-- The namespace is not in the record. -/
def leaseDecode (blob : Text) : Option Lease :=
  match scan leaseFormat blob with
  | .text lid :: .text oid :: .text resource :: .number fence :: .number gen :: .number state ::
      .number issued :: .number expires :: rest =>
    match LeaseState.ofCode state with
    | none => none
    | some state =>
      let zero : Uuid := ⟨List.replicate 16 0, rfl⟩
      let (rid, iss, holder) : Uuid × Uuid × Option UInt32 :=
        match rest with
        | [.text rid] => (uuidFromHex rid, zero, none)
        | [.text rid, .text iss] => (uuidFromHex rid, uuidFromHex iss, none)
        | [.text rid, .text iss, .number user] =>
          (uuidFromHex rid, uuidFromHex iss, some (UInt32.ofNat user))
        | _ => (zero, zero, none)
      some ⟨uuidFromHex lid, uuidFromHex oid, [], resource, ofNat fence, ofNat gen,
        state, ofNat issued, ofNat expires, rid, iss, holder⟩
  | _ => none

def leaseKvKey (id : Uuid) : Text := ascii "fedlease:" ++ uuidFormat id

def leaseRequestKey (id : Uuid) : Text := ascii "fedleasereq:" ++ uuidFormat id

def leaseResourceKey (namespaceName resourceId : Text) : Text :=
  fit 192 (ascii "fedleaseres:" ++ namespaceName ++ ascii ":" ++ resourceId)

/-- The record of a resource: its last lease and the epoch of it. -/
def leaseResourceValue (id : Uuid) (epoch : UInt64) : Text :=
  fit 128 (uuidFormat id ++ ascii "\t" ++ decimal epoch.toNat)

/-! ### Calls -/

def leaseIsDead (l : Lease) (nowMs : UInt64) : Bool :=
  l.expiresHlcPhysical != 0 && l.expiresHlcPhysical < nowMs

/-- A granted lease whose time is over is written back as expired. -/
def leaseReap (kv : Kv) (key : Text) (l : Lease) (nowMs : UInt64) : Lease × Kv :=
  if l.state ≠ .granted ∨ leaseIsDead l nowMs = false then (l, kv)
  else
    let dead := { l with state := .expired }
    (dead, kv.set key (leaseEncode dead))

/-- The lease that was issued for a request id. -/
def leasePrior (kv : Kv) (requestId : Uuid) : Option (Uuid × Lease) :=
  (kv (leaseRequestKey requestId)).bind fun text =>
    (uuidParse text).bind fun prior =>
      ((kv (leaseKvKey prior)).bind leaseDecode).map fun l => (prior, l)

/-- The last lease of a resource and its epoch, as its record has them. -/
def leaseMark (kv : Kv) (resourceKey : Text) : Option (Text × ℕ) :=
  (kv resourceKey).bind fun text =>
    match scan [.field 40, .space, .unsigned 64] text with
    | [.text holder] => some (holder, 0)
    | [.text holder, .number epoch] => some (holder, epoch)
    | _ => none

/-- The last lease of a resource is reaped before another one is issued. -/
def leaseReapHolder (kv : Kv) (holder : Text) (nowMs : UInt64) : Kv :=
  match uuidParse holder with
  | none => kv
  | some id =>
    match (kv (leaseKvKey id)).bind leaseDecode with
    | none => kv
    | some l => (leaseReap kv (leaseKvKey id) l nowMs).2

/-- The three records of a new lease. -/
def leaseIssue (kv : Kv) (user : UInt32) (request : Lease) : Lease × Kv :=
  let out := { request with
    state := .granted
    generation := request.generation + 1
    holder := some user }
  (out, ((kv.set (leaseKvKey out.leaseId) (leaseEncode out)).set
    (leaseResourceKey request.namespaceName request.resourceId)
      (leaseResourceValue out.leaseId out.fencingEpoch)).set
    (leaseRequestKey request.requestId) (uuidFormat out.leaseId))

inductive Acquired
  /-- the request was served before -/
  | again (lease : Lease)
  | refused
  | granted (lease : Lease)

def leaseAcquire (kv : Kv) (user : UInt32) (request : Lease) (nowMs : UInt64) : Acquired × Kv :=
  match leasePrior kv request.requestId with
  | some (prior, l) =>
    let r := leaseReap kv (leaseKvKey prior) l nowMs
    (.again r.1, r.2)
  | none =>
    match leaseMark kv (leaseResourceKey request.namespaceName request.resourceId) with
    | none =>
      let r := leaseIssue kv user request
      (.granted r.1, r.2)
    | some (holder, epoch) =>
      if request.fencingEpoch.toNat ≤ epoch then (.refused, kv)
      else
        let r := leaseIssue (leaseReapHolder kv holder nowMs) user request
        (.granted r.1, r.2)

inductive RenewStatus
  | ok
  | notFound
  | expired
  | notGranted
  | holderMismatch
  | generationMismatch

/-- An expected generation of zero is not checked. -/
def leaseRenewInternal (kv : Kv) (user : UInt32) (id : Uuid) (expectedGeneration nowMs
    newExpires : UInt64) : RenewStatus × Kv :=
  match (kv (leaseKvKey id)).bind leaseDecode with
  | none => (.notFound, kv)
  | some l =>
    if l.state = .granted ∧ leaseIsDead l nowMs then
      (.expired, (leaseReap kv (leaseKvKey id) l nowMs).2)
    else if l.state ≠ .granted then (.notGranted, kv)
    else if l.holder ≠ some user then (.holderMismatch, kv)
    else if expectedGeneration ≠ 0 ∧ expectedGeneration ≠ l.generation then
      (.generationMismatch, kv)
    else
      (.ok, kv.set (leaseKvKey id) (leaseEncode
        { l with expiresHlcPhysical := newExpires, generation := l.generation + 1 }))

def leaseRelease (kv : Kv) (id : Uuid) : Bool × Kv :=
  match (kv (leaseKvKey id)).bind leaseDecode with
  | none => (false, kv)
  | some l =>
    if l.state = .released then (true, kv)
    else (true, kv.set (leaseKvKey id) (leaseEncode { l with state := .released }))

/-- The record of a lease; one whose time is over reads as expired. -/
def leaseRead (kv : Kv) (id : Uuid) (nowMs : UInt64) : Option Lease :=
  match (kv (leaseKvKey id)).bind leaseDecode with
  | none => none
  | some l =>
    if l.leaseId ≠ id then none
    else if l.state = .granted ∧ leaseIsDead l nowMs then some { l with state := .expired }
    else some l

inductive LeaseCall
  | acquire (user : UInt32) (request : Lease) (nowMs : UInt64)
  | renewChecked (user : UInt32) (id : Uuid) (expectedGeneration nowMs newExpires : UInt64)
  | renew (user : UInt32) (id : Uuid) (nowMs newExpires : UInt64)
  | release (id : Uuid)

/-- The store, and the leases that were granted with the last one first. -/
structure Leases where
  kv : Kv
  grants : List Lease

namespace Leases

def call (s : Leases) : LeaseCall → Leases
  | .acquire user request nowMs =>
    match leaseAcquire s.kv user request nowMs with
    | (.granted l, kv) => ⟨kv, l :: s.grants⟩
    | (_, kv) => ⟨kv, s.grants⟩
  | .renewChecked user id expectedGeneration nowMs newExpires =>
    ⟨(leaseRenewInternal s.kv user id expectedGeneration nowMs newExpires).2, s.grants⟩
  | .renew user id nowMs newExpires =>
    ⟨(leaseRenewInternal s.kv user id 0 nowMs newExpires).2, s.grants⟩
  | .release id => ⟨(leaseRelease s.kv id).2, s.grants⟩

def run (calls : List LeaseCall) : Leases := calls.foldl call ⟨fun _ => none, []⟩

end Leases

open Leases

/-! ### Keys -/

lemma take_leaseResourceKey (namespaceName resourceId : Text) :
    (leaseResourceKey namespaceName resourceId).take 12 = ascii "fedleaseres:" := by
  rw [leaseResourceKey, fit, take_take]
  simp only [append_assoc]
  exact take_left' rfl

lemma leaseResourceKey_ne_leaseKvKey (namespaceName resourceId : Text) (id : Uuid) :
    leaseResourceKey namespaceName resourceId ≠ leaseKvKey id := by
  intro heq
  have hlease : (leaseKvKey id).take 9 = ascii "fedlease:" := take_left' rfl
  have hresource : (leaseResourceKey namespaceName resourceId).take 9 = ascii "fedleaser" := by
    have h := congrArg (List.take 9) (take_leaseResourceKey namespaceName resourceId)
    rwa [take_take] at h
  rw [heq, hlease] at hresource
  exact absurd hresource (by decide)

lemma leaseKvKey_ne_leaseRequestKey (id requestId : Uuid) :
    leaseKvKey id ≠ leaseRequestKey requestId := by
  intro heq
  have hlease : (leaseKvKey id).take 9 = ascii "fedlease:" := take_left' rfl
  have hrequest : (leaseRequestKey requestId).take 9 = ascii "fedleaser" :=
    (take_append_of_le_length (by decide)).trans (by decide)
  rw [heq, hrequest] at hlease
  exact absurd hlease (by decide)

lemma uuidHexVal_hexDigit : ∀ n < 16, uuidHexVal (hexDigit n) = some n := by decide

lemma hexDigit_injective : ∀ n < 16, ∀ m < 16, hexDigit n = hexDigit m → n = m := by decide

lemma hexByte_injective {b c : UInt8} (h : hexByte b = hexByte c) : b = c := by
  have hb := b.toNat_lt
  have hc := c.toNat_lt
  simp only [hexByte, List.cons.injEq, and_true] at h
  have hhi := hexDigit_injective _ (by omega) _ (by omega) h.1
  have hlo := hexDigit_injective _ (by omega) _ (by omega) h.2
  exact UInt8.toNat_inj.mp (by omega)

lemma hex_injective {as bs : List UInt8} (h : as.flatMap hexByte = bs.flatMap hexByte) :
    as = bs := by
  induction as generalizing bs with
  | nil =>
    cases bs with
    | nil => rfl
    | cons => cases h
  | cons a as ih =>
    cases bs with
    | nil => cases h
    | cons b =>
      obtain ⟨hhead, htail⟩ := append_inj (show hexByte a ++ _ = hexByte b ++ _ from h) rfl
      rw [hexByte_injective hhead, ih htail]

lemma hexDigit_ne_tab {n : ℕ} (h : n < 16) : hexDigit n ≠ 9 := by
  intro heq
  have := congrArg UInt8.toNat heq
  rw [hexDigit, UInt8.toNat_ofNat'] at this
  have h9 : (9 : UInt8).toNat = 9 := rfl
  split_ifs at this <;> omega

lemma tab_notMem_hex (bytes : List UInt8) : 9 ∉ bytes.flatMap hexByte := by
  intro hmem
  obtain ⟨b, -, hb⟩ := mem_flatMap.mp hmem
  have hlt := b.toNat_lt
  rcases mem_cons.mp hb with h | h
  · exact hexDigit_ne_tab (by omega) h.symm
  · exact hexDigit_ne_tab (by omega) (mem_singleton.mp h).symm

lemma tab_notMem_uuidFormat (id : Uuid) : 9 ∉ uuidFormat id := by
  have hdash : (9 : UInt8) ∉ ascii "-" := by decide
  simp only [uuidFormat, mem_append, not_or]
  exact ⟨⟨⟨⟨⟨⟨⟨⟨tab_notMem_hex _, hdash⟩, tab_notMem_hex _⟩, hdash⟩, tab_notMem_hex _⟩, hdash⟩,
    tab_notMem_hex _⟩, hdash⟩, tab_notMem_hex _⟩

lemma length_hex (bytes : List UInt8) : (bytes.flatMap hexByte).length = 2 * bytes.length := by
  induction bytes with
  | nil => rfl
  | cons b bytes ih =>
    rw [flatMap_cons, length_append, ih, length_cons]
    show 2 + _ = _
    omega

lemma length_uuidFormat (id : Uuid) : (uuidFormat id).length = 36 := by
  have hdash : (ascii "-").length = 1 := rfl
  have hid := id.2
  simp only [uuidFormat, length_append, length_hex, hdash, length_take, length_drop,
    hid]
  rfl

lemma uuidFormat_injective : Function.Injective uuidFormat := by
  intro a b h
  have hjoin : ∀ (x : List UInt8) (i n : ℕ), (x.drop i).take n ++ x.drop (i + n) = x.drop i := by
    intro x i n
    rw [← drop_drop, take_append_drop]
  have hlen : ∀ i n, (((a.1.drop i).take n).flatMap hexByte).length =
      (((b.1.drop i).take n).flatMap hexByte).length := by
    intro i n
    simp only [length_hex, length_take, length_drop, a.2, b.2]
  have hend : ((a.1.drop 10).flatMap hexByte).length = ((b.1.drop 10).flatMap hexByte).length := by
    simp only [length_hex, length_drop, a.2, b.2]
  -- the parts are compared from the last one back
  obtain ⟨h, h10⟩ := append_inj' h hend
  obtain ⟨h, h8⟩ := append_inj' (append_cancel_right h) (hlen 8 2)
  obtain ⟨h, h6⟩ := append_inj' (append_cancel_right h) (hlen 6 2)
  obtain ⟨h, h4⟩ := append_inj' (append_cancel_right h) (hlen 4 2)
  have h0 := hex_injective (append_cancel_right h)
  refine Subtype.ext ?_
  rw [← take_append_drop 4 a.1, ← take_append_drop 4 b.1, h0, ← hjoin a.1 4 2,
    ← hjoin b.1 4 2, hex_injective h4, ← hjoin a.1 6 2, ← hjoin b.1 6 2, hex_injective h6,
    ← hjoin a.1 8 2, ← hjoin b.1 8 2, hex_injective h8, hex_injective h10]

/-- What the record of a resource says after a lease was issued. -/
lemma leaseMark_set (kv : Kv) (key : Text) (id : Uuid) (epoch : UInt64) :
    leaseMark (kv.set key (leaseResourceValue id epoch)) key =
      some (uuidFormat id, epoch.toNat) := by
  have hlen := length_uuidFormat id
  have hdec := length_decimal_le epoch.toNat
  have htab : (ascii "\t").length = 1 := rfl
  have hvalue : leaseResourceValue id epoch = uuidFormat id ++ ascii "\t" ++ decimal epoch.toNat :=
    fit_eq (by simp only [length_append]; omega)
  have hscan := scan_field_number 40 (ne_nil_of_length_pos (by omega)) (by omega)
    (tab_notMem_uuidFormat id) epoch.toNat_lt
  rw [leaseMark, Kv.set, update_self, bind_some, hvalue, hscan]

/-! ### Fencing -/

/-- The record of the resource of a lease. -/
def Lease.resourceKey (l : Lease) : Text := leaseResourceKey l.namespaceName l.resourceId

/-- What a call does that issues no lease: it only writes records of leases that have one. -/
structure Rewrites (kv kv' : Kv) : Prop where
  marks : ∀ namespaceName resourceId, kv' (leaseResourceKey namespaceName resourceId) =
    kv (leaseResourceKey namespaceName resourceId)
  leases : ∀ id, (kv' (leaseKvKey id)).isSome → (kv (leaseKvKey id)).isSome

namespace Rewrites

variable {kv : Kv} {id : Uuid}

lemma refl (kv : Kv) : Rewrites kv kv := ⟨fun _ _ => rfl, fun _ h => h⟩

lemma set (hid : (kv (leaseKvKey id)).isSome) (value : Text) :
    Rewrites kv (kv.set (leaseKvKey id) value) where
  marks ns res := update_of_ne (leaseResourceKey_ne_leaseKvKey ns res id) ..
  leases id' h := by
    by_cases hkey : leaseKvKey id' = leaseKvKey id
    · rwa [hkey]
    · rwa [Kv.set, update_of_ne hkey] at h

lemma reap (hid : (kv (leaseKvKey id)).isSome) (l : Lease) (nowMs : UInt64) :
    Rewrites kv (leaseReap kv (leaseKvKey id) l nowMs).2 := by
  unfold leaseReap
  split_ifs
  · exact refl kv
  · exact set hid _

/-- A lease that is decoded has a record. -/
lemma isSome_of_decode {l : Lease} (h : (kv (leaseKvKey id)).bind leaseDecode = some l) :
    (kv (leaseKvKey id)).isSome := by
  obtain ⟨text, htext, -⟩ := bind_eq_some_iff.mp h
  rw [htext]
  rfl

lemma reapHolder (kv : Kv) (holder : Text) (nowMs : UInt64) :
    Rewrites kv (leaseReapHolder kv holder nowMs) := by
  unfold leaseReapHolder
  split
  · exact refl kv
  · split
    · exact refl kv
    · next hdecode => exact reap (isSome_of_decode hdecode) _ nowMs

lemma renewInternal (kv : Kv) (user : UInt32) (id : Uuid) (expectedGeneration nowMs
    newExpires : UInt64) :
    Rewrites kv (leaseRenewInternal kv user id expectedGeneration nowMs newExpires).2 := by
  unfold leaseRenewInternal
  split
  · exact refl kv
  · next hdecode =>
    have hid := isSome_of_decode hdecode
    split_ifs
    · exact reap hid _ nowMs
    · exact refl kv
    · exact refl kv
    · exact refl kv
    · exact set hid _

lemma release (kv : Kv) (id : Uuid) : Rewrites kv (leaseRelease kv id).2 := by
  unfold leaseRelease
  split
  · exact refl kv
  · next hdecode =>
    split_ifs
    · exact refl kv
    · exact set (isSome_of_decode hdecode) _

lemma leaseMark_eq {kv' : Kv} (h : Rewrites kv kv') (l : Lease) :
    leaseMark kv' l.resourceKey = leaseMark kv l.resourceKey := by
  rw [leaseMark, leaseMark, Lease.resourceKey, h.marks]

end Rewrites

lemma isSome_of_leasePrior {kv : Kv} {requestId prior : Uuid} {l : Lease}
    (h : leasePrior kv requestId = some (prior, l)) : (kv (leaseKvKey prior)).isSome := by
  obtain ⟨text, -, htext⟩ := bind_eq_some_iff.mp h
  obtain ⟨id, -, hid⟩ := bind_eq_some_iff.mp htext
  obtain ⟨l', hdecode, heq⟩ := map_eq_some_iff.mp hid
  cases heq
  exact Rewrites.isSome_of_decode hdecode

lemma leaseIssue_resource (kv : Kv) (user : UInt32) (request : Lease)
    (namespaceName resourceId : Text) :
    (leaseIssue kv user request).2 (leaseResourceKey namespaceName resourceId) =
      kv.set request.resourceKey (leaseResourceValue request.leaseId request.fencingEpoch)
        (leaseResourceKey namespaceName resourceId) := by
  simp only [leaseIssue, Kv.set]
  by_cases hkey : leaseResourceKey namespaceName resourceId = request.resourceKey
  · rw [hkey, update_self]
    exact update_self ..
  · rw [update_of_ne hkey]
    refine (update_of_ne hkey ..).trans ?_
    exact update_of_ne (leaseResourceKey_ne_leaseKvKey _ _ _) ..

lemma leaseIssue_lease (kv : Kv) (user : UInt32) (request : Lease) {id : Uuid}
    (hid : id ≠ request.leaseId) :
    (leaseIssue kv user request).2 (leaseKvKey id) = kv (leaseKvKey id) := by
  have hkey : leaseKvKey id ≠ leaseKvKey request.leaseId := fun heq =>
    hid (uuidFormat_injective (append_cancel_left heq))
  simp only [leaseIssue, Kv.set]
  rw [update_of_ne (leaseKvKey_ne_leaseRequestKey _ _),
    update_of_ne (leaseResourceKey_ne_leaseKvKey _ _ _).symm, update_of_ne hkey]

namespace Leases

/-- A lease whose record is there was granted; the epochs of the leases of a resource go up, and the
record of the resource is that of the last one. -/
structure Fenced (s : Leases) : Prop where
  known : ∀ id, (s.kv (leaseKvKey id)).isSome → ∃ g ∈ s.grants, g.leaseId = id
  increasing : s.grants.Pairwise fun later earlier =>
    later.resourceKey = earlier.resourceKey → earlier.fencingEpoch < later.fencingEpoch
  marked : ∀ g ∈ s.grants, ∃ top ∈ s.grants, top.resourceKey = g.resourceKey ∧
    leaseMark s.kv g.resourceKey = some (uuidFormat top.leaseId, top.fencingEpoch.toNat) ∧
    (g = top ∨ g.fencingEpoch < top.fencingEpoch)

variable {s : Leases} {kv : Kv}

lemma Fenced.rewrite (h : s.Fenced) (hkeep : Rewrites s.kv kv) : Fenced ⟨kv, s.grants⟩ where
  known id hid := h.known id (hkeep.leases id hid)
  increasing := h.increasing
  marked g hg := by
    rw [hkeep.leaseMark_eq]
    exact h.marked g hg

lemma leaseMark_issue (kv : Kv) (user : UInt32) (request g : Lease) :
    leaseMark (leaseIssue kv user request).2 g.resourceKey =
      if g.resourceKey = request.resourceKey then
        some (uuidFormat request.leaseId, request.fencingEpoch.toNat)
      else leaseMark kv g.resourceKey := by
  have hmark : leaseMark (leaseIssue kv user request).2 g.resourceKey =
      leaseMark (kv.set request.resourceKey
        (leaseResourceValue request.leaseId request.fencingEpoch)) g.resourceKey := by
    rw [leaseMark, leaseMark, Lease.resourceKey, leaseIssue_resource]
  rw [hmark]
  split_ifs with hkey
  · rw [hkey]
    exact leaseMark_set kv _ _ _
  · rw [leaseMark, Kv.set, update_of_ne hkey]
    rfl

/-- A new lease has a greater epoch than all earlier ones of the resource. -/
lemma Fenced.issue (h : s.Fenced) (hkeep : Rewrites s.kv kv) (user : UInt32) (request : Lease)
    (hmark : ∀ g ∈ s.grants, request.resourceKey = g.resourceKey →
      g.fencingEpoch < request.fencingEpoch) :
    Fenced ⟨(leaseIssue kv user request).2, (leaseIssue kv user request).1 :: s.grants⟩ := by
  refine ⟨fun id hid => ?_, pairwise_cons.mpr ⟨hmark, h.increasing⟩, fun g hg => ?_⟩
  · by_cases hnew : id = request.leaseId
    · exact ⟨_, mem_cons_self, hnew.symm⟩
    · have hold := leaseIssue_lease kv user request hnew
      dsimp only at hid
      rw [hold] at hid
      obtain ⟨g, hg, hgid⟩ := h.known id (hkeep.leases id hid)
      exact ⟨g, mem_cons_of_mem _ hg, hgid⟩
  · simp only [leaseMark_issue]
    by_cases hkey : g.resourceKey = request.resourceKey
    · refine ⟨_, mem_cons_self, hkey.symm, if_pos hkey, ?_⟩
      exact (mem_cons.mp hg).imp_right fun hg => hmark g hg hkey.symm
    · have hg' : g ∈ s.grants := by
        refine (mem_cons.mp hg).resolve_left ?_
        rintro rfl
        exact hkey rfl
      obtain ⟨top, htop, htopKey, htopMark, hle⟩ := h.marked g hg'
      refine ⟨top, mem_cons_of_mem _ htop, htopKey, ?_, hle⟩
      rw [if_neg hkey, hkeep.leaseMark_eq, htopMark]

lemma Fenced.call (h : s.Fenced) (c : LeaseCall) : (s.call c).Fenced := by
  cases c with
  | renewChecked user id expectedGeneration nowMs newExpires =>
    exact h.rewrite (.renewInternal s.kv user id expectedGeneration nowMs newExpires)
  | renew user id nowMs newExpires =>
    exact h.rewrite (.renewInternal s.kv user id 0 nowMs newExpires)
  | release id => exact h.rewrite (.release s.kv id)
  | acquire user request nowMs =>
    rw [Leases.call, leaseAcquire]
    cases hprior : leasePrior s.kv request.requestId with
    | some prior => exact h.rewrite (.reap (isSome_of_leasePrior hprior) prior.2 nowMs)
    | none =>
      cases hmark : leaseMark s.kv (leaseResourceKey request.namespaceName request.resourceId) with
      | none =>
        -- a resource without a record has no grants
        refine h.issue (.refl s.kv) user request fun g hg hkey => ?_
        obtain ⟨top, -, -, hsome, -⟩ := h.marked g hg
        rw [← hkey, Lease.resourceKey, hmark] at hsome
        cases hsome
      | some mark =>
        by_cases hle : request.fencingEpoch.toNat ≤ mark.2
        · simp only [if_pos hle]
          exact h
        · simp only [if_neg hle]
          refine h.issue (.reapHolder s.kv mark.1 nowMs) user request fun g hg hkey => ?_
          obtain ⟨top, -, -, hsome, htop⟩ := h.marked g hg
          rw [← hkey, Lease.resourceKey, hmark, some_inj] at hsome
          rw [hsome, not_le] at hle
          have hlt : top.fencingEpoch < request.fencingEpoch := lt_iff_toNat_lt.mpr hle
          rcases htop with rfl | htop
          · exact hlt
          · exact UInt64.lt_trans htop hlt

lemma fenced_run (calls : List LeaseCall) : (run calls).Fenced := by
  refine List.foldlRecOn calls _ ⟨fun id hid => ?_, .nil, nofun⟩ fun s h c _ => h.call c
  cases hid

end Leases

/-- The names of a resource are joined by a colon and not escaped, so two resources may share one
record. `Alone` says that no lease of another resource has the record of this one. -/
def Lease.Alone (l : Lease) (grants : List Lease) : Prop :=
  ∀ g ∈ grants, g.resourceKey = l.resourceKey →
    g.namespaceName = l.namespaceName ∧ g.resourceId = l.resourceId

/-- A lease that reads was granted by an acquire. Of two leases of a resource the later one has the
greater fencing epoch, and the record of a resource that shares it with no other one has the lease
and the epoch of its last lease: every other lease of the resource is below it, however it reads. -/
theorem leases_fenced (calls : List LeaseCall) (nowMs : UInt64) :
    (∀ id l, leaseRead (run calls).kv id nowMs = some l →
        ∃ g ∈ (run calls).grants, g.leaseId = id) ∧
      ((run calls).grants.Pairwise fun later earlier =>
        later.namespaceName = earlier.namespaceName → later.resourceId = earlier.resourceId →
          earlier.fencingEpoch < later.fencingEpoch) ∧
      ∀ g ∈ (run calls).grants, g.Alone (run calls).grants →
        ∃ top ∈ (run calls).grants,
          top.namespaceName = g.namespaceName ∧ top.resourceId = g.resourceId ∧
          leaseMark (run calls).kv (leaseResourceKey g.namespaceName g.resourceId) =
            some (uuidFormat top.leaseId, top.fencingEpoch.toNat) ∧
          (g = top ∨ g.fencingEpoch < top.fencingEpoch) := by
  have h := fenced_run calls
  refine ⟨fun id l hread => h.known id ?_, h.increasing.imp ?_, fun g hg halone => ?_⟩
  · rw [leaseRead] at hread
    split at hread
    · cases hread
    · next hdecode => exact Rewrites.isSome_of_decode hdecode
  · intro later earlier hlt hnamespace hresource
    refine hlt ?_
    rw [Lease.resourceKey, hnamespace, hresource]
    rfl
  · obtain ⟨top, htop, hkey, hmark, hle⟩ := h.marked g hg
    obtain ⟨hnamespace, hresource⟩ := halone top htop hkey
    exact ⟨top, htop, hnamespace, hresource, hmark, hle⟩

namespace Sample

def uuidOf (n : UInt8) : Uuid := ⟨List.replicate 16 n, rfl⟩

/-- A request for a resource by node `n` at epoch `n`, without an end of time. -/
def requestOf (n : UInt8) : Lease where
  leaseId := uuidOf n
  ownerNode := uuidOf n
  namespaceName := ascii "ns"
  resourceId := ascii "vm"
  fencingEpoch := n.toUInt64
  generation := 0
  state := .free
  issuedHlcPhysical := 0
  expiresHlcPhysical := 0
  requestId := uuidOf n
  issuer := uuidOf n
  holder := none

def twoAcquires : List LeaseCall := [.acquire 1 (requestOf 1) 10, .acquire 2 (requestOf 2) 20]

/-- A lease with a greater epoch is granted beside one that is not over, and both read as granted.
-/
theorem two_leases_granted :
    (leaseRead (run twoAcquires).kv (uuidOf 1) 20).map Lease.state = some .granted ∧
      (leaseRead (run twoAcquires).kv (uuidOf 2) 20).map Lease.state = some .granted := by
  decide +kernel

end Sample

end Qihse.Federation
