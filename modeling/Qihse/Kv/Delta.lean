import Qihse.Kv.Data

/-!
# Change streams

The incremental export of `qihse_kv_store.c`. A page is collected from records that come in any
order; where a limit is reached, the record with the largest sequence gives way. `Collector.NoGap`
is what the resume point of a page promises, and `Collector.keepsOrder` is the condition on one
record under which it is kept.
-/

namespace Qihse.Kv

/-- `qihse_kv_delta_record_t`; the value of a tombstone is `NULL`. -/
structure DeltaRecord where
  key : Key
  value : Option Value
  changeSeq : ℕ
  classification : UInt16
  sciCompartment : UInt16
  expireTimeMs : ℕ
deriving DecidableEq

namespace DeltaRecord

def tombstone (r : DeltaRecord) : Bool := r.value.isNone

/-- The bytes that a record counts for. -/
def cost (r : DeltaRecord) : ℕ := r.key.length + (r.value.elim 0 List.length) + 160

/-- The order of `delta_record_cmp`: by sequence, then by key. -/
def before (a b : DeltaRecord) : Bool :=
  decide (a.changeSeq < b.changeSeq) ||
    (decide (a.changeSeq = b.changeSeq) && decide (a.key < b.key))

/-- The order of a page. -/
def NotAfter (a b : DeltaRecord) : Prop := b.before a = false

instance : DecidableRel NotAfter := fun a b => inferInstanceAs (Decidable (b.before a = false))

end DeltaRecord

def Entry.delta (e : Entry) : DeltaRecord where
  key := e.key
  value := if e.payload.tombstone then none else some e.payload.value
  changeSeq := e.payload.changeSeq
  classification := e.payload.classification
  sciCompartment := e.payload.sciCompartment
  expireTimeMs := e.payload.expireTimeMs

/-- The checks of `delta_trie_cb` and `delta_sst_cb` before a record is collected. -/
def Entry.wanted (access : Access) (glob : Key → Bool) (since now : ℕ) (e : Entry) : Bool :=
  !(decide (e.payload.changeSeq ≤ since) || decide (e.payload.changeSeq = 0)) &&
    access e.payload.classification e.payload.sciCompartment && glob e.key &&
    !(!e.payload.tombstone && e.payload.expired now)

/-! ### Collecting a page -/

/-- The limits of a page; `maxRecords` zero is no limit at all. -/
structure Limits where
  maxRecords : ℕ
  maxBytes : ℕ

/-- The part of `delta_collect_ctx_t` that changes. -/
structure Collector where
  recs : List DeltaRecord
  bytes : ℕ
  resume : ℕ
  truncated : Bool

namespace Collector

def init (since : ℕ) : Collector := ⟨[], 0, since, false⟩

/-- The search for the largest record, which keeps the first of equal ones. -/
def largest (recs : List DeltaRecord) : Option DeltaRecord :=
  recs.foldl (fun l r =>
    match l with
    | none => some r
    | some q => if q.before r then some r else l) none

/-- The test that a record of that cost does not fit. -/
def full (lim : Limits) (c : Collector) (cost : ℕ) : Bool :=
  decide (lim.maxRecords ≤ c.recs.length) || decide (lim.maxBytes < c.bytes + cost)

/-- Evict one record. Its place in the array is taken by the last one; the array is sorted in the
end, so the list only loses the record. -/
def evict (c : Collector) (l : DeltaRecord) : Collector :=
  { c with recs := c.recs.erase l, bytes := c.bytes - l.cost, truncated := true }

/-- The eviction loop, with the number of records as its bound. -/
def makeRoom (lim : Limits) (cost : ℕ) : ℕ → Collector → Collector
  | 0, c => c
  | n + 1, c =>
    match largest c.recs with
    | none => c
    | some l => if c.full lim cost then makeRoom lim cost n (c.evict l) else c

def add (c : Collector) (r : DeltaRecord) : Collector :=
  { c with recs := c.recs ++ [r], bytes := c.bytes + r.cost }

/-- `delta_collect_push`; `none` is the failure of the export. -/
def push (lim : Limits) (c : Collector) (r : DeltaRecord) : Option Collector :=
  if lim.maxRecords = 0 then
    some { c.add r with resume := max c.resume r.changeSeq }
  else if lim.maxBytes < r.cost then none
  else
    let beforeLargest := match largest c.recs with
      | none => true
      | some l => r.before l
    if c.full lim r.cost && !beforeLargest then some { c with truncated := true }
    else some ((makeRoom lim r.cost c.recs.length c).add r)

def pushAll (lim : Limits) (c : Collector) : List DeltaRecord → Option Collector
  | [] => some c
  | r :: rs => (c.push lim r).bind fun c' => c'.pushAll lim rs

end Collector

/-- What an export returns. -/
structure Page where
  records : List DeltaRecord
  resume : ℕ
  complete : Bool

/-- The end of `kv_export_incremental_common`. -/
def Collector.page (lim : Limits) (c : Collector) : Page :=
  let records := c.recs.insertionSort DeltaRecord.NotAfter
  { records := records
    resume := if lim.maxRecords ≠ 0 then (records.getLast?).elim c.resume DeltaRecord.changeSeq
      else c.resume
    complete := !c.truncated }

/-- `kv_export_incremental_common` over the records of a store in the order of its walk. -/
def exportIncremental (lim : Limits) (access : Access) (glob : Key → Bool) (since now : ℕ)
    (entries : List Entry) : Option Page :=
  ((Collector.init since).pushAll lim
    ((entries.filter (Entry.wanted access glob since now)).map Entry.delta)).map
      (Collector.page lim)

/-- `qihse_kv_export_incremental_user_bounded_complete`. -/
def exportIncrementalBoundedComplete (lim : Limits) (access : Access) (glob : Key → Bool)
    (since now : ℕ) (entries : List Entry) : Option Page :=
  if lim.maxRecords = 0 ∨ lim.maxBytes = 0 then none
  else exportIncremental lim access glob since now entries

end Qihse.Kv
