import Qihse.Blob.Log
import Qihse.Crash.Program

/-!
# The blob store

The calls of `qihse_blob.c` that change the store, as programs over its directory in which every
step that touches the disk may fail or be the last one before a crash.
-/

open Bytes Crash Crash.Prog Function

namespace Qihse.Blob

/-! ### The directory -/

/-- What the authentication module answers about the user of a call. -/
structure User where
  active : Bool
  tenantId : UInt32
  operator : Bool
  canAccess : UInt16 → UInt16 → Bool

structure Disk where
  log : List UInt8
  objects : Hash → Option (List UInt8)

def Disk.append (d : Disk) (bs : List UInt8) : Disk := { d with log := d.log ++ bs }

@[simp]
lemma Disk.log_append (d : Disk) (bs : List UInt8) : (d.append bs).log = d.log ++ bs := rfl

/-- The fields of `qihse_blob_store` that the calls use. -/
structure Store where
  entries : Index
  poisoned : Bool

/-- What becomes of a step that touches the disk. -/
inductive Io
  | ok
  /-- It fails. An append is rolled back, or the rollback fails as well: then the first `n` bytes of
  the record may stay, and the store is poisoned. -/
  | fail (left : Option ℕ)
  /-- The machine stops. Of the record that is being appended the first `n` bytes stay. -/
  | crash (n : ℕ)

structure World where
  disk : Disk
  store : Store
  plan : List Io

def getStore : Prog World Store := fun w => (some w.store, w)

def setEntry (hash : Hash) (e : Option Entry) : Prog World Unit := fun w =>
  (some (), { w with store := { w.store with entries := update w.store.entries hash e } })

/-- A step whose effect on the disk is not looked at again. -/
def syscall : Prog World Bool := fun w =>
  match w.plan with
  | [] => (some true, w)
  | .ok :: plan => (some true, { w with plan := plan })
  | .fail _ :: plan => (some false, { w with plan := plan })
  | .crash _ :: plan => (none, { w with plan := plan })

def changeObject (hash : Hash) (content : Option (List UInt8)) : Prog World Unit := fun w =>
  (some (), { w with
    disk := { w.disk with objects := update w.disk.objects hash content } })

/-- The rename of a written file to the place of an object, or its removal. -/
def setObject (hash : Hash) (content : Option (List UInt8)) : Prog World Bool := do
  let ok ← syscall
  if ok then do
    changeObject hash content
    pure true
  else pure false

/-- `blob_log_append`. -/
def logAppend (r : LogRecord) : Prog World Bool := fun w =>
  if w.store.poisoned then (some false, w)
  else
    match w.plan with
    | [] => (some true, { w with disk := w.disk.append r.encode })
    | .ok :: plan => (some true, { w with disk := w.disk.append r.encode, plan := plan })
    | .fail left :: plan =>
      (some false, ⟨w.disk.append (r.encode.take (left.getD 0)),
        { w.store with poisoned := left.isSome }, plan⟩)
    | .crash n :: plan => (none, { w with disk := w.disk.append (r.encode.take n), plan := plan })

/-- Append a record and, if it is in the log, change the entry in memory. -/
def commit (r : LogRecord) (hash : Hash) (e : Option Entry) : Prog World Bool := do
  let logged ← logAppend r
  if logged then do
    setEntry hash e
    pure true
  else pure false

/-! ### Calls -/

/-- What a blob is bound to when it is written. -/
structure Binding where
  tenantId : UInt32
  tag : UInt16
  classification : UInt16
  sciCompartment : UInt16

/-- The chunks that the reading callback of a put returns, and whether they end or break off. -/
structure Source where
  chunks : List (List UInt8)
  eof : Bool

def chunkSize : ℕ := 256 * 1024

/-- The reading loop of `blob_put_internal`. -/
def readAll (limit : ℕ) (eof : Bool) : List (List UInt8) → List UInt8 → Option (List UInt8)
  | [], acc => if eof then some acc else none
  | c :: cs, acc =>
    if c = [] then some acc
    else if c.length > chunkSize || c.length > limit - acc.length then none
    else readAll limit eof cs (acc ++ c)

def Source.content (source : Source) (tag : UInt16) : Option (List UInt8) :=
  readAll (sizeLimit tag) source.eof source.chunks []

/-- The checks of `blob_put_internal` before it reads. -/
def User.mayPut (user : User) (b : Binding) : Bool :=
  user.active && b.tag ≠ 0 && b.tag ≤ tagDumpArtifact &&
  (b.tag ≠ tagReplTransaction ||
    (b.tenantId = tenantSystem && user.tenantId = tenantSystem && user.operator)) &&
  (user.tenantId = tenantSystem || (b.tenantId = user.tenantId && b.tag ≠ tagCommonsSnapshot)) &&
  user.canAccess b.classification b.sciCompartment

def Entry.boundTo (e : Entry) (b : Binding) : Bool :=
  e.info.tenantId = b.tenantId && e.info.tag = b.tag &&
    e.info.classification = b.classification && e.info.sciCompartment = b.sciCompartment

def Info.incRef (i : Info) : Info := { i with refcount := i.refcount + 1 }

def Info.decRef (i : Info) : Info := { i with refcount := i.refcount - 1 }

/-- The entry of content that was not stored before. -/
def newInfo (hash : Hash) (content : List UInt8) (b : Binding) : Info where
  hash := hash
  size := UInt64.ofNat content.length
  tenantId := b.tenantId
  tag := b.tag
  classification := b.classification
  sciCompartment := b.sciCompartment
  refcount := 1

/-- `blob_put_internal`. The temporary file is not modelled; the first step stands for writing it,
the second for making the directory of the object, the third for the rename and the last for making
that durable. -/
def putInternal (sha384 : List UInt8 → Hash) (user : User) (b : Binding) (source : Source)
    (expected : Option (Hash × ℕ)) : Prog World Bool :=
  if expected.any fun x => x.2 > sizeLimit b.tag then pure false
  else if !user.mayPut b then pure false
  else do
    let written ← syscall
    match source.content b.tag with
    | none => pure false
    | some content =>
      let hash := sha384 content
      if !written || expected.any fun x => content.length ≠ x.2 || hash ≠ x.1 then pure false
      else do
        let store ← getStore
        if store.poisoned then pure false
        else
          match store.entries hash with
          | some e =>
            if !e.boundTo b then pure false
            else if e.info.refcount = 0xffffffff then pure false
            else commit (.info .ref e.info.incRef) hash (some { e with info := e.info.incRef })
          | none => do
            let made ← syscall
            if made then do
              let renamed ← setObject hash (some content)
              if renamed then do
                let synced ← syscall
                if synced then
                  commit (.info .put (newInfo hash content b)) hash
                    (some ⟨newInfo hash content b, 0⟩)
                else pure false
              else pure false
            else pure false

/-- The user may change the entry. -/
def User.owns (user : User) (e : Entry) : Bool :=
  (user.tenantId = tenantSystem || e.info.tenantId = user.tenantId) &&
    user.canAccess e.info.classification e.info.sciCompartment

/-- The entry that a call is for, if the call goes on. -/
def openEntry (user : User) (hash : Hash) : Prog World (Option Entry) :=
  if !user.active then pure none
  else do
    let store ← getStore
    pure (if store.poisoned then none else (store.entries hash).filter user.owns)

/-- The deletion of the last reference: the object goes after its entry. -/
def removeEntry (hash : Hash) : Prog World Bool := do
  let logged ← commit (.del hash) hash none
  if logged then do
    let unlinked ← setObject hash none
    if unlinked then do
      let _ ← syscall
      pure true
    else pure true
  else pure false

/-- `blob_mutate_ref`. -/
def mutateRef (user : User) (hash : Hash) (up allowDelete : Bool) : Prog World Bool := do
  let found ← openEntry user hash
  match found with
  | none => pure false
  | some e =>
    if up then
      if e.info.refcount = 0xffffffff then pure false
      else commit (.info .ref e.info.incRef) hash (some { e with info := e.info.incRef })
    else if e.info.refcount > 1 then
      commit (.info .unref e.info.decRef) hash (some { e with info := e.info.decRef })
    else if !allowDelete || e.pinCount > 0 then pure false
    else removeEntry hash

/-- `qihse_blob_pin_user`. -/
def pinUser (user : User) (hash : Hash) : Prog World Bool := do
  let found ← openEntry user hash
  match found with
  | none => pure false
  | some e =>
    if e.pinCount = 0xffffffff then pure false
    else commit (.pin hash) hash (some { e with pinCount := e.pinCount + 1 })

/-- `qihse_blob_unpin_user`. -/
def unpinUser (user : User) (hash : Hash) : Prog World Bool := do
  let found ← openEntry user hash
  match found with
  | none => pure false
  | some e =>
    if e.pinCount = 0 then pure false
    else commit (.unpin hash) hash (some { e with pinCount := e.pinCount - 1 })

inductive Op
  | put (user : User) (b : Binding) (source : Source) (expected : Option (Hash × ℕ))
  | ref (user : User) (hash : Hash)
  | unref (user : User) (hash : Hash)
  | delete (user : User) (hash : Hash)
  | pin (user : User) (hash : Hash)
  | unpin (user : User) (hash : Hash)

def Op.prog (sha384 : List UInt8 → Hash) : Op → Prog World Bool
  | .put user b source expected => putInternal sha384 user b source expected
  | .ref user hash => mutateRef user hash true false
  | .unref user hash => mutateRef user hash false false
  | .delete user hash => mutateRef user hash false true
  | .pin user hash => pinUser user hash
  | .unpin user hash => unpinUser user hash

/-! ### Runs -/

/-- `qihse_blob_store_create`. -/
def create (d : Disk) : Option (Disk × Store) :=
  (logReplay d.log).map fun (entries, log) => ({ d with log := log }, ⟨entries, false⟩)

inductive Outcome
  | returned (ok : Bool)
  /-- It was cut by a crash, or it returned false and its record could not be rolled back. -/
  | unsettled

/-- The directory, the store while it is open, and the calls so far. -/
structure State where
  disk : Disk
  store : Option Store
  trace : List (Op × Outcome)

inductive Act
  /-- A call; if it is cut by a crash the store is created again. -/
  | call (op : Op) (plan : List Io)
  /-- A crash between two calls. -/
  | restart

namespace State

/-- The store on a fresh directory. -/
def init : State := ⟨⟨[], fun _ => none⟩, some ⟨.empty, false⟩, []⟩

/-- The store is created on what a crash left. -/
def reopened (d : Disk) (trace : List (Op × Outcome)) : State :=
  match create d with
  | some (d', store) => ⟨d', some store, trace⟩
  | none => ⟨d, none, trace⟩

def step (sha384 : List UInt8 → Hash) (s : State) : Act → State
  | .call op plan =>
    match s.store with
    | none => s
    | some store =>
      match op.prog sha384 ⟨s.disk, store, plan⟩ with
      | (some ok, w) => ⟨w.disk, some w.store, s.trace ++
          [(op, if w.store.poisoned && !store.poisoned then Outcome.unsettled else .returned ok)]⟩
      | (none, w) => reopened w.disk (s.trace ++ [(op, Outcome.unsettled)])
  | .restart => reopened s.disk s.trace

def run (sha384 : List UInt8 → Hash) (s : State) (acts : List Act) : State :=
  acts.foldl (step sha384) s

def entries (s : State) : Index := s.store.elim .empty Store.entries

end State

/-! ### What the calls are for -/

/-- What a call that is carried out does to the entries. -/
def effect (sha384 : List UInt8 → Hash) (idx : Index) : Op → Index
  | .put _ b source _ =>
    match source.content b.tag with
    | none => idx
    | some content =>
      update idx (sha384 content) (some
        ((idx (sha384 content)).elim ⟨newInfo (sha384 content) content b, 0⟩ fun e =>
          { e with info := e.info.incRef }))
  | .ref _ hash =>
    update idx hash ((idx hash).map fun e => { e with info := e.info.incRef })
  | .unref _ hash =>
    update idx hash ((idx hash).map fun e => { e with info := e.info.decRef })
  | .delete _ hash =>
    update idx hash ((idx hash).bind fun e =>
      if e.info.refcount > 1 then some { e with info := e.info.decRef }
      else if e.pinCount > 0 then some e
      else none)
  | .pin _ hash =>
    update idx hash ((idx hash).map fun e => { e with pinCount := e.pinCount + 1 })
  | .unpin _ hash =>
    update idx hash ((idx hash).map fun e => { e with pinCount := e.pinCount - 1 })

/-- The entries are those that result from the calls that returned true, with or without each call
that was cut by a crash or could not be rolled back. -/
inductive Explains (sha384 : List UInt8 → Hash) : List (Op × Outcome) → Index → Prop
  | nil : Explains sha384 [] .empty
  | done {tr idx} (op : Op) (h : Explains sha384 tr idx) :
    Explains sha384 (tr ++ [(op, Outcome.returned true)]) (effect sha384 idx op)
  | refused {tr idx} (op : Op) (h : Explains sha384 tr idx) :
    Explains sha384 (tr ++ [(op, Outcome.returned false)]) idx
  | lost {tr idx} (op : Op) (h : Explains sha384 tr idx) :
    Explains sha384 (tr ++ [(op, Outcome.unsettled)]) idx
  | kept {tr idx} (op : Op) (h : Explains sha384 tr idx) :
    Explains sha384 (tr ++ [(op, Outcome.unsettled)]) (effect sha384 idx op)

end Qihse.Blob
