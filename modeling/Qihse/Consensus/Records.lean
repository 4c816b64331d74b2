import Qihse.Consensus.Membership

/-!
# The record file

A record file is a list of lines. `Record` has one constructor for each kind of line that the
`qcs_persist_*` functions print, and a line that was cut short by a crash is `torn`. `Replay.step`
is the body of the loop of `qcs_load_records`, with the checks in the order of the source.

A file cannot grow past the largest `off_t`: an append that would do so fails.
-/

namespace Qihse.Consensus

/-- A line of the record file, without its checksum. -/
inductive Record
  | header (version : ℕ) (groupId : List Char)
  | baseline (digest : ℕ)
  | history (id : List UInt8) (epoch : ℕ)
  | vote (term : ℕ) (votedFor : Option Uuid) (epoch : ℕ)
  | entry (inSnapshot : Bool) (index term gen phys logical classif sci : ℕ) (payload : List UInt8)
  | config (add : Bool) (uid : Uuid) (index term gen : ℕ) (roleWeight : Option (MemberRole × ℕ))
  | joint (begins : Bool) (index term gen : ℕ)
  | snapshot (version2 : Bool) (last lastTerm epoch gen digest count : ℕ)
  | truncate (start : ℕ)
  | commit (index : ℕ)
deriving DecidableEq

inductive Line
  | record (r : Record)
  | torn
deriving DecidableEq

/-! ### The text of a record -/

def hexDigit (n : ℕ) : Char := "0123456789abcdef".toList.getD n '0'

/-- `qcs_hex_encode`. -/
def hexEncode (bs : List UInt8) : List Char :=
  bs.flatMap fun b => [hexDigit (b.toNat / 16), hexDigit (b.toNat % 16)]

/-- Sixteen hexadecimal digits, as `%016llx` prints them. -/
def hex16 (n : ℕ) : List Char := (List.range 16).map fun i => hexDigit (n >>> (4 * (15 - i)) % 16)

def dec (n : ℕ) : List Char := Nat.toDigits 10 n

def roleChar : MemberRole → Char
  | .voter => 'V'
  | .witness => 'W'
  | .learner => 'L'

/-- The fields of a record in the order the source prints them. -/
def Record.fields : Record → List (List Char)
  | .header version groupId => ["QHCNS".toList, dec version, groupId]
  | .baseline digest => [['B'], dec digest]
  | .history id epoch => [['H'], hexEncode id, dec epoch]
  | .vote term votedFor epoch =>
    [['V'], dec term, votedFor.elim ['-'] fun u => hexEncode u.bytes, dec epoch]
  | .entry inSnapshot index term gen phys logical classif sci payload =>
    [if inSnapshot then ['S', 'E'] else ['L'], dec index, dec term, dec gen, dec phys, dec logical,
      dec classif, dec sci, hexEncode payload]
  | .config add uid index term gen roleWeight =>
    [['L', 'C'], [if add then 'A' else 'R'], hexEncode uid.bytes, dec index, dec term, dec gen] ++
      roleWeight.elim [] fun rw => [[roleChar rw.1], dec rw.2]
  | .joint begins index term gen =>
    [['L', 'J'], [if begins then 'B' else 'E'], dec index, dec term, dec gen]
  | .snapshot version2 last lastTerm epoch gen digest count =>
    [if version2 then ['S', '2'] else ['S'], dec last, dec lastTerm, dec epoch, dec gen,
      hex16 digest, dec count]
  | .truncate start => [['T'], dec start]
  | .commit index => [['C'], dec index]

/-- The text that the checksum covers. -/
def Record.body (r : Record) : List Char := [' '].intercalate r.fields

/-- The length of the printed line: the body, a blank, sixteen digits and the newline. -/
def Record.lineLength (r : Record) : ℕ := r.body.length + 18

/-- The largest file offset. -/
def fileSizeMax : ℕ := 2 ^ 63 - 1

/-- A lower bound on the size of a file: its complete lines. -/
def fileSize (lines : List Line) : ℕ :=
  (lines.map fun | .record r => r.lineLength | .torn => 0).sum

/-! ### Encoding -/

/-- The `L` or `SE` line of an entry. -/
def Entry.dataRecord (inSnapshot : Bool) (e : Entry) : Record :=
  .entry inSnapshot e.index e.term e.journalGeneration e.hlc.physicalMs e.hlc.logical e.classif
    e.sci e.payload

/-- `qcs_persist_entry`: the record it prints, if it prints one. -/
def Entry.persistEntry (e : Entry) : Option Record :=
  if payloadMax < e.payload.length then none else some (e.dataRecord false)

/-- `qcs_persist_config_entry`. -/
def Entry.persistConfigEntry (e : Entry) : Option Record :=
  match e.type with
  | .configAdd =>
    if e.payload.length = 20 then
      some (.config true e.uuid e.index e.term e.journalGeneration (some e.roleWeight))
    else if e.payload.length = 16 then
      some (.config true e.uuid e.index e.term e.journalGeneration none)
    else none
  | .configRemove =>
    if e.payload.length = 16 then
      some (.config false e.uuid e.index e.term e.journalGeneration none)
    else none
  | _ => none

/-- `qcs_persist_joint_marker`. -/
def Entry.persistJointMarker (e : Entry) : Option Record :=
  match e.type with
  | .jointBegin =>
    if e.payload.length = 0 then some (.joint true e.index e.term e.journalGeneration) else none
  | .jointEnd =>
    if e.payload.length = 0 then some (.joint false e.index e.term e.journalGeneration) else none
  | _ => none

/-- The choice of writer by entry type that every append path makes. -/
def Entry.persistAny (e : Entry) : Option Record :=
  match e.type with
  | .data => e.persistEntry
  | .configAdd | .configRemove => e.persistConfigEntry
  | .jointBegin | .jointEnd => e.persistJointMarker

/-- `qcs_persist_snapshot_entry`. -/
def Entry.persistSnapshotEntry (e : Entry) : Option Record :=
  if e.type ≠ .data then e.persistConfigEntry
  else if payloadMax < e.payload.length then none
  else some (e.dataRecord true)

/-- `qcs_baseline_digest`. -/
def baselineDigest (members : List Member) : ℕ :=
  members.foldl (fun h m =>
      (m.id.bytes.map UInt8.toNat ++ [m.role.toByte, m.weight % 256, m.weight / 256]).foldl
        fnvByte h)
    (digestFoldU64 fnvOffset members.length)

/-- `qihse_consensus_history_identity_valid`. -/
def historyIdentityValid (groupId : List Char) (historyId : List UInt8) (writerEpoch : ℕ) : Bool :=
  writerEpoch ≠ 0 && 0 < groupId.length && groupId.length ≤ groupIdMax &&
    historyId.any (· != 0)

/-! ### Replay -/

/-- An open snapshot transaction; `start` counts the lines before its `S` line. -/
structure Pending where
  start : ℕ
  lastIndex : ℕ
  lastTerm : ℕ
  epoch : ℕ
  genHi : ℕ
  digest : ℕ
  count : ℕ
  entries : List Entry
  run : ℕ
  termPrev : ℕ
  genPrev : ℕ

/-- The local variables of `qcs_load_records` with the log and snapshot it rebuilds. -/
structure Replay where
  headerSeen : Bool
  baselineHave : Bool
  baselineChecked : Bool
  historyHave : Bool
  historyChecked : Bool
  term : ℕ
  epoch : ℕ
  votedFor : Option Uuid
  nextIndex : ℕ
  lastEntryTerm : ℕ
  lastGen : ℕ
  commit : ℕ
  log : List Entry
  snap : Snapshot
  pend : Option Pending

def Replay.start : Replay where
  headerSeen := false
  baselineHave := false
  baselineChecked := false
  historyHave := false
  historyChecked := false
  term := 0
  epoch := 0
  votedFor := none
  nextIndex := 1
  lastEntryTerm := 0
  lastGen := 0
  commit := 0
  log := []
  snap := .empty
  pend := none

namespace Replay

variable (st : Replay)

def absLastIndex : ℕ := st.snap.entries.length + st.log.length

/-- The append that `L`, `LC` and `LJ` lines make outside a snapshot transaction. -/
def push (e : Entry) : Option Replay :=
  if e.index ≠ st.nextIndex then none
  else if st.term < e.term then none
  else if e.term < st.lastEntryTerm then none
  else if 1 ≤ st.absLastIndex ∧ e.journalGeneration ≤ st.lastGen then none
  else some { st with
    log := st.log ++ [e]
    nextIndex := st.nextIndex + 1
    lastEntryTerm := e.term
    lastGen := e.journalGeneration }

/-- The append that `SE`, `LC` and `LJ` lines make inside a snapshot transaction. -/
def pendPush (p : Pending) (e : Entry) : Option Replay :=
  if p.count ≤ p.entries.length then none
  else if e.index ≠ p.entries.length + 1 then none
  else if st.term < e.term then none
  else if e.term < p.termPrev then none
  else if 0 < p.entries.length ∧ e.journalGeneration ≤ p.genPrev then none
  else if e.index < st.nextIndex ∧
      !(logEntryAt st.snap.entries st.log e.index).elim false (·.identical e) then none
  else some { st with
    pend := some { p with
      entries := p.entries ++ [e]
      run := e.digest p.run
      termPrev := e.term
      genPrev := e.journalGeneration } }

/-- An `LC` or `LJ` line, in or out of a snapshot transaction. -/
def pushAny (e : Entry) : Option Replay :=
  match st.pend with
  | some p => st.pendPush p e
  | none => st.push e

/-- The bookkeeping of term and generation after the log was cut. -/
def settleTail : Replay :=
  match st.log.getLast? with
  | some e => { st with lastEntryTerm := e.term, lastGen := e.journalGeneration }
  | none => { st with
      lastEntryTerm := st.snap.lastIncludedTerm
      lastGen := st.snap.journalGeneration }

/-- A `T` line that closes a snapshot transaction. -/
def swapIn (p : Pending) (start : ℕ) : Option Replay :=
  if start ≠ p.lastIndex + 1 then none
  else if p.entries.length ≠ p.count then none
  else if p.run ≠ p.digest then none
  else if p.termPrev ≠ p.lastTerm then none
  else if p.genPrev ≠ p.genHi then none
  else
    let keep := st.absLastIndex - p.lastIndex
    some { settleTail { st with
        log := st.log.drop (st.log.length - keep)
        snap := ⟨p.entries, p.lastIndex, p.lastTerm, p.epoch, p.genHi, p.digest⟩
        pend := none
        nextIndex := max st.nextIndex (p.lastIndex + 1) } with
      commit := max st.commit p.lastIndex }

/-- A `T` line outside a snapshot transaction. -/
def cut (start : ℕ) : Option Replay :=
  if start < 1 ∨ st.nextIndex < start then none
  else if start ≤ st.snap.entries.length then none
  else if start < st.nextIndex then
    some (settleTail { st with
      log := st.log.take (start - 1 - st.snap.entries.length)
      nextIndex := start })
  else some st

/-- The data entry of an `L` or `SE` line, when its fields are in range. -/
def dataEntry (index term gen phys logical classif sci : ℕ) (payload : List UInt8) :
    Option Entry :=
  if u64Max / 2 < phys ∨ 0xFFFFFFFF < logical ∨ 0xFFFF < classif ∨ 0xFFFF < sci then none
  else if payload.length = 0 ∨ payloadMax < payload.length then none
  else some ⟨index, term, gen, ⟨phys, logical⟩, classif, sci, .data, payload⟩

/-- The entry of an `LC` line. -/
def configEntry (add : Bool) (uid : Uuid) (index term gen : ℕ)
    (roleWeight : Option (MemberRole × ℕ)) : Option Entry :=
  let type : EntryType := if add then .configAdd else .configRemove
  if uid.isNil then none
  else match roleWeight with
    | none => some ⟨index, term, gen, ⟨0, 0⟩, 0, 0, type, uid.bytes⟩
    | some (role, w) =>
      if !add ∨ w = 0 ∨ maxWeight < w then none
      else some ⟨index, term, gen, ⟨0, 0⟩, 0, 0, type,
        uid.bytes ++ [UInt8.ofNat role.toByte, UInt8.ofNat (w % 256), UInt8.ofNat (w / 256), 0]⟩

/-- The records that follow the header, baseline and history lines. -/
def stepBody (line : ℕ) : Record → Option Replay
  | .vote term votedFor epoch =>
    if st.pend.isSome then none
    else if term < st.term then none
    else if epoch < term then none
    else if epoch < st.epoch then none
    else some { st with term := term, epoch := epoch, votedFor := votedFor }
  | .entry false index term gen phys logical classif sci payload =>
    if st.pend.isSome then none
    else (dataEntry index term gen phys logical classif sci payload).bind st.push
  | .entry true index term gen phys logical classif sci payload =>
    match st.pend with
    | none => none
    | some p => (dataEntry index term gen phys logical classif sci payload).bind (st.pendPush p)
  | .config add uid index term gen roleWeight =>
    (configEntry add uid index term gen roleWeight).bind st.pushAny
  | .joint begins index term gen =>
    st.pushAny ⟨index, term, gen, ⟨0, 0⟩, 0, 0, if begins then .jointBegin else .jointEnd, []⟩
  | .snapshot version2 last lastTerm epoch gen digest count =>
    if st.pend.isSome then none
    else if last < 1 ∨ count ≠ last then none
    else if (if version2 then snapshotStreamMaxEntries else snapshotMaxEntries) < count then none
    else if lastTerm < 1 ∨ st.term < lastTerm then none
    else if epoch < lastTerm ∨ st.epoch < epoch then none
    else if last ≤ st.snap.entries.length then none
    else if gen < 1 then none
    else some { st with
      pend := some ⟨line, last, lastTerm, epoch, gen, digest, count, [], fnvOffset, 0, 0⟩ }
  | .truncate start =>
    match st.pend with
    | some p => st.swapIn p start
    | none => st.cut start
  | .commit index =>
    if st.pend.isSome then none
    else if index < st.commit then none
    else if st.nextIndex - 1 < index then none
    else some { st with commit := index }
  | _ => none

/-- The first record after the identity lines ends the search for them. -/
def checked : Replay := { st with baselineChecked := true, historyChecked := true }

/-- One complete line of the file. -/
def step (cfg : Config) (line : ℕ) : Record → Option Replay
  | .header version groupId =>
    if st.headerSeen ∨ version ≠ 1 ∨ groupId ≠ cfg.groupId then none
    else some { st with headerSeen := true }
  | .baseline digest =>
    if !st.headerSeen ∨ st.baselineHave ∨ st.baselineChecked ∨ st.pend.isSome then none
    else if digest ≠ baselineDigest cfg.members then none
    else some { st with baselineHave := true }
  | .history id epoch =>
    if !st.headerSeen then none
    else if st.historyHave ∨ st.historyChecked ∨ st.pend.isSome ∨
        !historyIdentityValid cfg.groupId cfg.historyId cfg.writerEpochFloor then none
    else if epoch ≠ cfg.writerEpochFloor ∨ id ≠ cfg.historyId then none
    else some { st with baselineChecked := true, epoch := epoch, historyHave := true }
  | r =>
    if !st.headerSeen then none
    else if cfg.writerEpochFloor ≠ 0 ∧ !st.historyHave then none
    else st.checked.stepBody line r

/-- The loop over the lines of the file, the first of which has number `line`. A cut last line is
forgiven only inside a snapshot transaction. -/
def steps (cfg : Config) : Replay → ℕ → List Line → Option Replay
  | st, _, [] => if st.headerSeen then some st else none
  | st, line, .record r :: ls => (st.step cfg line r).bind fun st' => steps cfg st' (line + 1) ls
  | st, _, [.torn] => if st.pend.isSome then some st else none
  | _, _, .torn :: _ :: _ => none

end Replay

end Qihse.Consensus
