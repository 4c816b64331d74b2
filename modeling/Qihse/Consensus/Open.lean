import Qihse.Consensus.Replay
import Qihse.Consensus.Trace.Rules

/-!
# Opening a node

What `qihse_consensus_open` leaves in memory and on disk, whatever happens to its writes.
-/

namespace Qihse.Consensus

open Crash Crash.Prog List Node Replay

/-- A node that was just opened from the replayed state `st`. -/
structure Booted (c : Config) (st : Replay) (n : Node) : Prop where
  cfg : n.cfg = c
  recQuarantined : n.recQuarantined = false
  role : n.role = .follower
  term : n.term = st.term
  epoch : n.epoch = st.epoch
  votedFor : n.votedFor = st.votedFor
  commit : n.commit = st.commit
  log : n.log = st.log
  snap : n.snap = st.snap
  folded : n.foldMembership none = some n.members
  selfIndex : n.selfIndex = n.memberIndex c.self

lemma Node.setMembership_members (n : Node) (ms : List Member) :
    (n.setMembership ms).members = ms := by
  unfold setMembership
  simp only
  split_ifs <;> rfl

lemma Node.setMembership_selfIndex (n : Node) (ms : List Member) :
    (n.setMembership ms).selfIndex = (n.setMembership ms).memberIndex n.cfg.self := by
  unfold setMembership
  simp only
  split_ifs <;> rfl

lemma booted_of_finishLoad {c : Config} {st : Replay} {n : Node}
    (h : finishLoad (.loaded c st) = some n) : Booted c st n := by
  unfold finishLoad at h
  cases hr : (loaded c st).recomputeMembership with
  | none => simp [hr] at h
  | some =>
    simp only [hr] at h
    split_ifs at h
    cases h
    unfold recomputeMembership at hr
    cases hms : (loaded c st).foldMembership none with
    | none => simp [hms] at hr
    | some ms =>
      simp only [hms] at hr
      split_ifs at hr with heq
      · cases hr
        exact ⟨rfl, rfl, rfl, rfl, rfl, rfl, rfl, rfl, rfl, by rw [hms, heq], rfl⟩
      · cases hr
        have hf := (loaded c st).refolded_setMembership ms
        have hrole : ((loaded c st).setMembership ms).role = .follower :=
          hf.role.elim (fun h => h.trans rfl) id
        refine { hf with
          role := hrole, log := hf.sameLog.log, snap := hf.sameLog.snap
          folded := ?_, selfIndex := setMembership_selfIndex _ _ }
        rw [foldMembership, hf.cfg, hf.sameLog.entries, ← foldMembership, hms,
          setMembership_members]

/-- The cursors play no part in `Booted`. -/
lemma Booted.cursors {c : Config} {st : Replay} {n : Node} (h : Booted c st n) (xs ys : List ℕ) :
    Booted c st { n with nextIndex := xs, matchIndex := ys } :=
  { h with }

/-- The state of a node that starts without a file. -/
def Replay.fresh (c : Config) : Replay := { start with epoch := c.writerEpochFloor }

/-- The first lines of a file. -/
def Config.identityLines (c : Config) : List Line :=
  [Line.record (.header 1 c.groupId), .record (.baseline (baselineDigest c.members))] ++
    if c.writerEpochFloor ≠ 0 then [.record (.history c.historyId c.writerEpochFloor)] else []

/-- A line that identifies the file: header, baseline or history, or a cut one. -/
def Line.isIdentity : Line → Bool
  | .record r => Replay.isIdentity r
  | .torn => true

lemma Config.identityLines_isIdentity (c : Config) : ∀ l ∈ c.identityLines, l.isIdentity := by
  intro l hl
  unfold identityLines at hl
  split_ifs at hl
  all_goals
    simp only [cons_append, nil_append, mem_cons, not_mem_nil, or_false] at hl
    rcases hl with rfl | rfl | rfl <;> rfl

/-- The slot of a node after an attempt to open it with configuration `cfg`. -/
inductive Opened (cfg : Config) : Option (List Line) → Slot → Prop
  | refused (disk : Option (List Line)) : Opened cfg disk ⟨none, disk⟩
  /-- The file may have lost an open snapshot transaction. -/
  | failed (d d' : List Line)
      (hd : d' = d ∨ ∃ c st p, cfg.prepare true = some c ∧ start.steps c 0 d = some st ∧
        st.pend = some p ∧ d' = d.take p.start) : Opened cfg (some d) ⟨none, some d'⟩
  | loaded (d d' : List Line) (c : Config) (st : Replay) (n : Node)
      (hc : cfg.prepare true = some c) (hst : start.steps c 0 d = some st)
      (hd : d' = match st.pend with | none => d | some p => d.take p.start)
      (hn : Booted c st n) : Opened cfg (some d) ⟨some n, some d'⟩
  | unborn (d' : List Line) (hc : cfg.prepare false ≠ none) (hd : ∀ l ∈ d', l.isIdentity)
      (hsize : fileSize d' ≤ fileSizeMax) : Opened cfg none ⟨none, some d'⟩
  | born (d' : List Line) (c : Config) (n : Node) (hc : cfg.prepare false = some c)
      (hd : d' = c.identityLines) (hsize : fileSize d' ≤ fileSizeMax)
      (hn : Booted c (.fresh c) n) : Opened cfg none ⟨some n, some d'⟩

/-- A property of files that a shorter file has as well and that holds of identity lines. -/
lemma Opened.rule {N : Node → Prop} {L : List Line → Prop} {cfg : Config} {s : Slot}
    {disk : Option (List Line)} (hs : Opened cfg disk s) (htake : ∀ {d} k, L d → L (d.take k))
    (hidentity : ∀ {d}, (∀ l ∈ d, l.isIdentity) → L d)
    (hload : ∀ {c d st n}, cfg.prepare true = some c → L d → start.steps c 0 d = some st →
      Booted c st n → N n)
    (hborn : ∀ {c n}, cfg.prepare false = some c → Booted c (.fresh c) n → N n)
    (hdisk : ∀ {d}, disk = some d → L d) :
    (∀ {n}, s.node = some n → N n) ∧ ∀ {d}, s.disk = some d → L d := by
  cases hs with
  | refused => exact ⟨nofun, hdisk⟩
  | failed d d' hd =>
    refine ⟨nofun, ?_⟩
    rintro x ⟨⟩
    rcases hd with rfl | ⟨c, st, pend, -, -, -, rfl⟩
    · exact hdisk rfl
    · exact htake _ (hdisk rfl)
  | loaded d d' c st n hc hst hd hn =>
    refine ⟨?_, ?_⟩ <;> rintro x ⟨⟩
    · exact hload hc (hdisk rfl) hst hn
    · subst hd
      split
      · exact hdisk rfl
      · exact htake _ (hdisk rfl)
  | unborn d' hc hd =>
    refine ⟨nofun, ?_⟩
    rintro x ⟨⟩
    exact hidentity hd
  | born d' c n hc hd hsize hn =>
    refine ⟨?_, ?_⟩ <;> rintro x ⟨⟩
    · exact hborn hc hn
    · exact hidentity (hd ▸ c.identityLines_isIdentity)

/-! ### The steps of an open -/

section

variable {c : Config} {p : Proc}

lemma sat_discardTail {k : ℕ} {Q : Bool → Proc → Prop} {C : Proc → Prop}
    (hok : ∀ p', p'.disk = p.disk.take k → Q true p')
    (hfail : ∀ p', (p'.disk = p.disk ∨ p'.disk = p.disk.take k) → Q false p')
    (hcrash : ∀ p', (p'.disk = p.disk ∨ p'.disk = p.disk.take k) → C p') :
    Sat (discardTail k) p Q C := by
  unfold Sat discardTail
  rcases p.io.headD .ok with _ | l | l
  · exact hok _ rfl
  · cases l
    · exact hfail _ (.inl rfl)
    · exact hfail _ (.inl rfl)
    · exact hfail _ (.inr rfl)
  · cases l
    · exact hcrash _ (.inl rfl)
    · exact hcrash _ (.inl rfl)
    · exact hcrash _ (.inr rfl)

/-- The slot that an operation of `qihse_consensus_open` leaves. -/
def slotAfter (r : Option Bool) (p : Proc) : Slot :=
  ⟨if r = some true then some p.node else none, some p.disk⟩

lemma opened_of_sat {cfg : Config} {disk : Option (List Line)} {m : M Bool}
    (h : Sat m p (fun b p' => Opened cfg disk (slotAfter (some b) p'))
      (fun p' => Opened cfg disk (slotAfter none p'))) :
    Opened cfg disk (slotAfter (m p).1 (m p).2) := by
  unfold Sat at h
  rcases hm : m p with ⟨_ | b, p'⟩ <;> rw [hm] at h <;> exact h

/-- The last part of an open from a file that became `d'`. -/
lemma opened_finishOpen {cfg : Config} {d d' : List Line} {st : Replay}
    (hc : cfg.prepare true = some c) (hst : start.steps c 0 d = some st) (hp : p.disk = d')
    (hd : d' = match st.pend with | none => d | some p => d.take p.start) :
    Sat (finishOpen c st) p (fun b p' => Opened cfg (some d) (slotAfter (some b) p'))
      (fun p' => Opened cfg (some d) (slotAfter none p')) := by
  subst hp
  have hfailed : Opened cfg (some d) ⟨none, some p.disk⟩ := by
    refine .failed d p.disk ?_
    cases hpend : st.pend with
    | none => exact .inl (by rw [hd, hpend])
    | some pend => exact .inr ⟨c, st, pend, hc, hst, hpend, by rw [hd, hpend]⟩
  unfold finishOpen
  rw [sat_ite]
  refine ⟨fun _ => hfailed, fun _ => ?_⟩
  cases hn : finishLoad (.loaded c st) with
  | none => exact hfailed
  | some =>
    exact .loaded d p.disk c st _ hc hst hd ((booted_of_finishLoad hn).cursors _ _)

lemma opened_openExisting {cfg : Config} (hc : cfg.prepare true = some c) :
    Sat (openExisting c) p (fun b p' => Opened cfg (some p.disk) (slotAfter (some b) p'))
      (fun p' => Opened cfg (some p.disk) (slotAfter none p')) := by
  unfold Sat openExisting
  cases hst : start.steps c 0 p.disk with
  | none => exact .failed _ _ (.inl rfl)
  | some st =>
    change Sat (openLoaded c st) p _ _
    unfold openLoaded
    cases hpend : st.pend with
    | none => exact opened_finishOpen hc hst rfl (by rw [hpend])
    | some pend =>
      have hcut {p' : Proc} (h : p'.disk = p.disk ∨ p'.disk = p.disk.take pend.start) :
          Opened cfg (some p.disk) ⟨none, some p'.disk⟩ :=
        .failed _ _ (h.imp_right fun h => ⟨c, st, pend, hc, hst, hpend, h⟩)
      simp only [sat_bind, sat_ite, sat_pure]
      refine sat_discardTail (fun p' hp' => on_true ?_)
        (fun p' hp' => on_false (hcut hp')) fun p' hp' => hcut hp'
      exact opened_finishOpen hc hst hp' (by rw [hpend])

/-- A file that holds identity lines only, within the largest offset. -/
structure IdentityFile (d : List Line) : Prop where
  lines : ∀ l ∈ d, l.isIdentity
  size : fileSize d ≤ fileSizeMax

lemma IdentityFile.landed {d : List Line} {r : Record} (h : IdentityFile d)
    (hr : (Line.record r).isIdentity) (l : Landing) : IdentityFile (Consensus.landed d r l) := by
  refine ⟨?_, fits_landed d r l h.size⟩
  cases l with
  | nothing => exact h.lines
  | torn => exact forall_mem_append.mpr ⟨h.lines, forall_mem_singleton.mpr rfl⟩
  | whole =>
    rw [Consensus.landed]
    split_ifs
    · exact forall_mem_append.mpr ⟨h.lines, forall_mem_singleton.mpr hr⟩
    · exact h.lines

/-- One identity line. -/
lemma sat_identityLine {Q : Bool → Proc → Prop} {C : Proc → Prop} {r : Record}
    (hr : (Line.record r).isIdentity) (hp : IdentityFile p.disk)
    (hok : ∀ p', p'.node = p.node → p'.disk = p.disk ++ [Line.record r] → IdentityFile p'.disk →
      Q true p')
    (hfail : ∀ p', IdentityFile p'.disk → Q false p') (hcrash : ∀ p', IdentityFile p'.disk → C p') :
    Sat (recordAppend r) p Q C := by
  refine sat_recordAppend (F := True) (fun _ _ => trivial) ?_ ?_ ?_
  · intro p' hn hd _ _ hs _
    refine hok p' hn hd ⟨?_, hs⟩
    rw [hd]
    exact forall_mem_append.mpr ⟨hp.lines, forall_mem_singleton.mpr hr⟩
  · exact fun p' l _ hd _ _ _ => hfail p' (hd ▸ hp.landed hr l)
  · exact fun p' l hd _ _ => hcrash p' (hd ▸ hp.landed hr l)

/-- The first lines of a file, while they are written. -/
lemma sat_writeIdentity {Q : Bool → Proc → Prop} {C : Proc → Prop} (hp : p.disk = [])
    (hok : ∀ p', p'.disk = c.identityLines → fileSize p'.disk ≤ fileSizeMax →
      p'.node = { p.node with epoch := if c.writerEpochFloor ≠ 0 then c.writerEpochFloor
        else p.node.epoch } → Q true p')
    (hfail : ∀ p', IdentityFile p'.disk → Q false p') (hcrash : ∀ p', IdentityFile p'.disk → C p') :
    Sat (writeIdentity c) p Q C := by
  have hstart : IdentityFile p.disk := ⟨by simp [hp], by simp [hp, fileSize]⟩
  simp only [writeIdentity, sat_bind, sat_ite, sat_pure, sat_modifyNode]
  refine sat_identityLine rfl hstart (fun p1 hn1 hd1 hi1 => on_true ?_)
    (fun p1 hi1 => on_false (hfail p1 hi1)) hcrash
  refine sat_identityLine rfl hi1 (fun p2 hn2 hd2 hi2 =>
    on_true ⟨fun hfloor => ?_, fun hfloor => ?_⟩) (fun p2 hi2 => on_false (hfail p2 hi2)) hcrash
  · refine sat_identityLine rfl hi2 (fun p3 hn3 hd3 hi3 => on_true ?_)
      (fun p3 hi3 => on_false (hfail p3 hi3)) hcrash
    refine hok _ ?_ hi3.size ?_
    · rw [hd3, hd2, hd1, hp]
      simp [Config.identityLines, hfloor]
    · rw [if_pos hfloor]
      simp [hn3, hn2, hn1]
  · refine hok _ ?_ hi2.size ?_
    · rw [hd2, hd1, hp]
      have h0 : c.writerEpochFloor = 0 := by simpa using hfloor
      simp [Config.identityLines, h0]
    · rw [if_neg hfloor, hn2, hn1]

lemma opened_openFresh {cfg : Config} (hc : cfg.prepare false = some c) (hp : p.disk = []) :
    Sat (openFresh c) p (fun b p' => Opened cfg none (slotAfter (some b) p'))
      (fun p' => Opened cfg none (slotAfter none p')) := by
  have hc' : cfg.prepare false ≠ none := by simp [hc]
  unfold openFresh
  cases hn : finishLoad (blank c) with
  | none => exact .unborn _ hc' (by simp [hp]) (by simp [hp, fileSize])
  | some cs =>
    simp only [sat_bind, sat_ite, sat_pure, sat_modifyNode]
    refine sat_writeIdentity (p := { p with node := cs }) hp ?_
      (fun p' hi => on_false (.unborn _ hc' hi.lines hi.size))
      fun p' hi => .unborn _ hc' hi.lines hi.size
    intro p' hd hs hn'
    refine on_true ?_
    have hn : finishLoad (.loaded c .start) = some cs := hn
    have hb : Booted c .start cs := booted_of_finishLoad hn
    refine .born _ c _ hc hd hs ?_
    rw [hn']
    refine { hb with epoch := ?_ }
    have he : cs.epoch = 0 := hb.epoch
    simp only [he]
    split_ifs with h0
    · rfl
    · exact (not_not.mp h0).symm

/-- `qihse_consensus_open`, whatever happens to its writes. -/
theorem opened_openSlot (cfg : Config) (disk : Option (List Line)) (io : List Io) :
    Opened cfg disk (openSlot cfg disk io).1 := by
  unfold openSlot
  cases disk with
  | none =>
    rw [Option.isSome_none]
    cases hc : cfg.prepare false with
    | none => exact .refused none
    | some => exact opened_of_sat (opened_openFresh hc rfl)
  | some d =>
    rw [Option.isSome_some]
    cases hc : cfg.prepare true with
    | none => exact .refused _
    | some c =>
      exact opened_of_sat (p := ⟨blank c, d, [], io, false⟩) (opened_openExisting hc)

end

end Qihse.Consensus
