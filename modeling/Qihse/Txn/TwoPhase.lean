import Qihse.Txn.Step

/-!
# Two-phase commit

What the participants of a prepared transaction are told. A participant that has prepared waits for
the verdict, so it has to receive exactly one, and all of them the same.

`qihse_txn_prepare` breaks this when a participant refuses: the transaction is aborted, but those
that were asked before the refusal and have prepared are not told.
-/

namespace Qihse.Txn

open List Manager Participant

/-- The participants that are asked before the first refusal and prepare. -/
def accepted : List (Participant × ℕ) → List Bool → List ℕ
  | [], _ => []
  | (p, i) :: ps, votes =>
    if !p.prepare then accepted ps votes.tail
    else if votes.headD true then i :: accepted ps votes.tail
    else []

/-- No participant refuses. -/
def unanimous : List (Participant × ℕ) → List Bool → Bool
  | [], _ => true
  | (p, _) :: ps, votes => (!p.prepare || votes.headD true) && unanimous ps votes.tail

/-- The calls outside two-phase commit. -/
def Op.isPlain : Op → Bool
  | .registerParticipant _ | .prepare _ _ _ | .commitPrepared _ _ | .abortPrepared _ _ => false
  | _ => true

/-- What a participant has to be told about a transaction in this state. -/
def TxnState.verdict : TxnState → Option CallKind
  | .committed => some .commit
  | .aborted => some .abort
  | _ => none

namespace Manager

def stateOf (m : Manager) (t : ℕ) : Option TxnState := (m.txns t).map Handle.state

/-- What participant `i` has been told about transaction `t`. -/
def verdicts (m : Manager) (i t : ℕ) : List CallKind :=
  (m.calls.filter fun c => c.participant = i && c.txnId = t && c.kind ≠ .prepare).map Call.kind

/-- The participants that a call makes prepare, each with the transaction. -/
def yesVotes (m : Manager) : Op → List (ℕ × ℕ)
  | .prepare t votes _ =>
    match m.txns t with
    | none => []
    | some txn =>
      if txn.state ≠ .active ∨ txn.resource then []
      else (accepted m.participants.zipIdx votes).map fun i => (i, t)
  | _ => []

/-- The transaction that a call ends: a prepare that fails, or a verdict. -/
def concludes (m : Manager) : Op → Option ℕ
  | .prepare t votes alloc => if (m.prepare t votes alloc).1 then none else some t
  | .commitPrepared t _ | .abortPrepared t _ => some t
  | _ => none

end Manager

/-- A manager with the participants that have prepared, each with its transaction. -/
structure Ledger where
  manager : Manager
  prepared : List (ℕ × ℕ)

namespace Ledger

def start : Ledger := ⟨Manager.create, []⟩

def step (l : Ledger) (op : Op) : Ledger :=
  ⟨(l.manager.exec op).2, l.prepared ++ l.manager.yesVotes op⟩

def run (l : Ledger) (ops : List Op) : Ledger := ops.foldl step l

/-- Nobody has prepared when a participant refuses, those that prepare can be told both verdicts,
and nobody waits for the verdict when a transaction is prepared again. -/
def twoPhaseOk (l : Ledger) : Op → Bool
  | .prepare t votes _ => (l.manager.txns t).all fun txn =>
    match txn.state with
    | .active => txn.resource ||
      if unanimous l.manager.participants.zipIdx votes then
        l.manager.participants.all fun p => !p.prepare || p.commit && p.abort
      else (accepted l.manager.participants.zipIdx votes).isEmpty
    | .prepared => l.prepared.all fun vote => vote.2 ≠ t
    | _ => true
  | _ => true

def meets : Ledger → List Op → Bool
  | _, [] => true
  | l, op :: ops => l.twoPhaseOk op && meets (l.step op) ops

/-- Every participant that prepared `t` was told one verdict, that of the recorded state. -/
def Agreed (l : Ledger) (t : ℕ) : Prop :=
  ∀ h, l.manager.txns t = some h → ∀ i, (i, t) ∈ l.prepared →
    ∃ k, h.state.verdict = some k ∧ l.manager.verdicts i t = [k]

/-! ### The state of one transaction -/

/-- What holds of a transaction in a given state, or of one that has not begun. -/
def Status (l : Ledger) (t : ℕ) : Option TxnState → Prop
  | some .prepared =>
    (∀ i, (i, t) ∈ l.prepared →
      ∃ p, l.manager.participants[i]? = some p ∧ p.commit = true ∧ p.abort = true) ∧
      ∀ i, l.manager.verdicts i t = []
  | some .committed => ∀ i, (i, t) ∈ l.prepared → l.manager.verdicts i t = [.commit]
  | some .aborted => ∀ i, (i, t) ∈ l.prepared → l.manager.verdicts i t = [.abort]
  | none | some .active => (∀ i, (i, t) ∉ l.prepared) ∧ ∀ i, l.manager.verdicts i t = []

variable {l l' : Ledger} {t : ℕ}

/-- A transaction that nobody has prepared may go to any state. -/
lemma Status.any (h : l.Status t (some .active)) (s : Option TxnState) : l.Status t s := by
  obtain ⟨hnone, hverdicts⟩ := h
  rcases s with _ | s
  · exact ⟨hnone, hverdicts⟩
  · cases s with
    | active => exact ⟨hnone, hverdicts⟩
    | prepared => exact ⟨fun i hi => absurd hi (hnone i), hverdicts⟩
    | committed | aborted => exact fun i hi => absurd hi (hnone i)

/-- A change that concerns neither the votes on `t` nor what was told about it. -/
lemma Status.frame {s : Option TxnState} (h : l.Status t s)
    (hprepared : ∀ i, (i, t) ∈ l'.prepared ↔ (i, t) ∈ l.prepared)
    (hverdicts : ∀ i, l'.manager.verdicts i t = l.manager.verdicts i t)
    (hps : l.manager.participants <+: l'.manager.participants) : l'.Status t s := by
  have hsome : ∀ {i : ℕ} {p}, l.manager.participants[i]? = some p →
      l'.manager.participants[i]? = some p := by
    intro i p hp
    obtain ⟨more, hmore⟩ := hps
    have hlt := (List.getElem?_eq_some_iff.mp hp).1
    rw [← hmore, getElem?_append_left hlt, hp]
  match s, h with
  | none, h | some .active, h =>
    exact ⟨fun i hi => h.1 i ((hprepared i).mp hi), fun i => (hverdicts i).trans (h.2 i)⟩
  | some .prepared, h =>
    refine ⟨fun i hi => ?_, fun i => (hverdicts i).trans (h.2 i)⟩
    obtain ⟨p, hp, hboth⟩ := h.1 i ((hprepared i).mp hi)
    exact ⟨p, hsome hp, hboth⟩
  | some .committed, h | some .aborted, h =>
    exact fun i hi => (hverdicts i).trans (h i ((hprepared i).mp hi))

/-- Every transaction is in order. -/
structure Sound (l : Ledger) : Prop where
  wf : l.manager.Wf
  status : ∀ t, l.Status t (l.manager.stateOf t)

lemma sound_start : start.Sound where
  wf := wf_create
  status _ := ⟨by simp [start], fun _ => rfl⟩

end Ledger

open Ledger

/-! ### What the calls tell the participants -/

namespace Manager

variable {m : Manager} {t u i : ℕ} {txn : Handle}

lemma verdicts_append (m : Manager) (cs : List Call) (i t : ℕ) :
    ({ m with calls := m.calls ++ cs } : Manager).verdicts i t =
      m.verdicts i t ++ ({ m with calls := cs } : Manager).verdicts i t := by
  simp [verdicts]

lemma verdicts_of_calls {m' : Manager} (h : m'.calls = m.calls) (i t : ℕ) :
    m'.verdicts i t = m.verdicts i t := by
  rw [verdicts, h, verdicts]

/-- Asking for votes tells nothing. -/
lemma verdicts_prepareVotes (m : Manager) (ps : List (Participant × ℕ)) (votes : List Bool) :
    ({ m with calls := (prepareVotes u ps votes).1 } : Manager).verdicts i t = [] := by
  induction ps generalizing votes with
  | nil => rfl
  | cons p ps ih =>
    obtain ⟨p, j⟩ := p
    unfold prepareVotes
    split_ifs
    · exact ih votes.tail
    · have htail := ih votes.tail
      unfold verdicts at htail ⊢
      simpa using htail
    · simp [verdicts]

lemma prepareVotes_snd (t : ℕ) (ps : List (Participant × ℕ)) (votes : List Bool) :
    (prepareVotes t ps votes).2 = unanimous ps votes := by
  induction ps generalizing votes with
  | nil => rfl
  | cons p =>
    obtain ⟨p, j⟩ := p
    unfold prepareVotes unanimous
    split_ifs with hasked hyes
    · simp_all
    · simp_all
    · simp_all

lemma mem_accepted {ps : List (Participant × ℕ)} {votes : List Bool} (h : i ∈ accepted ps votes) :
    ∃ p, (p, i) ∈ ps ∧ p.prepare = true := by
  induction ps generalizing votes with
  | nil => simp [accepted] at h
  | cons p ps ih =>
    obtain ⟨p, j⟩ := p
    unfold accepted at h
    split_ifs at h with hasked hyes
    · obtain ⟨q, hq, hprep⟩ := ih h
      exact ⟨q, mem_cons_of_mem _ hq, hprep⟩
    · rcases mem_cons.mp h with rfl | h
      · exact ⟨p, mem_cons_self, by simpa using hasked⟩
      · obtain ⟨q, hq, hprep⟩ := ih h
        exact ⟨q, mem_cons_of_mem _ hq, hprep⟩
    · simp at h

lemma filter_zipIdx {α : Type} (f : α → Bool) (xs : List α) (k j : ℕ) :
    (xs.zipIdx k).filter (fun q => f q.1 && decide (q.2 = k + j)) =
      ((xs[j]?.filter f).map fun x => (x, k + j)).toList := by
  induction xs generalizing k j with
  | nil => rfl
  | cons x xs ih =>
    rw [zipIdx_cons, filter_cons]
    cases j with
    | zero =>
      have hrest : (xs.zipIdx (k + 1)).filter (fun q => f q.1 && decide (q.2 = k + 0)) = [] := by
        refine filter_eq_nil_iff.mpr fun q hq => ?_
        have hle := le_snd_of_mem_zipIdx hq
        simp only [Bool.and_eq_true, decide_eq_true_eq]
        omega
      rw [hrest]
      cases hf : f x <;> simp [Option.filter, hf]
    | succ j =>
      have hskip : (f x && decide (k = k + (j + 1))) = false := by simp
      have hshift : k + (j + 1) = k + 1 + j := by omega
      rw [hskip, getElem?_cons_succ, hshift, ← ih (k + 1) j]
      rfl

/-- A verdict reaches every participant that takes it, once. -/
lemma verdicts_callAll {kind : CallKind} {provides : Participant → Bool} (hkind : kind ≠ .prepare) :
    (m.callAll kind provides u).verdicts i t = m.verdicts i t ++
      if u = t then ((m.participants[i]?.filter provides).map fun _ => kind).toList else [] := by
  rw [callAll, verdicts_append]
  congr 1
  unfold verdicts
  rw [filter_map, filter_filter, map_map]
  split_ifs with hu
  · have hone := filter_zipIdx provides m.participants 0 i
    simp only [zero_add] at hone
    have hsame : (fun q : Participant × ℕ => provides q.1 && decide (q.2 = i)) =
        fun q => ((fun c : Call => decide (c.participant = i) && decide (c.txnId = t) &&
          decide (c.kind ≠ .prepare)) ∘ fun p : Participant × ℕ => ⟨p.2, kind, u⟩) q &&
            provides q.1 := by
      funext q
      simp [hu, hkind, Bool.and_comm]
    rw [← hsame, hone]
    cases m.participants[i]?.filter provides <;> rfl
  · rw [map_eq_nil_iff, filter_eq_nil_iff]
    intro q _
    simp [hu]

/-! ### What the calls do to the states -/

lemma stateOf_setTxn (m : Manager) (txn : Handle) (u : ℕ) :
    (m.setTxn txn).stateOf u = if u = txn.id then some txn.state else m.stateOf u := by
  unfold stateOf setTxn
  by_cases hu : u = txn.id <;> simp [hu]

lemma stateOf_discard (m : Manager) (txn : Handle) (alloc : Bool) (u : ℕ) :
    (m.discard txn alloc).stateOf u = if u = txn.id then some .aborted else m.stateOf u := by
  have hset := stateOf_setTxn m { txn with state := .aborted, resource := false } u
  cases alloc <;> exact hset

lemma stateOf_settle (m : Manager) (txn : Handle) (summary : Option Summary) (u : ℕ) :
    (m.settle txn summary).stateOf u = if u = txn.id then some .committed else m.stateOf u :=
  stateOf_setTxn m { txn with state := .committed, resource := false } u

lemma calls_discard (m : Manager) (txn : Handle) (alloc : Bool) :
    (m.discard txn alloc).calls = m.calls ∧
      (m.discard txn alloc).participants = m.participants := by
  cases alloc <;> exact ⟨rfl, rfl⟩

/-- Nothing is told, and only transactions that nobody has prepared change their state. -/
structure Calm (m m' : Manager) : Prop where
  calls : m'.calls = m.calls
  participants : m'.participants = m.participants
  state : ∀ u, m'.stateOf u = m.stateOf u ∨ m.stateOf u = none ∨ m.stateOf u = some .active

lemma Calm.refl (m : Manager) : Calm m m := ⟨rfl, rfl, fun _ => .inl rfl⟩

lemma Calm.of_update {m' : Manager} {s : TxnState} (hcalls : m'.calls = m.calls)
    (hps : m'.participants = m.participants)
    (hstate : ∀ u, m'.stateOf u = if u = t then some s else m.stateOf u)
    (ht : m.stateOf t = some s ∨ m.stateOf t = none ∨ m.stateOf t = some .active) : Calm m m' := by
  refine ⟨hcalls, hps, fun u => ?_⟩
  rw [hstate]
  split_ifs with hu
  · subst hu
    exact ht.imp_left Eq.symm
  · exact .inl rfl

lemma calm_setTxn {txn' : Handle} (hm : m.txns t = some txn) (hid : txn'.id = t)
    (hs : txn'.state = txn.state) : Calm m (m.setTxn txn') := by
  refine .of_update rfl rfl (fun u => stateOf_setTxn m txn' u) (.inl ?_)
  rw [hid, stateOf, hm, hs]
  rfl

lemma stateOf_of_txns {s : TxnState} (hm : m.txns t = some txn) (hs : txn.state = s) :
    m.stateOf t = some s := by
  rw [stateOf, hm, Option.map_some, hs]

lemma calm_discard (hid : txn.id = t) (hs : m.stateOf t = some .active) (alloc : Bool) :
    Calm m (m.discard txn alloc).pruneCommittedHistory := by
  obtain ⟨hcalls, hps⟩ := m.calls_discard txn alloc
  refine .of_update hcalls hps (stateOf_discard m txn alloc) (.inr (.inr ?_))
  rw [hid, hs]

lemma calm_record (w : m.Wf) (isWrite : Bool) (e : UInt8) (key : List UInt8) (alloc : Bool) :
    Calm m (m.record t isWrite e key alloc).2 := by
  unfold record
  split
  · exact .refl m
  next txn hm =>
    split_ifs
    · exact .refl m
    all_goals exact calm_setTxn hm (w.id t txn hm) rfl

lemma calm_exec (w : m.Wf) {op : Op} (hop : op.isPlain = true) : Calm m (m.exec op).2 := by
  cases op with
  | begin isolation handle node =>
    have hunborn : m.stateOf m.nextTxnId = none := by
      cases hm : m.txns m.nextTxnId with
      | none => rw [stateOf, hm]; rfl
      | some txn => exact absurd (w.known _ txn hm) (lt_irrefl _)
    change Calm m (m.begin isolation handle node).2
    cases handle with
    | false => exact .refl m
    | true =>
      cases node with
      | false => exact ⟨rfl, rfl, fun _ => .inl rfl⟩
      | true =>
        exact .of_update rfl rfl (fun u => stateOf_setTxn _ _ u) (.inr (.inl hunborn))
  | recordRead t e key alloc => exact calm_record w false e key alloc
  | recordWrite t e key alloc => exact calm_record w true e key alloc
  | savepoint t name =>
    change Calm m (m.savepoint t name).2
    unfold savepoint
    split
    · exact .refl m
    next txn hm =>
      split_ifs
      · exact .refl m
      · exact calm_setTxn hm (w.id t txn hm) rfl
  | rollbackToSavepoint t name =>
    change Calm m (m.rollbackToSavepoint t name).2
    unfold rollbackToSavepoint
    split
    · exact .refl m
    next txn hm =>
      split_ifs
      · exact .refl m
      · cases (savepointsTo name txn.savepoints).getLast? with
        | none => exact .refl m
        | some => exact calm_setTxn hm (w.id t txn hm) rfl
  | attachResource t =>
    change Calm m (m.attachResource t).2
    unfold attachResource
    split
    · exact .refl m
    next txn hm =>
      split_ifs
      · exact .refl m
      · exact calm_setTxn hm (w.id t txn hm) rfl
  | commit t env =>
    change Calm m (m.commit t env).2
    unfold commit
    split
    · exact .refl m
    next txn hm =>
      split_ifs with hs
      · exact .refl m
      all_goals have hactive := stateOf_of_txns hm (not_not.mp hs)
      iterate 4 · exact calm_discard (w.id t txn hm) hactive _
      · refine .of_update rfl rfl (stateOf_settle m txn (m.summary txn)) (.inr (.inr ?_))
        rw [w.id t txn hm, hactive]
  | rollback t alloc =>
    change Calm m (m.rollback t alloc).2
    unfold rollback
    split
    · exact .refl m
    next txn hm =>
      split_ifs with hs
      · exact .refl m
      · exact calm_discard (w.id t txn hm) (stateOf_of_txns hm (not_not.mp hs)) alloc
  | registerParticipant | prepare | commitPrepared | abortPrepared => cases hop

lemma yesVotes_of_isPlain {op : Op} (hop : op.isPlain = true) : m.yesVotes op = [] := by
  cases op with
  | prepare => cases hop
  | _ => rfl

/-- The manager after the votes on `t` were asked for. -/
def asked (m : Manager) (t : ℕ) (votes : List Bool) : Manager :=
  { m with calls := m.calls ++ (prepareVotes t m.participants.zipIdx votes).1 }

lemma verdicts_asked (m : Manager) (votes : List Bool) :
    (m.asked u votes).verdicts i t = m.verdicts i t := by
  rw [asked, verdicts_append, verdicts_prepareVotes, append_nil]

lemma yesVotes_prepare (m : Manager) (t : ℕ) (votes : List Bool) (alloc : Bool) :
    m.yesVotes (.prepare t votes alloc) = ((m.txns t).elim [] fun txn =>
      if txn.state ≠ .active ∨ txn.resource then []
      else (accepted m.participants.zipIdx votes).map fun i => (i, t)) := by
  unfold yesVotes
  cases hm : m.txns t <;> simp only [hm] <;> rfl

/-- The three ends of `prepare`: nothing is asked, all agree, somebody refuses. -/
lemma prepare_cases (m : Manager) (t : ℕ) (votes : List Bool) (alloc : Bool) :
    (m.prepare t votes alloc = (false, m) ∧ m.yesVotes (.prepare t votes alloc) = []) ∨
      ∃ txn, m.txns t = some txn ∧ txn.state = .active ∧ txn.resource = false ∧
        m.yesVotes (.prepare t votes alloc) =
          ((accepted m.participants.zipIdx votes).map fun i => (i, t)) ∧
        (unanimous m.participants.zipIdx votes = true ∧ m.prepare t votes alloc =
            (true, (m.asked t votes).setTxn { txn with state := .prepared }) ∨
          unanimous m.participants.zipIdx votes = false ∧ m.prepare t votes alloc =
            (false, ((m.asked t votes).discard txn alloc).pruneCommittedHistory)) := by
  rw [yesVotes_prepare]
  unfold prepare
  cases hm : m.txns t with
  | none => exact .inl ⟨rfl, rfl⟩
  | some txn =>
    dsimp only [Option.elim_some]
    by_cases hs : txn.state ≠ .active ∨ txn.resource = true
    · rw [if_pos hs, if_pos hs]
      exact .inl ⟨rfl, rfl⟩
    · rw [if_neg hs, if_neg hs]
      obtain ⟨hactive, hres⟩ := not_or.mp hs
      refine .inr ⟨txn, rfl, not_not.mp hactive, by simpa using hres, rfl, ?_⟩
      rw [← prepareVotes_snd t]
      cases hyes : (prepareVotes t m.participants.zipIdx votes).2 with
      | true => exact .inl ⟨rfl, if_pos rfl⟩
      | false => exact .inr ⟨rfl, if_neg (by simp)⟩

/-- The ends of `commitPrepared` and `abortPrepared`. -/
inductive Concluded (m : Manager) (t : ℕ) (m' : Manager) : Prop
  | idle (hm : m' = m) (hs : m.stateOf t ≠ some .prepared)
  | ended (txn : Handle) (hm : m.txns t = some txn) (hs : txn.state = .prepared) (s : TxnState)
      (kind : CallKind) (hkind : s.verdict = some kind) (provides : Participant → Bool)
      (hprovides : ∀ p : Participant, p.commit = true → p.abort = true → provides p = true)
      (hcalls : m'.calls = (m.callAll kind provides t).calls)
      (hps : m'.participants = m.participants)
      (hstate : ∀ u, m'.stateOf u = if u = txn.id then some s else m.stateOf u)

lemma concluded_discard (hm : m.txns t = some txn) (hs : txn.state = .prepared) (alloc : Bool) :
    m.Concluded t ((m.callAll .abort abort t).discard txn alloc) := by
  obtain ⟨hcalls, hps⟩ := (m.callAll .abort abort t).calls_discard txn alloc
  exact .ended txn hm hs .aborted .abort rfl abort (fun _ _ habort => habort) hcalls hps
    (stateOf_discard _ txn alloc)

lemma Concluded.prune {m' : Manager} (h : m.Concluded t m') (hs : m.stateOf t = some .prepared) :
    m.Concluded t m'.pruneCommittedHistory := by
  cases h with
  | idle hm hs' => exact absurd hs hs'
  | ended txn hm hs s kind hkind provides hprovides hcalls hps hstate =>
    exact .ended txn hm hs s kind hkind provides hprovides hcalls hps hstate

lemma concluded_commitPrepared (m : Manager) (t : ℕ) (env : Env) :
    m.Concluded t (m.commitPrepared t env).2 := by
  unfold commitPrepared
  cases hm : m.txns t with
  | none => exact .idle rfl (by simp [stateOf, hm])
  | some txn =>
    dsimp only
    split_ifs with hs
    · exact .idle rfl (by simpa [stateOf, hm] using hs)
    all_goals have hprep := stateOf_of_txns hm (not_not.mp hs)
    iterate 3 · exact (concluded_discard hm (not_not.mp hs) _).prune hprep
    · exact .ended txn hm (not_not.mp hs) .committed .commit rfl Participant.commit
        (fun _ hcommit _ => hcommit) rfl rfl (stateOf_settle _ txn (m.summary txn))

lemma concluded_abortPrepared (m : Manager) (t : ℕ) (alloc : Bool) :
    m.Concluded t (m.abortPrepared t alloc).2 := by
  unfold abortPrepared
  cases hm : m.txns t with
  | none => exact .idle rfl (by simp [stateOf, hm])
  | some =>
    dsimp only
    split_ifs with hs
    · exact .idle rfl (by simpa [stateOf, hm] using hs)
    · exact concluded_discard hm (not_not.mp hs) alloc

end Manager

/-! ### Runs -/

namespace Ledger

variable {l : Ledger} {t : ℕ} {op : Op} {m' : Manager} {txn : Handle}

section

variable (h : l.Sound)
include h

/-- A call that concerns transaction `t` only. -/
lemma Sound.touch (t : ℕ) {new : List (ℕ × ℕ)} (hwf : m'.Wf)
    (hps : m'.participants = l.manager.participants) (hnew : ∀ v ∈ new, v.2 = t)
    (hother : ∀ u, u ≠ t → ∀ i, m'.verdicts i u = l.manager.verdicts i u)
    (hstate : ∀ u, u ≠ t → m'.stateOf u = l.manager.stateOf u)
    (hself : Status ⟨m', l.prepared ++ new⟩ t (m'.stateOf t)) : Sound ⟨m', l.prepared ++ new⟩ := by
  refine ⟨hwf, fun u => ?_⟩
  by_cases hu : u = t
  · exact hu ▸ hself
  · rw [hstate u hu]
    refine (h.status u).frame (fun i => ?_) (hother u hu) (hps ▸ prefix_refl _)
    refine ⟨fun hi => (mem_append.mp hi).resolve_right fun hi => hu (hnew _ hi), fun hi => ?_⟩
    exact mem_append_left _ hi

lemma Sound.calm (hop : op.isPlain = true) : (l.step op).Sound := by
  have hcalm := calm_exec h.wf hop
  unfold step
  rw [yesVotes_of_isPlain hop, append_nil]
  refine ⟨h.wf.exec op, fun u => ?_⟩
  have hframe : ∀ s, l.Status u s → Status ⟨(l.manager.exec op).2, l.prepared⟩ u s := fun s hs =>
    hs.frame (fun _ => Iff.rfl) (fun i => verdicts_of_calls hcalm.calls i u)
      (hcalm.participants ▸ prefix_refl _)
  have hstatus := h.status u
  rcases hcalm.state u with hsame | hnone | hactive
  · rw [hsame]
    exact hframe _ hstatus
  · rw [hnone] at hstatus
    exact hframe _ (Status.any hstatus _)
  · rw [hactive] at hstatus
    exact hframe _ (Status.any hstatus _)

lemma Sound.register (p : Participant) : (l.step (.registerParticipant p)).Sound := by
  unfold step
  rw [show l.manager.yesVotes (.registerParticipant p) = [] from rfl, append_nil]
  have hwf := h.wf.exec (.registerParticipant p)
  revert hwf
  unfold Manager.exec Manager.registerParticipant
  split_ifs
  · exact fun _ => h
  · exact fun hwf => ⟨hwf, fun u =>
      (h.status u).frame (fun _ => Iff.rfl) (fun _ => rfl) (prefix_append _ _)⟩

lemma Sound.prepare {votes : List Bool} {alloc : Bool}
    (hok : l.twoPhaseOk (.prepare t votes alloc) = true) :
    (l.step (.prepare t votes alloc)).Sound := by
  have hwf : (l.manager.prepare t votes alloc).2.Wf := h.wf.exec (.prepare t votes alloc)
  change Sound ⟨(l.manager.prepare t votes alloc).2, _⟩
  rcases l.manager.prepare_cases t votes alloc with
    ⟨heq, hnone⟩ | ⟨txn, hm, hactive, hres, hvotes, ⟨hyes, heq⟩ | ⟨hrefused, heq⟩⟩
  · rw [heq, hnone, append_nil]
    exact h
  all_goals
    rw [heq] at hwf ⊢
    rw [hvotes]
    have hid := h.wf.id t txn hm
    have hstatus := h.status t
    rw [stateOf_of_txns hm hactive] at hstatus
  · refine h.touch t hwf rfl (fun v hv => ?_) (fun u _ i => verdicts_asked _ votes)
      (fun u hu => ?_) ?_
    · obtain ⟨i, -, rfl⟩ := mem_map.mp hv
      rfl
    · rw [stateOf_setTxn, if_neg (fun hc => hu (hc.trans hid))]
      rfl
    · rw [stateOf_setTxn, if_pos hid.symm]
      refine ⟨fun i hi => ?_, fun i => (verdicts_asked _ votes).trans (hstatus.2 i)⟩
      -- whoever has prepared was asked just now
      obtain ⟨j, hj, hji⟩ := mem_map.mp ((mem_append.mp hi).resolve_left (hstatus.1 i))
      obtain ⟨rfl, -⟩ := Prod.mk.inj hji
      obtain ⟨p, hp, hprep⟩ := mem_accepted hj
      have hget := mem_zipIdx_iff_getElem?.mp hp
      have htold : ∀ p ∈ l.manager.participants, p.prepare = false ∨ p.commit ∧ p.abort := by
        simpa [twoPhaseOk, hm, hactive, hres, hyes] using hok
      exact ⟨p, hget, (htold p (mem_of_getElem? hget)).resolve_left (by simp [hprep])⟩
  · have hempty : accepted l.manager.participants.zipIdx votes = [] := by
      simpa [twoPhaseOk, hm, hactive, hres, hrefused] using hok
    rw [hempty]
    obtain ⟨hcalls, hps⟩ := (l.manager.asked t votes).calls_discard txn alloc
    have hstate := stateOf_discard (l.manager.asked t votes) txn alloc
    refine h.touch t hwf hps (by simp) (fun u _ i => ?_) (fun u hu => ?_) ?_
    · exact (verdicts_of_calls hcalls i u).trans (verdicts_asked _ votes)
    · exact (hstate u).trans (if_neg fun hc => hu (hc.trans hid))
    · have hend : (((l.manager.asked t votes).discard txn alloc).pruneCommittedHistory).stateOf t =
          some .aborted := (hstate t).trans (if_pos hid.symm)
      rw [hend]
      intro i hi
      rw [map_nil, append_nil] at hi
      exact absurd hi (hstatus.1 i)

/-- The end of a prepared transaction: every participant is told the verdict. -/
lemma Sound.concluded (hwf : m'.Wf) (hend : l.manager.Concluded t m') :
    Sound ⟨m', l.prepared ++ []⟩ := by
  cases hend with
  | idle hm =>
    rw [hm, append_nil]
    exact h
  | ended txn hm hs s kind hkind provides hprovides hcalls hps hstate =>
    have hid := h.wf.id t txn hm
    have hstatus := h.status t
    rw [stateOf_of_txns hm hs] at hstatus
    have hnot : kind ≠ .prepare := by
      rintro rfl
      cases s <;> simp [TxnState.verdict] at hkind
    have hverdicts : ∀ i u, m'.verdicts i u = _ := fun i u =>
      (verdicts_of_calls hcalls i u).trans (verdicts_callAll hnot)
    refine h.touch t hwf hps (by simp) (fun u hu i => ?_) (fun u hu => ?_) ?_
    · rw [hverdicts, if_neg (fun hc => hu hc.symm), append_nil]
    · rw [hstate, if_neg (fun hc => hu (hc.trans hid))]
    · have hone : ∀ i, (i, t) ∈ l.prepared ++ [] → m'.verdicts i t = [kind] := by
        intro i hi
        obtain ⟨p, hp, hcommit, habort⟩ := hstatus.1 i (by simpa using hi)
        rw [hverdicts, if_pos rfl, hstatus.2 i, hp]
        simp [Option.filter, hprovides p hcommit habort]
      rw [hstate, if_pos hid.symm]
      cases s with
      | committed | aborted =>
        cases hkind
        exact hone
      | active | prepared => cases hkind

lemma Sound.step (hok : l.twoPhaseOk op = true) : (l.step op).Sound := by
  cases op with
  | registerParticipant p => exact h.register p
  | prepare => exact h.prepare hok
  | commitPrepared t env =>
    exact h.concluded (h.wf.exec _) (l.manager.concluded_commitPrepared t env)
  | abortPrepared t alloc =>
    exact h.concluded (h.wf.exec _) (l.manager.concluded_abortPrepared t alloc)
  | _ => exact h.calm rfl

end

lemma meets_append (l : Ledger) (ops more : List Op) :
    l.meets (ops ++ more) = (l.meets ops && (l.run ops).meets more) := by
  induction ops generalizing l with
  | nil => rfl
  | cons op ops ih =>
    rw [cons_append, meets, meets, ih, Bool.and_assoc]
    rfl

lemma Sound.run {ops : List Op} (h : l.Sound) (hok : l.meets ops = true) : (l.run ops).Sound := by
  induction ops generalizing l with
  | nil => exact h
  | cons op ops ih =>
    rw [meets, Bool.and_eq_true] at hok
    exact ih (h.step hok.1) hok.2

/-- Only a prepared transaction waits for its verdict. -/
lemma Sound.agreed (h : l.Sound)
    (hs : l.manager.stateOf t = some .prepared → ∀ i, (i, t) ∉ l.prepared) : l.Agreed t := by
  intro txn hm i hi
  have hstate : l.manager.stateOf t = some txn.state := by rw [Manager.stateOf, hm]; rfl
  have hstatus := h.status t
  rw [hstate] at hstatus hs
  generalize txn.state = s at hstatus hs ⊢
  cases s with
  | active => exact absurd hi (hstatus.1 i)
  | prepared => exact absurd hi (hs rfl i)
  | committed => exact ⟨.commit, rfl, hstatus i hi⟩
  | aborted => exact ⟨.abort, rfl, hstatus i hi⟩

lemma stateOf_concluded (w : l.manager.Wf) (h : l.manager.Concluded t m') :
    m'.stateOf t ≠ some .prepared := by
  cases h with
  | idle hm => rwa [hm]
  | ended txn hm hs s kind hkind provides hprovides hcalls hps hstate =>
    rw [hstate, if_pos (w.id t txn hm).symm]
    rintro ⟨⟩
    cases hkind

/-- Nobody waits for a transaction that a call ends and leaves prepared. -/
lemma notMem_prepared (w : l.manager.Wf) (hok : l.twoPhaseOk op = true)
    (h : l.manager.concludes op = some t) (hprep : (l.step op).manager.stateOf t = some .prepared)
    (i : ℕ) : (i, t) ∉ (l.step op).prepared := by
  cases op with
  | prepare u votes alloc =>
    have hends : (if (l.manager.prepare u votes alloc).1 then none else some u) = some t := h
    split_ifs at hends with hres
    cases hends
    change (l.manager.prepare t votes alloc).2.stateOf t = _ at hprep
    change (i, t) ∉ l.prepared ++ l.manager.yesVotes (.prepare t votes alloc)
    rcases l.manager.prepare_cases t votes alloc with
      ⟨heq, hnone⟩ | ⟨txn, hm, -, -, -, ⟨-, heq⟩ | ⟨-, heq⟩⟩
    · rw [heq] at hprep
      dsimp only at hprep
      obtain ⟨txn, hm, hs⟩ := Option.map_eq_some_iff.mp hprep
      have hfree : ∀ i u, (i, u) ∈ l.prepared → u ≠ t := by
        simpa [twoPhaseOk, hm, hs] using hok
      rw [hnone, append_nil]
      exact fun hi => hfree i t hi rfl
    · exact absurd (by rw [heq]) hres
    · have hstate := stateOf_discard (l.manager.asked t votes) txn alloc t
      rw [if_pos (w.id t txn hm).symm] at hstate
      rw [heq] at hprep
      cases hstate.symm.trans hprep
  | commitPrepared u env =>
    cases h
    exact absurd hprep (stateOf_concluded w (l.manager.concluded_commitPrepared t env))
  | abortPrepared u alloc =>
    cases h
    exact absurd hprep (stateOf_concluded w (l.manager.concluded_abortPrepared t alloc))
  | _ => cases h

/-- In every run that meets the condition, the participants that have prepared a transaction are
told one verdict, the recorded one, by the time it ends. -/
theorem two_phase_agreed (ops : List Op) (hmeets : start.meets ops = true) (pre : List Op) (op : Op)
    (post : List Op) (hops : ops = pre ++ op :: post) (t : ℕ)
    (ht : (start.run pre).manager.concludes op = some t) : ((start.run pre).step op).Agreed t := by
  rw [hops, meets_append, meets, Bool.and_eq_true, Bool.and_eq_true] at hmeets
  have hsound : (start.run pre).Sound := sound_start.run hmeets.1
  exact (hsound.step hmeets.2.1).agreed (notMem_prepared hsound.wf hmeets.2.1 ht)

end Ledger

namespace Sample

def engine : Participant := ⟨true, true, true⟩

/-- Two engines and a transaction that the second one refuses. -/
def refusedPrepare : List Op :=
  [.registerParticipant engine, .registerParticipant engine, .begin .readCommitted true true,
    .prepare 1 [true, false] true]

/-- The first engine has prepared, and is told nothing although the transaction is aborted. -/
theorem prepared_engine_not_told : (start.run refusedPrepare).manager.isAborted 1 = true ∧
      (0, 1) ∈ (start.run refusedPrepare).prepared ∧
      (start.run refusedPrepare).manager.verdicts 0 1 = [] := by
  decide +kernel

def unanimousPrepare : List Op :=
  [.registerParticipant engine, .registerParticipant engine, .begin .readCommitted true true,
    .prepare 1 [true, true] true]

theorem two_phase_agreed_committed :
    start.meets (unanimousPrepare ++ [.commitPrepared 1 Env.good]) = true ∧
      ((start.run unanimousPrepare).step (.commitPrepared 1 Env.good)).Agreed 1 :=
  ⟨by decide +kernel,
    two_phase_agreed _ (by decide +kernel) unanimousPrepare (.commitPrepared 1 Env.good) []
      rfl 1 rfl⟩

end Sample

end Qihse.Txn
