import Qihse.Consensus.Order
import Qihse.Consensus.Wire

/-!
# What nodes send

Every message that a regular node hands to the transport passes the validation of the wire format,
for every principal that may see its entries, and an APPEND carries an orderly batch. The operations
keep the node regular as long as entries are stored in order, which the stored entries themselves do
not always guarantee: see `Node.deliverOk` and `Node.tickOk`.
-/

namespace Qihse.Consensus

open Crash Crash.Prog List Proc Msg

/-! ### Messages -/

/-- The entries that a message carries. -/
def MsgBody.carried : MsgBody → List Entry
  | .append _ _ _ entries => entries
  | .snapshot s => s.entries
  | .snapshotChunk c => c.entries
  | _ => []

/-- An active principal that may see every entry of the message. -/
structure Principal.Cleared (user : Principal) (m : Msg) : Prop where
  active : user.isActive
  access : ∀ e ∈ m.body.carried, user.canAccess e.classif e.sci

/-- A message that can be put on the wire; the batch of an APPEND is in order. -/
structure Msg.Sound (m : Msg) : Prop where
  passes : ∀ user : Principal, user.Cleared m → prevalidate user m
  batch : ∀ prev prevTerm leaderCommit es, m.body = .append prev prevTerm leaderCommit es →
    es.Pairwise Entry.Before ∧ ∀ e ∈ es, prevTerm ≤ e.term ∧ e.term ≤ m.term

section

variable {n : Node} {dest : Uuid} {term : ℕ} {body : MsgBody}

/-- A message of a regular node, up to its body. -/
lemma Node.Regular.sound (h : n.Regular) (hdest : dest.isNil = false) (hterm : term ≤ n.epoch)
    (hvalid : ∀ user : Principal,
      user.Cleared ⟨n.cfg.groupId, n.cfg.self, dest, term, n.epoch, body⟩ →
      bodyValid user ⟨n.cfg.groupId, n.cfg.self, dest, term, n.epoch, body⟩)
    (hbatch : ∀ prev prevTerm leaderCommit es, body = .append prev prevTerm leaderCommit es →
      es.Pairwise Entry.Before ∧ ∀ e ∈ es, prevTerm ≤ e.term ∧ e.term ≤ term) :
    Sound ⟨n.cfg.groupId, n.cfg.self, dest, term, n.epoch, body⟩ := by
  refine ⟨fun user huser => ?_, hbatch⟩
  simp [prevalidate, huser.active, h.named.group, h.named.self, hdest, hterm, hvalid user huser]

/-- A body without entries. -/
def MsgBody.plain : MsgBody → Bool
  | .append _ _ _ _ | .snapshot _ | .snapshotChunk _ => false
  | _ => true

lemma Node.Regular.sound_plain (h : n.Regular) (hdest : dest.isNil = false) (hterm : term ≤ n.epoch)
    (hplain : body.plain) : Sound ⟨n.cfg.groupId, n.cfg.self, dest, term, n.epoch, body⟩ := by
  refine h.sound hdest hterm (fun user _ => ?_) ?_
  · cases body <;> first | rfl | simp [MsgBody.plain] at hplain
  · rintro prev prevTerm leaderCommit es rfl
    simp [MsgBody.plain] at hplain

/-- Entries with small payloads that the principal may see. -/
lemma all_wireValid {user : Principal} {es : List Entry}
    (hsmall : ∀ e ∈ es, e.payload.length ≤ payloadMax)
    (haccess : ∀ e ∈ es, user.canAccess e.classif e.sci) : es.all (·.wireValid user) := by
  rw [all_eq_true]
  intro e he
  simp [Entry.wireValid, hsmall e he, haccess e he]

/-- The batch that follows an index of an orderly log. -/
lemma Node.Regular.batch (h : n.Regular) (prev k : ℕ) :
    ((n.entries.drop prev).take k).Pairwise Entry.Before ∧
      ∀ e ∈ (n.entries.drop prev).take k, n.termAt prev ≤ e.term ∧ e.term ≤ n.term := by
  have hsub : ((n.entries.drop prev).take k).Sublist n.entries :=
    (take_sublist _ _).trans (drop_sublist _ _)
  refine ⟨h.log.rising.sublist hsub, fun e he => ⟨?_, h.log.bounded e (hsub.subset he)⟩⟩
  have he := mem_of_mem_take he
  cases prev with
  | zero =>
    exact Nat.zero_le _
  | succ i =>
    rw [n.termAt_succ]
    cases hl : n.entries[i]? with
    | none => exact Nat.zero_le _
    | some l =>
      have hmem : l ∈ n.entries.take (i + 1) := by
        refine mem_of_getElem? (i := i) ?_
        rw [getElem?_take, if_pos (Nat.lt_succ_self i)]
        exact hl
      have hsplit := h.log.rising
      rw [← take_append_drop (i + 1) n.entries, pairwise_append] at hsplit
      exact (hsplit.2.2 l hmem e he).1

section

variable (h : n.Regular) (hdest : dest.isNil = false)
include h hdest

lemma Node.Regular.sound_append {prev commit : ℕ} :
    Sound ⟨n.cfg.groupId, n.cfg.self, dest, n.term, n.epoch,
      .append prev (n.termAt prev) commit ((n.entries.drop prev).take maxEntriesPerMsg)⟩ := by
  refine h.sound hdest h.epoch (fun user huser => ?_) ?_
  · have hall : ((n.entries.drop prev).take maxEntriesPerMsg).all (·.wireValid user) :=
      all_wireValid
        (fun e he => h.log.small e (mem_of_mem_drop (mem_of_mem_take he))) huser.access
    simp only [bodyValid, hall, length_take, Bool.and_true, decide_eq_true_eq]
    exact min_le_left _ _
  · rintro _ _ _ _ ⟨⟩
    exact h.batch prev _

/-- An APPEND without entries, as the probe of a snapshot transfer. -/
lemma Node.Regular.sound_probe {commit : ℕ} :
    Sound ⟨n.cfg.groupId, n.cfg.self, dest, n.term, n.epoch, .append 0 0 commit []⟩ := by
  refine h.sound hdest h.epoch (fun user _ => rfl) ?_
  rintro _ _ _ _ ⟨⟩
  exact ⟨.nil, by simp⟩

lemma Node.Regular.sound_snapshot (hsize : n.snap.entries.length ≤ snapshotMaxEntries) :
    Sound ⟨n.cfg.groupId, n.cfg.self, dest, n.term, n.epoch,
      .snapshot ⟨n.snap.lastIncludedIndex, n.snap.lastIncludedTerm, n.snap.epoch,
        n.snap.journalGeneration, n.snap.digest, n.snap.entries⟩⟩ := by
  refine h.sound hdest h.epoch (fun user huser => ?_) (by simp)
  have hall : n.snap.entries.all (·.wireValid user) := all_wireValid
    (fun e he => h.log.small e (by simp [entries, he])) huser.access
  simp [bodyValid, hall, hsize]

end

/-- The loop of `prevalidate` over entries in order. -/
lemma SnapshotChunk.ordered_of_pairwise {user : Principal} {c : SnapshotChunk} {es : List Entry}
    {i t g : ℕ} (hes : es.Pairwise Entry.Before)
    (hone : ∀ k e, es[k]? = some e → e.wireValid user ∧ e.index = c.firstEntryIndex + (i + k) ∧
      e.term ≤ c.lastIncludedTerm ∧ e.journalGeneration ≤ c.journalGeneration)
    (hfirst : 0 < i → ∀ e ∈ es, t ≤ e.term ∧ g < e.journalGeneration) :
    c.ordered user es i t g := by
  induction es generalizing i t g with
  | nil => rfl
  | cons e es ih =>
    obtain ⟨hv, hindex, hterm, hgen⟩ := hone 0 e rfl
    rw [pairwise_cons] at hes
    have hrest := ih (i := i + 1) (t := e.term) (g := e.journalGeneration) hes.2
      (fun k x hx => by
        have h := hone (k + 1) x hx
        rwa [show i + (k + 1) = i + 1 + k by omega] at h)
      (fun _ x hx => hes.1 x hx)
    have hstart :
        (decide (i = 0) || decide (t ≤ e.term) && decide (g < e.journalGeneration)) = true := by
      rcases Nat.eq_zero_or_pos i with h0 | hpos
      · simp [h0]
      · have h := hfirst hpos e (by simp)
        simp [h.1, h.2]
    simp only [ordered, hv, hrest, hterm, hgen, hstart, Bool.and_true, decide_true,
      decide_eq_true_eq, Bool.true_and]
    simpa using hindex

/-- The compacted prefix is orderly by itself. -/
lemma Node.Regular.snapLog (h : n.Regular) : Orderly n.term n.snap.entries := by
  have hlog := h.log.take n.snap.entries.length
  rwa [entries, take_left] at hlog

/-- The entries of a chunk are at most those of the compacted prefix. -/
lemma Node.Regular.snap_le (h : n.Regular) {e : Entry} (he : e ∈ n.snap.entries) :
    e.term ≤ n.snap.lastIncludedTerm ∧ e.journalGeneration ≤ n.snap.journalGeneration := by
  obtain ⟨l, hl⟩ : ∃ l, n.snap.entries.getLast? = some l :=
    ⟨_, getLast?_eq_some_getLast (ne_nil_of_mem he)⟩
  obtain ⟨hterm, hgen⟩ := h.snap.last l hl
  rw [← hterm, ← hgen]
  exact h.snapLog.le_last hl he

lemma Node.snapshotTransferId_ne_zero (n : Node) : n.snapshotTransferId ≠ 0 := by
  unfold snapshotTransferId
  simp only
  split_ifs with h
  · exact Nat.one_ne_zero
  · exact h

variable {first : ℕ}

/-- A chunk that reaches the end of the prefix ends with its last entry. -/
lemma Node.getLast?_snapshotChunk (hfirst : 1 ≤ first) (hle : first ≤ n.snap.entries.length)
    (hfinal : first + (n.snapshotChunk first).entries.length - 1 = n.snap.entries.length) :
    (n.snapshotChunk first).entries.getLast? = n.snap.entries.getLast? := by
  simp only [snapshotChunk, length_take, length_drop] at hfinal ⊢
  rw [take_of_length_le (by rw [length_drop]; omega), getLast?_drop,
    if_neg (by omega)]

lemma Node.Regular.wireValid_chunk (h : n.Regular) {user : Principal} (hfirst : 1 ≤ first)
    (hle : first ≤ n.snap.entries.length)
    (haccess : ∀ e ∈ (n.snapshotChunk first).entries, user.canAccess e.classif e.sci) :
    (n.snapshotChunk first).wireValid user n.term n.epoch := by
  have hsize := h.snap.size
  have hsub : ∀ e ∈ (n.snapshotChunk first).entries, e ∈ n.snap.entries := fun e he =>
    mem_of_mem_drop (mem_of_mem_take he)
  have hlen : (n.snapshotChunk first).entries.length =
      min snapshotChunkMaxEntries (n.snap.entries.length - (first - 1)) := by
    simp [snapshotChunk]
  have hordered : (n.snapshotChunk first).ordered user (n.snapshotChunk first).entries 0 0 0 := by
    refine SnapshotChunk.ordered_of_pairwise ?_ (fun k e hk => ?_) (by simp)
    · exact h.snapLog.rising.sublist ((take_sublist _ _).trans (drop_sublist _ _))
    · have hmem := mem_of_getElem? hk
      obtain ⟨hterm, hgen⟩ := h.snap_le (hsub e hmem)
      refine ⟨?_, ?_, hterm, hgen⟩
      · have hsmall : e.payload.length ≤ payloadMax := h.snapLog.small e (hsub e hmem)
        simp [Entry.wireValid, hsmall, haccess e hmem]
      · have hk : ((n.snap.entries.drop (first - 1)).take snapshotChunkMaxEntries)[k]? =
          some e := hk
        rw [getElem?_take] at hk
        split_ifs at hk
        rw [getElem?_drop] at hk
        have hindex := h.snapLog.numbered _ e hk
        change e.index = first + (0 + k)
        omega
  have hdigest : (n.snapshotChunk first).computeDigest = (n.snapshotChunk first).chunkDigest := rfl
  simp only [SnapshotChunk.wireValid, hordered, hdigest, decide_true, Bool.and_true,
    Bool.and_eq_true, decide_eq_true_eq, Bool.or_eq_true, Bool.not_eq_true']
  have hwide : snapshotStreamMaxEntries + snapshotChunkMaxEntries ≤ u64Max := by decide
  have hroom : 0 < snapshotChunkMaxEntries := by decide
  refine ⟨⟨⟨⟨⟨⟨⟨⟨⟨⟨⟨⟨n.snapshotTransferId_ne_zero, ?_⟩, ?_⟩, hle⟩, ?_⟩, ?_⟩, h.snap.fenced⟩,
    h.snapEpoch⟩, h.snapTerm⟩, ?_⟩, ?_⟩, rfl⟩, ?_⟩
  · change n.snap.entries.length ≠ 0
    omega
  · change first ≠ 0
    omega
  · omega
  · omega
  · change first ≤ _
    omega
  · change first + _ - 1 ≤ n.snap.entries.length
    omega
  · cases hf : (n.snapshotChunk first).finalChunk with
    | false => exact .inl rfl
    | true =>
      rw [n.getLast?_snapshotChunk hfirst hle (of_decide_eq_true hf)]
      cases hl : n.snap.entries.getLast? with
      | none =>
        rw [getLast?_eq_none_iff] at hl
        rw [hl] at hle
        exact absurd hle (by simp; omega)
      | some l =>
        obtain ⟨hterm, hgen⟩ := h.snap.last l hl
        exact .inr (by simp [hterm, hgen, snapshotChunk])

lemma Node.Regular.sound_chunk (h : n.Regular) (hdest : dest.isNil = false) (hfirst : 1 ≤ first)
    (hle : first ≤ n.snap.entries.length) :
    Sound ⟨n.cfg.groupId, n.cfg.self, dest, n.term, n.epoch,
      .snapshotChunk (n.snapshotChunk first)⟩ :=
  h.sound hdest h.epoch (fun _ huser => h.wireValid_chunk hfirst hle huser.access) (by simp)

end

/-! ### Programs -/

/-- Every message sent so far is sound. -/
def Proc.Spoken (p : Proc) : Prop := ∀ m ∈ p.out, m.Sound

/-- A regular node that has sent sound messages only. -/
structure Proc.Sound (p : Proc) : Prop where
  node : p.node.Regular
  out : p.Spoken

/-- A program that keeps the node regular and sends sound messages, also where it crashes. -/
abbrev Speaks {α : Type} (m : M α) (p : Proc) : Prop := Sat m p (fun _ => Sound) Spoken

/-- The fields of a node that its regularity depends on. -/
def Node.core (n : Node) := (n.cfg, n.term, n.epoch, n.snap, n.log, n.members, n.ducks)

section

variable {p p' : Proc} {C : Proc → Prop}

variable {n : Node}

lemma Proc.Sound.setNode (h : p.Sound) (hn : n.Regular) : Sound { p with node := n } :=
  ⟨hn, h.out⟩

lemma Proc.Sound.touch (h : p.Sound) (hn : n.core = p.node.core) :
    Sound { p with node := n } := by
  simp only [Node.core, Prod.mk.injEq] at hn
  obtain ⟨hcfg, hterm, hepoch, hsnap, hlog, hmembers, hducks⟩ := hn
  exact h.setNode (h.node.congr hcfg hterm hepoch ⟨hsnap, hlog⟩ hmembers hducks)

lemma Proc.Spoken.congr (h : p.Spoken) (hout : p'.out = p.out) : p'.Spoken := by
  rw [Spoken, hout]
  exact h

/-- An append changes neither the node nor what it has sent. -/
lemma sat_recordAppend_sound (r : Record) (h : p.Sound) :
    Sat (recordAppend r) p (fun _ p' => p'.Sound ∧ p'.node = p.node) Spoken := by
  refine sat_recordAppend (F := True) (fun _ _ => trivial) ?_ ?_ ?_
  · intro p' hn _ hout _ _ _
    exact ⟨⟨hn ▸ h.node, h.out.congr hout⟩, hn⟩
  · intro p' _ hn _ hout _ _
    exact ⟨⟨hn ▸ h.node, h.out.congr hout⟩, hn⟩
  · intro p' _ _ hout _
    exact h.out.congr hout

lemma sat_recordAppend?_sound (r : Option Record) (h : p.Sound) :
    Sat (recordAppend? r) p (fun _ p' => p'.Sound ∧ p'.node = p.node) Spoken := by
  cases r with
  | none => exact ⟨h, rfl⟩
  | some r => exact sat_recordAppend_sound r h

lemma Proc.Sound.emit (h : p.Sound) {m : Msg} (hm : m.Sound) :
    Sound { p with out := p.out ++ [m] } :=
  ⟨h.node, forall_mem_append.mpr ⟨h.out, forall_mem_singleton.mpr hm⟩⟩

lemma sat_send_sound {dest : Uuid} {body : MsgBody} (h : p.Sound)
    (hm : Sound ⟨p.node.cfg.groupId, p.node.cfg.self, dest, p.node.term, p.node.epoch, body⟩) :
    Sat (send dest body) p (fun _ p' => p'.Sound ∧ p'.node = p.node) C := by
  simp only [send, sat_read, sat_emit]
  exact ⟨h.emit hm, trivial⟩

variable {dest : Uuid}

lemma sat_send_plain {body : MsgBody} (h : p.Sound) (hdest : dest.isNil = false)
    (hplain : body.plain) : Sat (send dest body) p (fun _ p' => p'.Sound ∧ p'.node = p.node) C :=
  sat_send_sound h (h.node.sound_plain hdest h.node.epoch hplain)

lemma Node.Regular.peers (h : n.Regular) {peer : Member × ℕ} (hp : peer ∈ n.peers) :
    peer.1.id.isNil = false := by
  have hmem := (mem_filter.mp hp).1
  exact h.members _ (fst_mem_of_mem_zipIdx hmem)

/-- Sending in a loop does not change the node. -/
lemma sat_forEach_sound {α : Type} {xs : List α} {f : α → M Unit} (h : p.Sound)
    (hf : ∀ x ∈ xs, ∀ q : Proc, q.Sound → q.node = p.node →
      Sat (f x) q (fun _ q' => q'.Sound ∧ q'.node = q.node) C) :
    Sat (forEach xs f) p (fun _ p' => p'.Sound ∧ p'.node = p.node) C := by
  refine Sat.forEach (I := fun q : Proc => q.Sound ∧ q.node = p.node) ⟨h, rfl⟩ fun x hx q hq => ?_
  exact (hf x hx q hq.1 hq.2).imp fun _ q' hq' => ⟨hq'.1, hq'.2.trans hq.2⟩

lemma sat_sendSnapshotTo {first : ℕ} (h : p.Sound) (hdest : dest.isNil = false) :
    Sat (sendSnapshotTo dest first) p (fun _ p' => p'.Sound ∧ p'.node = p.node) C := by
  simp only [sendSnapshotTo, sat_read, sat_ite, sat_pure]
  refine ⟨fun _ => ⟨fun _ => ?_, fun _ => ⟨fun _ => ⟨h, trivial⟩, fun hfirst => ⟨fun _ => ?_,
    fun _ => ?_⟩⟩⟩, fun hsize => ?_⟩
  · exact sat_send_sound h (h.node.sound_probe hdest)
  · exact sat_send_sound h (h.node.sound_probe hdest)
  · exact sat_send_sound h (h.node.sound_chunk hdest (by omega) (by omega))
  · exact sat_send_sound h (h.node.sound_snapshot hdest (not_lt.mp hsize))

lemma sat_sendAppendFrom {next : ℕ} (h : p.Sound) (hdest : dest.isNil = false) :
    Sat (sendAppendFrom dest next) p (fun _ p' => p'.Sound ∧ p'.node = p.node) C := by
  simp only [sendAppendFrom, sat_read, sat_ite]
  exact ⟨fun _ => sat_sendSnapshotTo h hdest,
    fun _ => sat_send_sound h (h.node.sound_append hdest)⟩

lemma sat_sendAppends (h : p.Sound) :
    Sat (forEach p.node.peers sendAppendTo) p (fun _ p' => p'.Sound ∧ p'.node = p.node) C := by
  refine sat_forEach_sound h fun peer hpeer q hq _ => ?_
  exact sat_sendAppendFrom hq (h.node.peers hpeer)

/-! ### Terms and elections -/

/-- What adopting a term leaves alone. -/
structure Node.Adopted (n n' : Node) : Prop extends Node.Intact n n' where
  cfg : n'.cfg = n.cfg
  ducks : n'.ducks = n.ducks
  role : n'.role = n.role ∨ n'.role = .follower

lemma Node.Regular.setTermEpoch (h : n.Regular) {t e : ℕ} (v : Option Uuid) (hterm : n.term ≤ t)
    (hepoch : n.epoch ≤ e) (hle : t ≤ e) : (n.setTermEpoch t e v).Regular :=
  ⟨h.named, h.members, h.ducks, hle, h.log.mono hterm, h.snap, h.snapTerm.trans hterm,
    h.snapEpoch.trans hepoch⟩

lemma Node.Regular.stepDown (h : n.Regular) : n.stepDown.Regular :=
  h.congr rfl rfl rfl ⟨rfl, rfl⟩ rfl rfl

section

variable (h : p.Sound)
include h

lemma sat_syncTermEpoch {term epoch : ℕ} {reset : Bool} :
    Sat (syncTermEpoch term epoch reset) p (fun b p' => p'.Sound ∧ p.node.Adopted p'.node ∧
        (b = true → p.node.term ≤ term → term ≤ p'.node.term ∧ epoch ≤ p'.node.epoch))
      Spoken := by
  have hrefl : p.node.Adopted p.node := ⟨.refl _, rfl, rfl, .inl rfl⟩
  simp only [syncTermEpoch, sat_bind, sat_ite, sat_pure, sat_modifyNode]
  refine ⟨fun hlt => ⟨h, hrefl, fun _ hle => absurd hlt (not_lt.mpr hle)⟩, fun _ =>
    ⟨fun heq => ⟨h, hrefl, fun _ _ => ?_⟩, fun _ => ?_⟩⟩
  · omega
  · have hnew := h.setNode (h.node.setTermEpoch (t := max term p.node.term)
      (e := max (max p.node.epoch epoch) (max term p.node.term))
      (if reset = true ∨ p.node.term < max term p.node.term then none else p.node.votedFor)
      (by omega) (by omega) (by omega))
    refine (sat_recordAppend_sound _ hnew).imp ?_
    rintro b q ⟨hq, hn⟩
    refine ⟨fun hb => ⟨fun _ => ⟨hq.setNode hq.node.stepDown, ?_⟩, fun _ => ⟨hq, ?_⟩⟩,
      fun _ => ⟨hq.setNode ?_, ?_⟩⟩
    · rw [hn]
      refine ⟨⟨⟨⟨rfl, rfl⟩, rfl, rfl⟩, rfl, rfl, .inr rfl⟩, fun _ _ => ?_⟩
      simp only [Node.stepDown, Node.setTermEpoch]
      omega
    · rw [hn]
      refine ⟨⟨⟨⟨rfl, rfl⟩, rfl, rfl⟩, rfl, rfl, .inl rfl⟩, fun _ _ => ?_⟩
      simp only [Node.setTermEpoch]
      omega
    · rw [hn]
      exact h.node.congr rfl rfl rfl ⟨rfl, rfl⟩ rfl rfl
    · rw [hn]
      exact ⟨⟨⟨⟨rfl, rfl⟩, rfl, rfl⟩, rfl, rfl, .inl rfl⟩, by rintro ⟨⟩⟩

lemma sat_persistVoteFor {u : Uuid} : Sat (persistVoteFor u) p
      (fun _ p' => p'.Sound ∧ ∃ v, p'.node = p.node.setVote v) Spoken := by
  simp only [persistVoteFor, sat_bind, sat_modifyNode, sat_ite, sat_pure]
  have hnew := h.touch (n := p.node.setVote (some u)) rfl
  refine (sat_recordAppend_sound _ hnew).imp ?_
  rintro b q ⟨hq, hn⟩
  refine ⟨fun _ => ⟨hq, _, hn⟩, fun _ => ?_⟩
  refine ⟨hq.touch rfl, p.node.votedFor, ?_⟩
  rw [hn]
  rfl

lemma sat_requestVotes {self : ℕ} : Sat (requestVotes self) p (fun _ => Sound) C := by
  have hrun := h.touch (n := p.node.runFor .candidate self) rfl
  refine (sat_forEach_sound hrun fun peer hpeer q hq _ => ?_).imp fun _ _ hq => hq.1
  exact sat_send_plain hq (hrun.node.peers hpeer) rfl

lemma sat_resetTimer : Sat (modifyNode Node.resetTimer) p (fun _ => Sound) C :=
  h.touch rfl

lemma sat_startElection : Speaks startElection p := by
  simp only [startElection, sat_bind, sat_getNode]
  cases p.node.selfIndex with
  | none => exact h
  | some =>
    simp only [sat_ite, sat_pure, sat_bind, sat_getNode]
    refine ⟨fun _ => h, fun _ => (sat_syncTermEpoch h).imp ?_⟩
    rintro b q ⟨hq, -⟩
    refine ⟨fun _ => ⟨fun _ => sat_requestVotes hq, fun _ => ?_⟩, fun _ => sat_resetTimer hq⟩
    refine (sat_persistVoteFor hq).imp ?_
    rintro b q' ⟨hq', -⟩
    exact ⟨fun _ => sat_requestVotes hq', fun _ => sat_resetTimer hq'⟩

end

/-- The pre-vote round starts with a term that the epoch covers. -/
def Node.prevoteFenced (n : Node) : Bool :=
  n.selfIndex.isNone || n.selfIsLearner || n.members.length = 1 || u64 (n.term + 1) ≤ n.epoch

lemma sat_startPrevote (h : p.Sound) (hfenced : p.node.prevoteFenced) : Speaks startPrevote p := by
  simp only [startPrevote, sat_read]
  simp only [Node.prevoteFenced, Bool.or_eq_true, decide_eq_true_eq] at hfenced
  cases hself : p.node.selfIndex with
  | none => exact h
  | some self =>
    simp only [hself, Option.isNone_some, Bool.false_eq_true, false_or] at hfenced
    simp only [sat_ite, sat_pure, sat_bind, sat_modifyNode]
    have hrun := h.touch (n := p.node.runFor .preCandidate self) rfl
    refine ⟨fun _ => h, fun hlearner => ⟨fun _ => sat_startElection hrun, fun hlen => ?_⟩⟩
    have hterm : u64 (p.node.term + 1) ≤ p.node.epoch :=
      (hfenced.resolve_left fun h => h.elim hlearner hlen)
    refine (sat_forEach_sound hrun fun peer hpeer q hq hn => ?_).imp fun _ _ hq => hq.1
    simp only [sendPreVote, sat_read, sat_emit]
    refine ⟨hq.emit (hq.node.sound_plain (hrun.node.peers hpeer) ?_ rfl), trivial⟩
    rw [hn]
    exact hterm

end

end Qihse.Consensus
