import Qihse.Consensus.Ballot

/-!
# Operations that cast no vote

Most of what a node does leaves its term, its fencing epoch and its vote alone, writes no vote line
and grants no vote. `Idles` says so of a program, whatever state it runs from, with one rule for
each way in which programs are put together.
-/

namespace Qihse.Consensus

open Crash Crash.Prog Replay

/-- The term and the epoch that a line announces. -/
def fenceOf : Line → Option (ℕ × ℕ)
  | .record (.vote t _ e) => some (t, e)
  | .record (.history _ e) => some (0, e)
  | _ => none

/-- What the vote lines and the history line of a file announce, in order. -/
def fences (ls : List Line) : List (ℕ × ℕ) := ls.filterMap fenceOf

@[simp]
lemma fences_append (xs ys : List Line) : fences (xs ++ ys) = fences xs ++ fences ys := by
  simp [fences]

lemma voteOf_of_fenceOf {l : Line} (h : fenceOf l = none) : voteOf l = none := by
  cases l with
  | torn => rfl
  | record r => cases r <;> first | rfl | simp [fenceOf] at h

lemma fenceOf_of_announces {r : Record} (h : announces r) : fenceOf (.record r) = none := by
  cases r <;> first | rfl | simp [announces] at h

/-- The message grants a vote. -/
def Msg.grants (m : Msg) : Bool := m.body = .voteReply true

/-! ### Programs -/

/-- Neither the file nor the transport has seen a vote. -/
structure Proc.Mute (p p' : Proc) : Prop where
  votes : votes p'.disk = votes p.disk
  fences : fences p'.disk = fences p.disk
  out : p'.out.filter Msg.grants = p.out.filter Msg.grants
  io : ∀ x ∈ p'.io, x ∈ p.io

/-- The fields of a node that a vote depends on. -/
structure Node.SameBallot (n n' : Node) : Prop where
  cfg : n'.cfg = n.cfg
  term : n'.term = n.term
  epoch : n'.epoch = n.epoch
  votedFor : n'.votedFor = n.votedFor

lemma Node.SameBallot.refl (n : Node) : n.SameBallot n := ⟨rfl, rfl, rfl, rfl⟩

/-- Nothing that concerns votes has happened. -/
structure Proc.Idle (p p' : Proc) : Prop extends Proc.Mute p p' where
  node : p.node.SameBallot p'.node

lemma Proc.Mute.trans {p q r : Proc} (h : p.Mute q) (h' : q.Mute r) : p.Mute r :=
  ⟨h'.votes.trans h.votes, h'.fences.trans h.fences, h'.out.trans h.out,
    fun x hx => h.io x (h'.io x hx)⟩

lemma Proc.Idle.refl (p : Proc) : p.Idle p := ⟨⟨rfl, rfl, rfl, fun _ => id⟩, .refl _⟩

lemma Proc.Idle.trans {p q r : Proc} (h : p.Idle q) (h' : q.Idle r) : p.Idle r :=
  ⟨h.toMute.trans h'.toMute, h'.node.cfg.trans h.node.cfg, h'.node.term.trans h.node.term,
    h'.node.epoch.trans h.node.epoch, h'.node.votedFor.trans h.node.votedFor⟩

/-- The program casts no vote. -/
def Idles {α : Type} (m : M α) : Prop := ∀ p, Sat m p (fun _ p' => p.Idle p') (fun p' => p.Mute p')

section

variable {α β : Type}

lemma Idles.pure (a : α) : Idles (pure a : M α) := fun p => .refl p

lemma Idles.bind {m : M α} {f : α → M β} (hm : Idles m) (hf : ∀ a, Idles (f a)) :
    Idles (m >>= f) := by
  intro p
  rw [sat_bind]
  refine (hm p).imp fun a q hq => ?_
  exact (hf a q).mono (fun _ _ hr => hq.trans hr) fun _ hr => hq.toMute.trans hr

lemma Idles.ite {c : Prop} [Decidable c] {m1 m2 : M α} (h1 : Idles m1) (h2 : Idles m2) :
    Idles (if c then m1 else m2) := by
  split_ifs
  · exact h1
  · exact h2

lemma Idles.forEach {xs : List α} {f : α → M Unit} (hf : ∀ x, Idles (f x)) :
    Idles (forEach xs f) := by
  induction xs with
  | nil => exact .pure ()
  | cons x xs ih => exact .bind (hf x) fun _ => ih

lemma Idles.getNode : Idles getNode := fun p => .refl p

lemma Idles.modifyNode {f : Node → Node} (hf : ∀ n : Node, n.SameBallot (f n)) :
    Idles (modifyNode f) :=
  fun p => ⟨⟨rfl, rfl, rfl, fun _ => id⟩, hf p.node⟩

lemma Idles.send {dest : Uuid} {body : MsgBody} (hbody : body ≠ .voteReply true) :
    Idles (send dest body) := by
  refine .bind .getNode fun cs p => ⟨⟨rfl, rfl, ?_, fun _ => id⟩, .refl _⟩
  simp [Msg.grants, hbody]

/-- Appending a line that is no vote. -/
lemma Idles.recordAppend {r : Record} (hr : fenceOf (.record r) = none) :
    Idles (recordAppend r) := by
  intro p
  have hv := voteOf_of_fenceOf hr
  have hlanded : ∀ l, votes (landed p.disk r l) = votes p.disk ∧
      fences (landed p.disk r l) = fences p.disk := by
    intro l
    rcases landed_cases p.disk r l with h | ⟨-, h | h⟩
    · simp [h]
    · simp [h, votes, fences, voteOf, fenceOf]
    · simp [h, votes, fences, hv, hr]
  have htail : ∀ x ∈ p.io.tail, x ∈ p.io := fun x => List.mem_of_mem_tail
  refine sat_recordAppend_cases (fun _ => .refl p) (fun _ _ _ _ => ?_) (fun _ _ => ?_)
    (fun l _ _ _ => ?_) fun l _ => ⟨(hlanded l).1, (hlanded l).2, rfl, htail⟩
  · exact ⟨⟨by simp [votes, hv], by simp [fences, hr], rfl, htail⟩, .refl _⟩
  · exact ⟨⟨rfl, rfl, rfl, htail⟩, .refl _⟩
  · exact ⟨⟨(hlanded l).1, (hlanded l).2, rfl, htail⟩, .refl _⟩

lemma Idles.recordAppend? {r : Option Record} (hr : ∀ x, r = some x → announces x) :
    Idles (recordAppend? r) := by
  cases r with
  | none => exact .pure false
  | some r => exact .recordAppend (fenceOf_of_announces (hr r rfl))

end

/-! ### Sending -/

lemma idles_sendSnapshotTo (dest : Uuid) (first : ℕ) : Idles (sendSnapshotTo dest first) := by
  refine .bind .getNode fun cs => .ite (.ite (.send (by simp)) (.ite (.pure ()) (.ite ?_ ?_))) ?_
  all_goals exact .send (by simp)

lemma idles_sendAppendFrom (dest : Uuid) (next : ℕ) : Idles (sendAppendFrom dest next) :=
  .bind .getNode fun _ => .ite (idles_sendSnapshotTo _ _) (.send (by simp))

lemma idles_sendAppendTo (peer : Member × ℕ) : Idles (sendAppendTo peer) :=
  .bind .getNode fun _ => idles_sendAppendFrom _ _

lemma idles_requestVotes (self : ℕ) : Idles (requestVotes self) := by
  refine .bind (.modifyNode fun _ => ⟨rfl, rfl, rfl, rfl⟩) fun _ => .bind .getNode fun cs => ?_
  exact .forEach fun _ => .send (by simp)

/-! ### Commitment and compaction -/

lemma idles_persistCommit (commit : ℕ) : Idles (persistCommit commit) := by
  refine .bind .getNode fun old => .bind (.modifyNode fun _ => ⟨rfl, rfl, rfl, rfl⟩) fun _ =>
    .bind (.recordAppend rfl) fun b => .ite (.pure true) ?_
  exact .bind (.modifyNode fun _ => ⟨rfl, rfl, rfl, rfl⟩) fun _ => .pure false

lemma idles_advanceCommit : Idles advanceCommit := by
  refine .bind .getNode fun cs => .ite (.pure ()) ?_
  cases cs.commitTarget with
  | none => exact .pure ()
  | some k => exact .ite (.bind (idles_persistCommit k) fun _ => .pure ()) (.pure ())

lemma idles_persistSnapshotEntries (es : List Entry) : Idles (persistSnapshotEntries es) := by
  induction es with
  | nil => exact .pure true
  | cons e es ih =>
    refine .bind (.recordAppend? fun r hr => ?_) fun b => .ite ih (.pure false)
    exact persistSnapshotEntry_announces hr

lemma idles_persistSnapshot (v2 : Bool) (s : Snapshot) : Idles (persistSnapshot v2 s) := by
  have hlines : Idles (persistSnapshotLines v2 s) :=
    .bind (.recordAppend rfl) fun _ => .ite (.bind (idles_persistSnapshotEntries _) fun _ =>
      .ite (.recordAppend rfl) (.pure false)) (.pure false)
  refine .bind hlines fun b => .ite (.pure true) ?_
  exact .bind (.modifyNode fun _ => ⟨rfl, rfl, rfl, rfl⟩) fun _ => .pure false

lemma idles_tryCompact : Idles tryCompact := by
  refine .bind .getNode fun cs => ?_
  cases cs.compaction with
  | none => exact .pure ()
  | some s =>
    refine .bind (idles_persistSnapshot _ s) fun b => .ite ?_ (.pure ())
    exact .modifyNode fun _ => ⟨rfl, rfl, rfl, rfl⟩

/-! ### Replication -/

lemma Node.sameBallot_recomputed (n : Node) : n.SameBallot n.recomputed :=
  ⟨n.refolded_recomputed.cfg, n.refolded_recomputed.term, n.refolded_recomputed.epoch,
    n.refolded_recomputed.votedFor⟩

lemma idles_recompute : Idles recompute := .modifyNode Node.sameBallot_recomputed

lemma Node.sameBallot_matchSelf (n : Node) : n.SameBallot n.matchSelf := by
  unfold matchSelf
  cases n.selfIndex with
  | none => exact .refl n
  | some => exact ⟨rfl, rfl, rfl, rfl⟩

lemma idles_logPush (e : Entry) : Idles (logPush e) := .modifyNode fun _ => ⟨rfl, rfl, rfl, rfl⟩

lemma idles_jointAppendOne (e : Entry) (index : ℕ) : Idles (jointAppendOne e index) := by
  refine .bind .getNode fun cs => .ite (.pure false) ?_
  refine .bind (.recordAppend? fun r hr => persistAny_announces hr) fun b => .ite ?_ (.pure false)
  exact .bind (idles_logPush _) fun _ => .bind idles_recompute fun _ => .pure true

lemma idles_jointEnsureClosed : Idles jointEnsureClosed := by
  refine .bind .getNode fun cs => .ite (.pure ()) ?_
  cases cs.foldAtCommit with
  | none => exact .pure ()
  | some =>
    refine .ite (.pure ()) (.bind (idles_jointAppendOne _ _) fun b => .ite ?_ (.pure ()))
    exact .bind (.modifyNode Node.sameBallot_matchSelf) fun _ => idles_advanceCommit

lemma idles_handleVoteReply (sender : Uuid) (granted : Bool) :
    Idles (handleVoteReply sender granted) := by
  refine .bind .getNode fun cs => .ite (.pure ()) ?_
  cases cs.memberIndex sender with
  | none => exact .pure ()
  | some =>
    refine .bind (.modifyNode fun _ => ⟨rfl, rfl, rfl, rfl⟩) fun _ => .bind .getNode fun cs =>
      .ite (.bind (.modifyNode fun n => ?_) fun _ => .bind idles_jointEnsureClosed fun _ =>
        .bind .getNode fun cs => .forEach idles_sendAppendTo) (.pure ())
    have hmatch := n.lead.sameBallot_matchSelf
    exact { hmatch with }

lemma idles_storeNew (e : Entry) (idx : ℕ) (touched : Bool) : Idles (storeNew e idx touched) := by
  refine .bind .getNode fun cs => .ite (.pure _) (.ite (.pure _) ?_)
  refine .bind (.recordAppend? fun r hr => persistAny_announces hr) fun b => .ite ?_ (.pure _)
  exact .bind (idles_logPush e) fun _ => .pure _

lemma idles_storeOne (e : Entry) (idx : ℕ) (touched : Bool) : Idles (storeOne e idx touched) := by
  refine .bind .getNode fun cs => ?_
  cases cs.entryAt idx with
  | none => exact idles_storeNew e idx touched
  | some =>
    refine .ite (.ite (.pure _) (.pure _)) (.ite (.pure _) (.bind (.recordAppend rfl) fun b =>
      .ite ?_ (.pure _)))
    exact .bind (.modifyNode fun _ => ⟨rfl, rfl, rfl, rfl⟩) fun _ => idles_storeNew e idx true

lemma idles_storeAll (es : List Entry) (prev : ℕ) (touched : Bool) :
    Idles (storeAll es prev touched) := by
  induction es generalizing prev touched with
  | nil => exact .pure _
  | cons e es ih =>
    refine .bind (idles_storeOne e _ touched) fun r => ?_
    cases r with
    | refused => exact .pure _
    | all b => exact ih (prev + 1) b

lemma idles_replyAppend (dest : Uuid) (success : Bool) (matchIndex : ℕ) :
    Idles (replyAppend dest success matchIndex) :=
  .send (by simp)

lemma idles_settleAppend (sender : Uuid) (leaderCommit verified : ℕ) :
    Idles (settleAppend sender leaderCommit verified) := by
  refine .bind .getNode fun cs => .ite (idles_replyAppend _ _ _) (.ite ?_ (idles_replyAppend _ _ _))
  exact .bind (idles_persistCommit _) fun b =>
    .ite (idles_replyAppend _ _ _) (idles_replyAppend _ _ _)

lemma idles_handleAppend (sender : Uuid) (prev prevTerm leaderCommit : ℕ) (es : List Entry) :
    Idles (handleAppend sender prev prevTerm leaderCommit es) := by
  have haccept : Idles (acceptAppend sender prev leaderCommit es) := by
    refine .bind (.modifyNode fun _ => ⟨rfl, rfl, rfl, rfl⟩) fun _ =>
      .bind (idles_storeAll es prev false) fun r => ?_
    match r with
    | .refused hint => exact idles_replyAppend _ _ _
    | .all false => exact idles_settleAppend _ _ _
    | .all true => exact .bind idles_recompute fun _ => idles_settleAppend _ _ _
  exact .bind .getNode fun cs => .ite (.pure ()) (.ite (.pure ()) (.ite (.pure ())
    (.ite (idles_replyAppend _ _ _) (.ite (idles_replyAppend _ _ _)
      (.ite (idles_replyAppend _ _ _) (.ite (idles_replyAppend _ _ _) haccept))))))

lemma idles_handleAppendReply (sender : Uuid) (success : Bool) (matchIndex : ℕ) :
    Idles (handleAppendReply sender success matchIndex) := by
  refine .bind .getNode fun cs => .ite (.pure ()) ?_
  cases cs.memberIndex sender with
  | none => exact .modifyNode fun _ => ⟨rfl, rfl, rfl, rfl⟩
  | some =>
    exact .ite (.bind (.modifyNode fun _ => ⟨rfl, rfl, rfl, rfl⟩) fun _ => idles_advanceCommit)
      (.modifyNode fun _ => ⟨rfl, rfl, rfl, rfl⟩)

lemma idles_replySnapshot (dest : Uuid) (success : Bool) (matchIndex : ℕ) :
    Idles (replySnapshot dest success matchIndex) :=
  .send (by simp)

lemma idles_handleSnapshot (sender : Uuid) (term fencingEpoch : ℕ) (s : SnapshotBody) :
    Idles (handleSnapshot sender term fencingEpoch s) := by
  have hfollow : Idles (modifyNode fun cs => cs.followLeader sender) :=
    .modifyNode fun _ => ⟨rfl, rfl, rfl, rfl⟩
  refine .bind .getNode fun cs => .ite (.pure ()) (.ite (idles_replySnapshot _ _ _) (.ite
    (.ite (.bind hfollow fun _ => idles_replySnapshot _ _ _) (idles_replySnapshot _ _ _)) ?_))
  refine .bind hfollow fun _ => .bind (idles_persistSnapshot _ _) fun b => .ite ?_
    (idles_replySnapshot _ _ _)
  exact .bind (.modifyNode fun _ => ⟨rfl, rfl, rfl, rfl⟩) fun _ =>
    .bind idles_recompute fun _ => idles_replySnapshot _ _ _

/-! ### Other answers and the heartbeat -/

lemma idles_handlePreVote (sender : Uuid) (term lastLogIndex lastLogTerm : ℕ) :
    Idles (handlePreVote sender term lastLogIndex lastLogTerm) :=
  .bind .getNode fun _ => .ite (.pure ()) (.ite (.send (by simp)) (.ite (.send (by simp))
    (.send (by simp))))

lemma idles_rejectStale (m : Msg) : Idles (rejectStale m) := by
  unfold rejectStale
  split
  · exact .send (by simp)
  · exact idles_replyAppend _ _ _
  · exact .send (by simp)
  · exact .pure ()

lemma idles_heartbeat : Idles heartbeat := by
  have hduck : ∀ d : LameDuck, Idles (offerDuck d) := by
    intro d
    refine .bind .getNode fun cs => .ite (.bind (idles_sendAppendFrom _ _) fun _ => .ite ?_
      (.pure ())) (.pure ())
    exact .modifyNode fun _ => ⟨rfl, rfl, rfl, rfl⟩
  refine .bind .getNode fun cs => .ite ?_ (.pure ())
  exact .bind (.modifyNode fun _ => ⟨rfl, rfl, rfl, rfl⟩) fun _ =>
    .bind (.forEach idles_sendAppendTo) fun _ => .forEach hduck

end Qihse.Consensus
