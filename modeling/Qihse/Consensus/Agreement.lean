import Qihse.Consensus.Sim.Run
import Qihse.Consensus.Snapless
import Qihse.Consensus.Votes

/-!
# Agreement in groups with a fixed member list

Groups with a fixed member list refine the replicated log protocol with weighted majorities of that
list. Log matching holds in every run. A follower commits up to its own last index, whatever part of
its log the append has compared, and an installed snapshot replaces the whole log of the receiver:
agreement on committed entries and the truth of acknowledgements hold in the runs in which neither
matters (`Node.CommitVerified`, `Node.TailFree`).
-/

namespace Qihse.Consensus

open Replay Replog Replog.History List Node Consensus.Cluster Design

/-! ### The design of a fixed group -/

/-- Weighted majorities of one member list decide. -/
def Design.fixed (base : List Member) (strict : Prop) : Design where
  quorum _ _ S := Majority Member.voteWeight base {m | m.id ∈ S}
  allowed _ _ _ _ := True
  allowed_mono _ h := h
  strict := strict

section

variable {base : List Member} {strict : Prop}

lemma Design.fixed_safe : Safe (fixed base strict).rules := by
  refine Intersecting.safe ?_
  intro L L' k k' S S' h h'
  obtain ⟨m, -, hm, hm'⟩ := Majority.inter h h'
  exact ⟨m.id, hm, hm'⟩

/-- A data entry is read back as it was written. -/
lemma canonical_of_data {e : Entry} (he : e.type = .data) : e.Canonical := by
  have hread : ∀ b e', entryOf (e.dataRecord b) = some e' → e' = e := by
    intro b e' h
    simp only [Entry.dataRecord, entryOf, dataEntry] at h
    split_ifs at h
    cases h
    rw [← he]
  rintro r e' (hr | hr) h
  · simp only [Entry.persistAny, he, Entry.persistEntry] at hr
    split_ifs at hr
    cases hr
    exact hread _ _ h
  · simp only [Entry.persistSnapshotEntry, he] at hr
    split_ifs at hr
    · exact absurd rfl ‹_›
    · cases hr
      exact hread _ _ h

variable {cfg : Uuid → Config} {σ : State Uuid Entry} {u : Uuid} {n0 n : Node} {inp : Input}

/-- What the nodes of a fixed group may do. -/
lemma Node.Plain.legal (hg : Group cfg base) (hn : n.Plain (cfg u) base)
    (hterm : n.term + 1 < 2 ^ 64) (hinp : inp.Plain)
    (hlead : n.role = .leader → σ.hist.leader n.term = some u)
    (hver : strict → ∀ m, inp = .msg m → n0.CommitVerified m)
    (htail : ∀ m, inp = .msg m → n0.TailFree m) (hthr : ¬ strict → n.cfg.snapshotThreshold = 0) :
    Legal (.fixed base strict) σ.hist u n0 inp n where
  self := hn.self.trans (hg.self u)
  indexed := hn.selfIndexed
  term := hterm
  wins S _ hwin hS := by
    have hmaj := majority_of_hasVoteMajority (S := {m | m.id ∈ S}) hwin hS
    rwa [hn.members] at hmaj
  commits k S _ hq hS := by
    simp only [ackQuorum, Bool.and_eq_true, decide_eq_true_eq] at hq
    have hmaj : Majority Member.voteWeight n.members {m | m.id ∈ S} :=
      le_trans hq.1 (n.markedWeight_le hS)
    rwa [hn.members] at hmaj
  appends e r hok _ := by
    refine ⟨?_, canonical_of_data (hok.plain hn hinp), trivial⟩
    cases hok with
    | data hrole | single _ _ _ _ _ hrole | close _ hrole => exact hlead hrole
    | joint _ _ _ _ _ hi =>
      subst hi
      exact hinp.elim
  verified := hver
  tailFree := htail
  uncompacted := hthr

end

/-! ### Groups as instances of the protocol -/

namespace Cluster

/-- The group is related to a state of the protocol that its runs reach. -/
def Refines (D : Design) (w : Cluster) : Prop := ∃ σ, Reachable D.rules σ ∧ Sim D w σ

variable {D : Design} {w : Cluster} {u : Uuid} {n0 : Node} {inp : Input} {c c' : Conf}
  {cfg : Uuid → Config} {base : List Member} {strict : Prop}

/-- Steps of the protocol that lead to a related state. -/
lemma Refines.of_steps {w' : Cluster} (h : w.Refines D)
    (hstep : ∀ σ, Inv D.rules σ → Sim D w σ → ∃ σ', Steps D.rules u σ σ' ∧ Sim D w' σ')
    (hsafe : Safe D.rules) : w'.Refines D := by
  obtain ⟨σ, hr, hs⟩ := h
  obtain ⟨σ', hsteps, hs'⟩ := hstep σ (hr.inv hsafe) hs
  exact ⟨σ', hr.steps hsteps, hs'⟩

lemma refines_init : init.Refines D := ⟨.init, .refl, .init⟩

lemma Refines.failed (h : w.Refines D) (b : Bool) : Refines D { w with failed := b } := by
  obtain ⟨σ, hr, hs⟩ := h
  exact ⟨σ, hr, hs.slot, hs.msgs⟩

lemma Refines.move (hg : Group cfg base) (hf : (w.put u c).Fixed cfg base)
    (h : (w.put u c).Refines (.fixed base strict)) (hinp : inp.Plain)
    (hin : ∀ m, inp = .msg m → m ∈ w.sent) (hver : strict → ∀ m, inp = .msg m → n0.CommitVerified m)
    (htail : ∀ m, inp = .msg m → n0.TailFree m)
    (hthr : ¬ strict → c.node.cfg.snapshotThreshold = 0) (hmove : Move False n0 inp c c') :
    (w.put u c').Refines (.fixed base strict) := by
  refine h.of_steps (u := u) (fun σ hi hs => ?_) fixed_safe
  have hplain := (hf.plain u).node (w.node_put_self u c)
  refine hs.move fixed_safe hi (hplain.legal hg ?_ hinp ?_ hver htail hthr) hin hmove
  · exact hf.toCapacity.term_lt (w.node_put_self u c)
  · intro hrole
    exact (hs.acting hi).ok.leading (by simp [Node.abs, hrole, Role.abs])

lemma Refines.halt {disk : List Line} (hsafe : Safe D.rules) (h : (w.put u c).Refines D)
    (hd : disk = c.disk ∨ disk = c.disk ++ [Line.torn]) : (w.halt u disk c.out).Refines D :=
  h.of_steps (fun _ hi hs => hs.halt hsafe hi hd) hsafe

lemma Refines.crash (hsafe : Safe D.rules) (h : w.Refines D) :
    (w.setSlot u ⟨none, (w.slots u).disk⟩).Refines D :=
  h.of_steps (fun _ hi hs => hs.crash hsafe hi) hsafe

lemma Refines.opened {p : Config} {s : Slot} (h : w.Refines D) (hdown : w.node u = none)
    (hs : Opened p (w.slots u).disk s) : (w.setSlot u s).Refines D := by
  obtain ⟨σ, hr, hsim⟩ := h
  exact ⟨σ, hr, hsim.opened hdown hs⟩

end Cluster

/-! ### Events -/

/-- No append to a record file reports an error during the event. -/
def Op.faultless (op : Op) : Bool :=
  op.io.all fun
    | .fail _ => false
    | _ => true

lemma Op.ioOk_of_faultless {op : Op} (h : op.faultless) : op.IoOk False := by
  intro l hl
  have := all_eq_true.mp h _ hl
  simp at this

/-- The receiver of a delivered message satisfies a condition about it. -/
def Op.Receives (C : Node → Msg → Prop) (w : Cluster) : Op → Prop
  | .deliver u k _ => ∀ m ∈ w.sent[k]?, ∀ n ∈ w.node u, C n m
  | _ => True

lemma Op.Receives.call {C : Node → Msg → Prop} {w : Cluster} {op : Op} {u : Uuid} {m : Msg}
    {n : Node} (h : op.Receives C w) (hcall : op.call w = some (u, .msg m))
    (hn : w.node u = some n) : C n m := by
  cases op with
  | deliver v k =>
    obtain ⟨m', hm, rfl, heq⟩ : ∃ m', w.sent[k]? = some m' ∧ v = u ∧ m' = m := by
      simpa [Op.call] using hcall
    subst heq
    exact h m' hm n hn
  | _ => simp [Op.call] at hcall

/-- Whether a batch offered after index `prev` has an entry of another term than the log. -/
def Node.contradicts (n : Node) (prev : ℕ) (es : List Entry) : Bool :=
  es.zipIdx.any fun p => (n.entryAt (prev + p.2 + 1)).any fun l => l.term ≠ p.1.term

lemma Node.contradicts_iff {n : Node} {prev : ℕ} {es : List Entry} : n.contradicts prev es ↔
    ∃ j e l, es[j]? = some e ∧ n.entryAt (prev + j + 1) = some l ∧ l.term ≠ e.term := by
  simp only [contradicts, any_eq_true, Prod.exists, mk_mem_zipIdx_iff_getElem?]
  constructor
  · rintro ⟨e, j, he, h⟩
    cases hl : n.entryAt (prev + j + 1) with
    | none =>
      rw [hl] at h
      cases h
    | some l =>
      rw [hl, Option.any_some, decide_eq_true_eq] at h
      exact ⟨j, e, l, he, hl, h⟩
  · rintro ⟨j, e, l, he, hl, hne⟩
    refine ⟨e, j, he, ?_⟩
    rw [hl, Option.any_some, decide_eq_true_eq]
    exact hne

/-- `Node.CommitVerified`, computed. -/
def Node.commitVerified (n : Node) (m : Msg) : Bool :=
  match m.body with
  | .append prev _ leaderCommit es =>
    n.Drops m || min leaderCommit n.absLastIndex ≤ max n.commit (prev + es.length) ||
      n.contradicts prev es
  | _ => true

instance (n : Node) (m : Msg) : Decidable (n.CommitVerified m) :=
  decidable_of_iff (n.commitVerified m) (by
    unfold Node.commitVerified Node.CommitVerified
    cases m.body <;>
      simp only [Bool.or_eq_true, decide_eq_true_eq, Node.contradicts_iff, or_assoc])

/-- `Node.TailFree`, computed. -/
def Node.tailFree (n : Node) (m : Msg) : Bool :=
  match m.body with
  | .snapshot s => s.lastIncludedIndex ≤ n.commit || n.absLastIndex ≤ s.lastIncludedIndex ||
      n.termAt s.lastIncludedIndex ≠ s.lastIncludedTerm
  | _ => true

instance (n : Node) (m : Msg) : Decidable (n.TailFree m) :=
  decidable_of_iff (n.tailFree m) (by
    unfold Node.tailFree Node.TailFree
    cases m.body <;> simp only [Bool.or_eq_true, decide_eq_true_eq, or_assoc])

instance (C : Node → Msg → Prop) [∀ n m, Decidable (C n m)] (w : Cluster) (op : Op) :
    Decidable (op.Receives C w) :=
  match op with
  | .deliver u k _ => inferInstanceAs (Decidable (∀ m ∈ w.sent[k]?, ∀ n ∈ w.node u, C n m))
  | .openNode _ _ | .crash _ | .copyRecord _ _ | .tick _ _ _ | .propose _ _ _ _ _ _ _ _ _
  | .proposeMembership _ _ _ _ _ | .proposeMembershipRole _ _ _ _ _ _ _
  | .proposeJoint _ _ _ _ _ => .isTrue trivial

instance decidableMeets (cfg : Uuid → Config) (ok : Cluster → Op → Prop)
    [∀ w op, Decidable (ok w op)] : ∀ w ops, Decidable (Meets cfg ok w ops)
  | _, [] => .isTrue trivial
  | w, op :: ops =>
    have := decidableMeets cfg ok (w.step cfg op) ops
    inferInstanceAs (Decidable (ok w op ∧ Meets cfg ok (w.step cfg op) ops))

/-! ### Runs -/

namespace Cluster

variable {cfg : Uuid → Config} {base : List Member}

/-- A fixed group without compaction refines the protocol; under `strict`, if its members take over
verified commit indices only. -/
theorem snapless_invariant (hg : Group cfg base) (hthr : ∀ u, (cfg u).snapshotThreshold = 0)
    (strict : Prop) : Invariant False cfg
      (fun w op => op.static ∧ op.faultless ∧ (strict → op.Receives Node.CommitVerified w))
      (fun _ n inp => inp.Plain ∧ (strict → ∀ m, inp = .msg m → n.CommitVerified m))
      fun w => w.Fixed cfg base ∧ w.Snapless ∧ w.Refines (.fixed base strict) where
  failed := fun b ⟨hf, hsn, hr⟩ =>
    ⟨⟨⟨hf.slot, hf.sent⟩, hf.plain, hf.data⟩, ⟨hsn.slot, hsn.sent⟩, hr.failed b⟩
  ready := fun ⟨hf, _, _⟩ ⟨hstatic, hio, hver⟩ hcall hn => by
    obtain ⟨hdisk, hself, hfold, hplain⟩ := hf.ready hstatic hcall hn
    refine ⟨hdisk, Op.ioOk_of_faultless hio, hself, hfold, hplain, fun hst m hm => ?_⟩
    exact (hver hst).call (hm ▸ hcall) hn
  move := fun {w u n0 inp c c'} ⟨hf, hsn, hr⟩ ⟨hinp, hver⟩ hin hmove => by
    have hslim := (hsn.slot u).node (w.node_put_self u c)
    refine ⟨hf.move hg hinp hin hmove, hsn.move (hf.toCapacity.term_lt (w.node_put_self u c)) hin
      hmove, hr.move hg hf hinp hin hver (fun m hm => ?_) (fun _ => hslim.threshold) hmove⟩
    have hempty := hsn.sent m (by simp [hin m hm])
    unfold Node.TailFree
    split
    · exact .inl (by rw [hempty _ ‹_›]; exact Nat.zero_le _)
    · trivial
  halt := fun ⟨hf, hsn, hr⟩ hdisk => ⟨hf.halt hdisk, hsn.halt hdisk, hr.halt fixed_safe hdisk⟩
  crash := fun ⟨hf, hsn, hr⟩ => ⟨hf.crash _, hsn.crash _, hr.crash fixed_safe⟩
  opened := fun {_ u _ _} ⟨hf, hsn, hr⟩ _ hdown hs =>
    ⟨hf.opened hg hs, hsn.opened (hthr u) hs, hr.opened hdown hs⟩
  copied := fun _ hop => by cases hop.1

/-- A fixed group refines the protocol if its members take over verified commit indices only and
install no snapshot that costs them entries. -/
theorem fixed_invariant (hg : Group cfg base) : Invariant False cfg
      (fun w op => op.static ∧ op.faultless ∧
        op.Receives (fun n m => n.CommitVerified m ∧ n.TailFree m) w)
      (fun _ n inp => inp.Plain ∧ ∀ m, inp = .msg m → n.CommitVerified m ∧ n.TailFree m)
      fun w => w.Fixed cfg base ∧ w.Refines (.fixed base True) where
  failed := fun b ⟨hf, hr⟩ => ⟨⟨⟨hf.slot, hf.sent⟩, hf.plain, hf.data⟩, hr.failed b⟩
  ready := fun ⟨hf, _⟩ ⟨hstatic, hio, hok⟩ hcall hn => by
    obtain ⟨hdisk, hself, hfold, hplain⟩ := hf.ready hstatic hcall hn
    exact ⟨hdisk, Op.ioOk_of_faultless hio, hself, hfold, hplain,
      fun m hm => hok.call (hm ▸ hcall) hn⟩
  move := fun ⟨hf, hr⟩ ⟨hinp, hok⟩ hin hmove =>
    ⟨hf.move hg hinp hin hmove, hr.move hg hf hinp hin (fun _ m hm => (hok m hm).1)
      (fun m hm => (hok m hm).2) (fun h => absurd trivial h) hmove⟩
  halt := fun ⟨hf, hr⟩ hdisk => ⟨hf.halt hdisk, hr.halt fixed_safe hdisk⟩
  crash := fun ⟨hf, hr⟩ => ⟨hf.crash _, hr.crash fixed_safe⟩
  opened := fun ⟨hf, hr⟩ _ hdown hs => ⟨hf.opened hg hs, hr.opened hdown hs⟩
  copied := fun _ hop => by cases hop.1

lemma meets_and {ok ok' : Cluster → Op → Prop} {w : Cluster} {ops : List Op} {P : Op → Prop}
    (hP : ∀ op ∈ ops, P op) (h : Meets cfg ok w ops)
    (himp : ∀ w op, P op → ok w op → ok' w op) : Meets cfg ok' w ops := by
  induction ops generalizing w with
  | nil => exact trivial
  | cons op ops ih =>
    exact ⟨himp w op (hP op (by simp)) h.1, ih (fun x hx => hP x (by simp [hx])) h.2⟩

lemma entryAt_of_take {x y : Node} {i j : ℕ} (h : x.entries.take i = y.entries.take i)
    (hj : j ≤ i) : x.entryAt j = y.entryAt j := by
  cases j with
  | zero => simp
  | succ j =>
    simpa [entryAt_succ, getElem?_take, Nat.lt_of_succ_le hj] using congrArg (·[j]?) h

/-- Log matching. -/
theorem log_matching (hg : Group cfg base) (hthr : ∀ u, (cfg u).snapshotThreshold = 0)
    (ops : List Op) (hops : ∀ op ∈ ops, op.static ∧ op.faultless) (a b : Uuid) (x y : Node)
    (hx : (init.run cfg ops).node a = some x) (hy : (init.run cfg ops).node b = some y) (i : ℕ)
    (e f : Entry) (he : x.entryAt i = some e) (hf : y.entryAt i = some f)
    (hterm : e.term = f.term) : e = f ∧ ∀ j < i, x.entryAt j = y.entryAt j := by
  have hmeets : Meets cfg (fun w op => op.static ∧ op.faultless ∧
      (False → op.Receives Node.CommitVerified w)) init ops :=
    meets_and hops (meets_of_forall cfg hops _) fun _ _ h _ => ⟨h.1, h.2, False.elim⟩
  obtain ⟨-, -, σ, hr, hs⟩ := (snapless_invariant hg hthr False).run
    ⟨fixed_init, snapless_init, refines_init⟩ hmeets
  have hi := hr.inv fixed_safe
  cases i with
  | zero => simp at he
  | succ k =>
    have hxe := entryAt_succ x k ▸ he
    have hyf := entryAt_succ y k ▸ hf
    obtain ⟨hkx, rfl⟩ := List.getElem?_eq_some_iff.mp hxe
    obtain ⟨hky, rfl⟩ := List.getElem?_eq_some_iff.mp hyf
    have hxa := (hs.nodes hx).abs
    have hyb := (hs.nodes hy).abs
    have hpre : x.entries.take (k + 1) = y.entries.take (k + 1) := by
      have hmatch := hi.matching a b (k := k) (by rw [hxa]; exact hkx) (by rw [hyb]; exact hky)
      simp only [hxa, hyb] at hmatch
      exact hmatch hterm
    refine ⟨?_, fun j hj => entryAt_of_take hpre hj.le⟩
    have := entryAt_of_take hpre le_rfl
    rwa [he, hf, Option.some.injEq] at this

/-- Agreement on committed entries, when followers take over verified commit indices only. -/
theorem commit_agreement (hg : Group cfg base) (hthr : ∀ u, (cfg u).snapshotThreshold = 0)
    (ops : List Op) (hops : ∀ op ∈ ops, op.static ∧ op.faultless)
    (hver : Meets cfg (fun w op => op.Receives Node.CommitVerified w) init ops) (a b : Uuid)
    (x y : Node) (hx : (init.run cfg ops).node a = some x)
    (hy : (init.run cfg ops).node b = some y) (i : ℕ) (hpos : 1 ≤ i) (hix : i ≤ x.commit)
    (hiy : i ≤ y.commit) : ∃ e, x.entryAt i = some e ∧ y.entryAt i = some e := by
  have hmeets : Meets cfg (fun w op => op.static ∧ op.faultless ∧
      (True → op.Receives Node.CommitVerified w)) init ops :=
    meets_and hops hver fun _ _ h hv => ⟨h.1, h.2, fun _ => hv⟩
  obtain ⟨-, -, σ, hr, hs⟩ := (snapless_invariant hg hthr True).run
    ⟨fixed_init, snapless_init, refines_init⟩ hmeets
  have hi := hr.inv fixed_safe
  have hxa := (hs.nodes hx).abs
  have hyb := (hs.nodes hy).abs
  have hpre : x.entries.take i = y.entries.take i := by
    have hagree := hi.agreement trivial fixed_safe a b (k := i) (by rw [hxa]; exact hix)
      (by rw [hyb]; exact hiy)
    rwa [hxa, hyb] at hagree
  have hlen : i ≤ x.entries.length := by
    have hle := (hi.node a).commit_le trivial
    rw [hxa] at hle
    exact le_trans hix hle
  obtain ⟨k, rfl⟩ : ∃ k, i = k + 1 := ⟨i - 1, by omega⟩
  rw [← entryAt_of_take hpre le_rfl, entryAt_succ, getElem?_eq_getElem hlen]
  exact ⟨_, rfl, rfl⟩

/-- An acknowledged entry stays where it is while the member stays in the term, when followers take
over verified commit indices only and install no snapshot that costs them entries. -/
theorem acknowledged_held (hg : Group cfg base) (ops : List Op)
    (hops : ∀ op ∈ ops, op.static ∧ op.faultless)
    (hok : Meets cfg (fun w op => op.Receives (fun n m => n.CommitVerified m ∧ n.TailFree m) w)
      init ops)
    (l p : Uuid) (x y : Node) (hx : (init.run cfg ops).node l = some x) (hlead : x.role = .leader)
    (hy : (init.run cfg ops).node p = some y) (k : ℕ) (m : Member) (hm : x.members[k]? = some m)
    (hid : m.id = p) (hterm : y.term = x.term) (i : ℕ) (hpos : 1 ≤ i)
    (hi : i ≤ x.matchIndex.getD k 0) : ∃ e, x.entryAt i = some e ∧ y.entryAt i = some e := by
  have hmeets : Meets cfg (fun w op => op.static ∧ op.faultless ∧
      op.Receives (fun n m => n.CommitVerified m ∧ n.TailFree m) w) init ops :=
    meets_and hops hok fun _ _ h hv => ⟨h.1, h.2, hv⟩
  obtain ⟨-, σ, hr, hs⟩ := (fixed_invariant hg).run ⟨fixed_init, refines_init⟩ hmeets
  have hinv := hr.inv fixed_safe
  have hxl := (hs.nodes hx).abs
  have hyp := (hs.nodes hy).abs
  obtain ⟨j, rfl⟩ : ∃ j, i = j + 1 := ⟨i - 1, by omega⟩
  simp only [entryAt_succ]
  rcases (hs.nodes hx).acked hlead k m hm with ⟨hself, hle⟩ | hacks
  · -- the leader's own slot
    have hxy : x = y := by
      rw [← hid, hself, hx] at hy
      exact Option.some.inj hy
    have hlt : j < x.entries.length := by
      rw [entries_length]
      omega
    rw [← hxy, getElem?_eq_getElem hlt]
    exact ⟨_, rfl, rfl⟩
  · have hack := hacks (j + 1) hpos hi
    rw [hid] at hack
    have hlog : x.entries = σ.hist.tlog x.term := by
      have hok := hinv.node l
      rw [hxl] at hok
      exact hok.tlog_eq (hok.leading (by simp [Node.abs, hlead, Role.abs]))
    have hheld : (σ.hist.tlog x.term).take (j + 1) <+: y.entries := by
      have hyterm : (σ.nodes p).term = x.term := by rw [hyp]; exact hterm
      have hkept := hinv.acknowledged (n := p) (k := j + 1) (by rwa [hyterm])
      rwa [hyterm, hyp] at hkept
    have hlen : j < x.entries.length := by
      rw [hlog]
      exact hinv.sound.ack_le hack
    rw [← hlog] at hheld
    refine ⟨x.entries[j], getElem?_eq_getElem hlen, ?_⟩
    rw [prefix_iff_getElem?.mp hheld j (by rw [length_take]; omega), getElem_take]

end Cluster

/-! ### Sample runs -/

namespace Sample

def everyone : User := ⟨true, fun _ _ => true⟩

/-- Node `k` is asked to append the entry of generation `g`. -/
def proposes (k : UInt8) (g : UInt64) : Op :=
  .propose (peer k) everyone g 1 0 0 0 [UInt8.ofNat g.toNat] []

/-- What nodes `k` and `l` have at the end of a run. -/
lemma exists_nodes (cfg : Uuid → Config) (ops : List Op) (k l : UInt8) (P : Node → Node → Prop)
    [∀ x y, Decidable (P x y)] (h : ((init.run cfg ops).node (peer k)).any (fun x =>
      ((init.run cfg ops).node (peer l)).any fun y => P x y) = true) :
    ∃ x y, (init.run cfg ops).node (peer k) = some x ∧ (init.run cfg ops).node (peer l) = some y ∧
      P x y := by
  obtain ⟨x, hx, h⟩ := (Option.any_eq_true _ _).mp h
  obtain ⟨y, hy, h⟩ := (Option.any_eq_true _ _).mp h
  exact ⟨x, y, hx, hy, of_decide_eq_true h⟩

lemma group (base : List Member) (snapshotThreshold : ℕ) :
    Group (config base snapshotThreshold) base :=
  ⟨fun _ => rfl, fun _ => rfl⟩

/-- Node 1 leads and replicates two entries to node 2, which commits them. -/
def replicated : List Op :=
  election ++ [proposes 1 1, proposes 1 2, ticks 1 2000, gets 2 5, gets 1 7, ticks 1 3000, gets 2 8]

/-- The entry of generation `g` that node 1 appended in term 1. -/
def stored (g : UInt64) : Entry :=
  ⟨g.toNat, 1, g.toNat, ⟨1, 0⟩, 0, 0, .data, [UInt8.ofNat g.toNat]⟩

theorem log_matching_replicated : ∃ x y,
    (init.run (config trio 0) replicated).node (peer 1) = some x ∧
      (init.run (config trio 0) replicated).node (peer 2) = some y ∧
        x.entryAt 2 = some (stored 2) ∧ ∀ j < 2, x.entryAt j = y.entryAt j := by
  obtain ⟨x, y, hx, hy, hx2, hy2⟩ := exists_nodes (config trio 0) replicated 1 2
    (fun x y => x.entryAt 2 = some (stored 2) ∧ y.entryAt 2 = some (stored 2)) (by decide +kernel)
  exact ⟨x, y, hx, hy, hx2, (log_matching (group trio 0) (fun _ => rfl) replicated (by decide) _ _
    x y hx hy 2 _ _ hx2 hy2 rfl).2⟩

theorem commit_agreement_replicated : ∃ x y e,
    (init.run (config trio 0) replicated).node (peer 1) = some x ∧
      (init.run (config trio 0) replicated).node (peer 2) = some y ∧
        2 ≤ x.commit ∧ 2 ≤ y.commit ∧ x.entryAt 2 = some e ∧ y.entryAt 2 = some e := by
  have hver : Meets (config trio 0) (fun w op => op.Receives Node.CommitVerified w) .init
      replicated := by decide +kernel
  obtain ⟨x, y, hx, hy, hcx, hcy⟩ := exists_nodes (config trio 0) replicated 1 2
    (fun x y => 2 ≤ x.commit ∧ 2 ≤ y.commit) (by decide +kernel)
  obtain ⟨e, hex, hey⟩ := commit_agreement (group trio 0) (fun _ => rfl) replicated
    (by decide) hver _ _ x y hx hy 2 (by decide) hcx hcy
  exact ⟨x, y, e, hx, hy, hcx, hcy, hex, hey⟩

theorem acknowledged_held_replicated : ∃ x y e,
    (init.run (config trio 1) replicated).node (peer 1) = some x ∧
      (init.run (config trio 1) replicated).node (peer 2) = some y ∧
        2 ≤ x.matchIndex.getD 1 0 ∧ x.entryAt 2 = some e ∧ y.entryAt 2 = some e := by
  have hok : Meets (config trio 1) (fun w op =>
      op.Receives (fun n m => n.CommitVerified m ∧ n.TailFree m) w) .init replicated := by
    decide +kernel
  obtain ⟨x, y, hx, hy, hlead, hmember, hterm, hmatch⟩ :=
    exists_nodes (config trio 1) replicated 1 2 (fun x y => x.role = .leader ∧
      x.members[1]? = some (voter 2) ∧ y.term = x.term ∧ 2 ≤ x.matchIndex.getD 1 0)
      (by decide +kernel)
  obtain ⟨e, hex, hey⟩ := acknowledged_held (group trio 1) replicated (by decide) hok _ _
    x y hx hlead hy 1 (voter 2) hmember rfl hterm 2 (by decide) hmatch
  exact ⟨x, y, e, hx, hy, hmatch, hex, hey⟩

/-- Node 1 holds entry 9 of term 1 when the leader of term 3, whose entry 9 is of term 2, offers it
the first eight entries with commit index 10. -/
def skewed : List Op :=
  election ++ (List.range 8).map (fun i => proposes 1 (UInt64.ofNat (i + 1))) ++
    [ticks 1 2000, gets 2 5, gets 3 6, proposes 1 9, ticks 2 3000, gets 3 10, gets 2 11,
      proposes 2 19, .crash (peer 2), opens 2, ticks 2 4000, gets 3 15, gets 2 16, gets 1 17,
      gets 3 18] ++
    List.replicate 9 (gets 2 19) ++
    [gets 2 20, proposes 2 20, ticks 2 5000, gets 3 22, gets 2 23, ticks 2 6000, gets 1 24]

theorem commit_disagreement : (∀ op ∈ skewed, op.static ∧ op.faultless) ∧ ∃ x y,
    (init.run (config trio 0) skewed).node (peer 1) = some x ∧
      (init.run (config trio 0) skewed).node (peer 2) = some y ∧
        9 ≤ x.commit ∧ 9 ≤ y.commit ∧ x.entryAt 9 ≠ y.entryAt 9 := by
  obtain ⟨x, y, hx, hy, hcx, hcy, hterm⟩ := exists_nodes (config trio 0) skewed 1 2
    (fun x y => 9 ≤ x.commit ∧ 9 ≤ y.commit ∧ x.termAt 9 ≠ y.termAt 9) (by decide +kernel)
  exact ⟨by decide, x, y, hx, hy, hcx, hcy, fun h => hterm (congrArg (·.elim 0 (·.term)) h)⟩

/-- Node 3 acknowledges three entries, and installs the snapshot of the first two afterwards. -/
def raced : List Op :=
  election ++ [proposes 1 1, proposes 1 2, ticks 1 2000, gets 2 5, proposes 1 3, ticks 1 3000,
    gets 3 9, gets 1 7, ticks 1 4000, gets 1 10, gets 3 12]

theorem acknowledged_lost : (∀ op ∈ raced, op.static ∧ op.faultless) ∧ ∃ x y,
    (init.run (config trio 1) raced).node (peer 1) = some x ∧
      (init.run (config trio 1) raced).node (peer 3) = some y ∧
        x.role = .leader ∧ x.members[2]? = some (voter 3) ∧ 3 ≤ x.matchIndex.getD 2 0 ∧
          y.term = x.term ∧ (x.entryAt 3).isSome ∧ y.entryAt 3 = none := by
  exact ⟨by decide, exists_nodes (config trio 1) raced 1 3 _ (by decide +kernel)⟩

end Sample

end Qihse.Consensus
