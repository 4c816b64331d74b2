import Qihse.Consensus.Action

/-!
# Operations are sequences of actions: rules

`Good` says that a running operation has taken actions only, and `Dead` the same of one that
crashed. The lemmas here are the rules for the steps that all operations are made of.
-/

namespace Qihse.Consensus

open Crash Crash.Prog Line

variable {F : Prop} {n0 : Node} {inp : Input} {c0 c c' : Conf} {p p' : Proc}

/-- Timers, hints and lame ducks may change. -/
lemma Quiet.keep (n : Node) {ld ds now contact beat next ready} : Quiet n { n with
    leader := ld, ducks := ds, nowMs := now, lastLeaderContactMs := contact,
    lastHeartbeatMs := beat, nextIndex := next, snapshotPeerReady := ready } :=
  ⟨rfl, rfl, rfl, rfl, rfl, rfl, rfl, rfl, rfl, rfl, .inl rfl, fun _ => rfl,
    fun _ _ => .inl rfl⟩

section

variable {α : Type} {x : α} {xs rest : List α} {k : ℕ} (h : xs.drop k = x :: rest)
include h

lemma getElem?_of_drop :
    xs[k]? = some x := by
  have h0 := congrArg (·[0]?) h
  simpa using h0

lemma drop_succ_of_drop :
    xs.drop (k + 1) = rest := by
  rw [← List.drop_drop, h]
  rfl

end

variable {n' : Node}

lemma Addressed.congr {n : Node} {m : Msg} (h : Addressed inp n m) (hcfg : n'.cfg = n.cfg)
    (hterm : n'.term = n.term) (hepoch : n'.epoch = n.epoch) : Addressed inp n' m :=
  ⟨h.input, hcfg ▸ h.dest, hterm ▸ h.term, hepoch ▸ h.epoch, hcfg ▸ h.sender⟩

/-! ### Programs -/

/-- Appends fail only if that is allowed. -/
def IoOk (F : Prop) (p : Proc) : Prop := ∀ l, Io.fail l ∈ p.io → F

/-- The running operation has taken actions only. -/
structure Good (F : Prop) (n0 : Node) (inp : Input) (c0 : Conf) (p : Proc) : Prop where
  acts : Acts F n0 inp c0 p.conf
  io : IoOk F p

/-- The crashed operation had taken actions only. -/
def Dead (F : Prop) (n0 : Node) (inp : Input) (c0 : Conf) (p : Proc) : Prop :=
  Crashed F n0 inp c0 p.disk p.out

/-- A program that takes actions only, also where it crashes. -/
abbrev Traced (F : Prop) (n0 : Node) (inp : Input) (c0 : Conf) {α : Type} (m : M α) (p : Proc) :
    Prop :=
  Sat m p (fun _ => Good F n0 inp c0) (Dead F n0 inp c0)

/-- The file sizes a sequence of actions may go through. -/
def Fits (d d' : List Line) : Prop := fileSize d ≤ fileSizeMax → fileSize d' ≤ fileSizeMax

variable {C : Proc → Prop}

@[simp]
lemma sat_getNode {Q : Node → Proc → Prop} : Sat getNode p Q C ↔ Q p.node p := Iff.rfl

lemma sat_read {α : Type} (f : Node → M α) {Q : α → Proc → Prop} :
    Sat (getNode >>= f) p Q C ↔ Sat (f p.node) p Q C := Iff.rfl

variable {Q : Unit → Proc → Prop}

@[simp]
lemma sat_modifyNode {f : Node → Node} :
    Sat (modifyNode f) p Q C ↔ Q () { p with node := f p.node } := Iff.rfl

@[simp]
lemma sat_emit {m : Msg} : Sat (emit m) p Q C ↔ Q () { p with out := p.out ++ [m] } := Iff.rfl

lemma sat_recompute : Sat recompute p Q C ↔ Q () { p with node := p.node.recomputed } := Iff.rfl

lemma fits_refl (d : List Line) : Fits d d := id

lemma fileSize_record (d : List Line) (r : Record) :
    fileSize (d ++ [record r]) = fileSize d + r.lineLength := by
  simp [fileSize]

lemma fileSize_torn (d : List Line) : fileSize (d ++ [torn]) = fileSize d := by
  simp [fileSize]

section

variable (hp : Good F n0 inp c0 p)
include hp

lemma Good.step (hact : Act F n0 inp p.conf p'.conf) (hfit : Fits p.disk p'.disk)
    (hq : p'.disk = p.disk ∨ p.node.recQuarantined = false ∨ 2 ^ 64 ≤ p.node.term + 1)
    (hio : IoOk F p') : Good F n0 inp c0 p' :=
  ⟨hp.acts.tail ⟨hact, hfit, hq⟩, hio⟩

/-- An action that leaves the file alone. -/
lemma Good.node (hact : Act F n0 inp p.conf { p.conf with node := n' }) :
    Good F n0 inp c0 { p with node := n' } :=
  hp.step hact (fits_refl _) (.inl rfl) hp.io

lemma Good.quiet (hq : Quiet p.node n') : Good F n0 inp c0 { p with node := n' } :=
  hp.node (.quiet p.conf n' hq)

lemma Good.followLeader (u : Uuid) : Good F n0 inp c0 { p with node := p.node.followLeader u } :=
  hp.quiet ⟨rfl, rfl, rfl, rfl, rfl, rfl, rfl, rfl, rfl, rfl, .inr (.inl rfl), nofun, nofun⟩

end

/-- The outcome of an append: it succeeded and fits, or it left something behind and failed or
crashed. A quarantined file is left alone. -/
lemma sat_recordAppend {r : Record} {Q : Bool → Proc → Prop} {C : Proc → Prop} (hio : IoOk F p)
    (hok : ∀ p', p'.node = p.node → p'.disk = p.disk ++ [record r] → p'.out = p.out →
      IoOk F p' → fileSize p'.disk ≤ fileSizeMax → p.node.recQuarantined = false → Q true p')
    (hfail : ∀ p' l, p'.node = p.node → p'.disk = landed p.disk r l → p'.out = p.out →
      IoOk F p' → (l = .nothing ∨ F ∧ p.node.recQuarantined = false) → Q false p')
    (hcrash : ∀ p' l, p'.disk = landed p.disk r l → p'.out = p.out →
      p.node.recQuarantined = false → C p') : Sat (recordAppend r) p Q C := by
  have htail : ∀ {q : Proc}, q.io = p.io.tail → IoOk F q := by
    intro q hq l hl
    rw [hq] at hl
    exact hio l (List.mem_of_mem_tail hl)
  refine sat_recordAppend_cases (fun _ => ?_) (fun _ hq _ hfit => ?_) (fun _ _ => ?_)
    (fun l hl _ hq => ?_) fun l hq => hcrash _ l rfl rfl hq
  · exact hfail p .nothing rfl rfl rfl hio (.inl rfl)
  · exact hok _ rfl rfl rfl (htail rfl) (by rw [fileSize_record]; exact hfit) hq
  · exact hfail _ .nothing rfl rfl rfl (htail rfl) (.inl rfl)
  · exact hfail _ l rfl rfl rfl (htail rfl) (.inr ⟨hio l (fail_mem_io hl), hq⟩)

lemma fits_landed (d : List Line) (r : Record) (l : Landing) : Fits d (landed d r l) := by
  intro hd
  cases l with
  | nothing => exact hd
  | torn => rw [landed, fileSize_torn]; exact hd
  | whole =>
    rw [landed]
    split_ifs with hfit
    · rw [fileSize_record]; exact hfit
    · exact hd

section

variable (hp : Good F n0 inp c0 p)
include hp

/-- Whatever a failed append left behind, the node may go on. -/
lemma Good.failed {r : Record} {l : Landing} (hatt : Attempt n0 inp p.node r)
    (hl : l = .nothing ∨ F ∧ p.node.recQuarantined = false)
    (hconf : p'.conf = { p.conf with disk := landed p.disk r l })
    (hio : IoOk F p') : Good F n0 inp c0 p' := by
  have hdisk : p'.disk = landed p.disk r l := congrArg Conf.disk hconf
  cases l with
  | nothing => exact ⟨by rw [hconf]; exact hp.acts, hio⟩
  | torn =>
    have hl := hl.resolve_left nofun
    refine hp.step ?_ (by rw [hdisk]; exact fits_landed _ _ _) (.inr (.inl hl.2)) hio
    rw [hconf]
    exact .lost p.conf .torn hl.1 (.inl rfl)
  | whole =>
    by_cases hfit : fileSize p.disk + r.lineLength ≤ fileSizeMax
    · have hl := hl.resolve_left nofun
      refine hp.step ?_ (by rw [hdisk]; exact fits_landed _ _ _) (.inr (.inl hl.2)) hio
      rw [hconf, landed, if_pos hfit]
      exact .lost p.conf (.record r) hl.1 (.inr ⟨r, rfl, hatt⟩)
    · rw [landed, if_neg hfit] at hconf
      exact ⟨by rw [hconf]; exact hp.acts, hio⟩

/-- Whatever a crash left behind belongs to the state before the append or after it. -/
lemma Good.crashed {r : Record} {l : Landing} {n' : Node}
    (hacts : fileSize (p.disk ++ [record r]) ≤ fileSizeMax →
      Acts F n0 inp c0 ⟨n', p.disk ++ [record r], p.out⟩)
    (hdisk : p'.disk = landed p.disk r l) (hout : p'.out = p.out) : Dead F n0 inp c0 p' := by
  cases l with
  | nothing => exact ⟨p.conf, hp.acts, hout.symm, .inl hdisk⟩
  | torn => exact ⟨p.conf, hp.acts, hout.symm, .inr hdisk⟩
  | whole =>
    rw [landed] at hdisk
    split_ifs at hdisk with hfit
    · exact ⟨_, hacts (by rw [fileSize_record]; exact hfit), hout.symm, .inl hdisk⟩
    · exact ⟨p.conf, hp.acts, hout.symm, .inl hdisk⟩

/-- An append that makes a change durable. The node may already have changed to `n1` in memory; on
success it is on its way to `n'`, on failure back to where it was. -/
lemma Good.persistTo {n1 n' : Node} {r : Record} {Q : Bool → Proc → Prop}
    (hacts : fileSize (p.disk ++ [record r]) ≤ fileSizeMax → p.node.recQuarantined = false →
      Acts F n0 inp c0 ⟨n', p.disk ++ [record r], p.out⟩) (hatt : Attempt n0 inp p.node r)
    (hn1 : n1.recQuarantined = p.node.recQuarantined)
    (hok : ∀ p', p'.node = n1 → p'.disk = p.disk ++ [record r] → p'.out = p.out → IoOk F p' →
      Good F n0 inp c0 { p' with node := n' } → Q true p')
    (hfail : ∀ p', p'.node = n1 → Good F n0 inp c0 { p' with node := p.node } → Q false p') :
    Sat (recordAppend r) { p with node := n1 } Q (Dead F n0 inp c0) := by
  refine sat_recordAppend hp.io ?_ ?_ ?_
  · intro p' hn hd ho hio hfit hq
    have hgood : Good F n0 inp c0 { p' with node := n' } := by
      refine ⟨?_, hio⟩
      simp only [Proc.conf, hd, ho]
      exact hacts (hd ▸ hfit) (hn1 ▸ hq)
    exact hok p' hn hd ho hio hgood
  · intro p' l hn hd ho hio hl
    have hgood : Good F n0 inp c0 { p' with node := p.node } := by
      refine hp.failed hatt (hn1 ▸ hl) ?_ hio
      simp [Proc.conf, hd, ho]
    exact hfail p' hn hgood
  · intro p' l hd ho hq
    exact hp.crashed (fun hfit => hacts hfit (hn1 ▸ hq)) hd ho

/-- An action that appends a line can be taken once the line is in the file. -/
lemma Good.reach {n' : Node} {r : Record}
    (hact : Act F n0 inp p.conf ⟨n', p.disk ++ [record r], p.out⟩)
    (hfit : fileSize (p.disk ++ [record r]) ≤ fileSizeMax)
    (hq : p.node.recQuarantined = false) : Acts F n0 inp c0 ⟨n', p.disk ++ [record r], p.out⟩ :=
  hp.acts.tail ⟨hact, fun _ => hfit, .inr (.inl hq)⟩

end

/-- What every appended line keeps, the lines of a snapshot transaction keep. -/
lemma sat_persistSnapshotLines {I C : Proc → Prop} {v2 : Bool} {s : Snapshot}
    (hI : ∀ r {p}, I p → Sat (recordAppend r) p (fun _ => I) C) (h : I p) :
    Sat (persistSnapshotLines v2 s) p (fun _ => I) C := by
  have hentries : ∀ es {p}, I p → Sat (persistSnapshotEntries es) p (fun _ => I) C := by
    intro es
    induction es with
    | nil => exact id
    | cons e es ih =>
      intro p h
      simp only [persistSnapshotEntries, sat_bind, sat_ite, sat_pure]
      cases e.persistSnapshotEntry with
      | none => exact ⟨by rintro ⟨⟩, fun _ => h⟩
      | some r => exact (hI r h).imp fun _ _ hq => ⟨fun _ => ih hq, fun _ => hq⟩
  simp only [persistSnapshotLines, sat_bind, sat_ite, sat_pure]
  refine (hI _ h).imp fun _ _ hq => ⟨fun _ => ?_, fun _ => hq⟩
  exact (hentries _ hq).imp fun _ _ hq' => ⟨fun _ => hI _ hq', fun _ => hq'⟩

/-! ### Sending -/

lemma Good.send (hp : Good F n0 inp c0 p) {dest : Uuid} {body : MsgBody} {Q : Unit → Proc → Prop}
    {C : Proc → Prop} (hmay : MaySend inp p.node
      ⟨p.node.cfg.groupId, p.node.cfg.self, dest, p.node.term, p.node.epoch, body⟩)
    (hQ : ∀ p', p'.node = p.node → Good F n0 inp c0 p' → Q () p') :
    Sat (Consensus.send dest body) p Q C := by
  exact hQ _ rfl (hp.step (.send p.conf _ hmay) (fits_refl _) (.inl rfl) hp.io)

/-- A loop that only sends messages that the node may send in its present state. -/
lemma Good.sendAll (hp : Good F n0 inp c0 p) {α : Type} {xs : List α} {f : α → M Unit}
    (hf : ∀ x ∈ xs, ∀ q : Proc, q.node = p.node → Good F n0 inp c0 q →
      Sat (f x) q (fun _ q' => Good F n0 inp c0 q' ∧ q'.node = p.node) (Dead F n0 inp c0)) :
    Sat (forEach xs f) p (fun _ p' => Good F n0 inp c0 p' ∧ p'.node = p.node) (Dead F n0 inp c0) :=
  Sat.forEach ⟨hp, rfl⟩ fun x hx q hq => hf x hx q hq.2 hq.1

/-! ### Commit index, stored entries and the effective members -/

section

variable (hp : Good F n0 inp c0 p)
include hp

/-- A commit index made durable. -/
lemma Good.persistCommit {k : ℕ} {Q : Bool → Proc → Prop}
    (hact : Act F n0 inp p.conf ⟨p.node.setCommit k, p.disk ++ [record (.commit k)], p.out⟩)
    (hok : ∀ p', p'.node = p.node.setCommit k → Good F n0 inp c0 p' → Q true p')
    (hfail : ∀ p', p'.node = p.node → Good F n0 inp c0 p' → Q false p') :
    Sat (Consensus.persistCommit k) p Q (Dead F n0 inp c0) := by
  simp only [Consensus.persistCommit, sat_bind, sat_ite, sat_modifyNode, sat_pure]
  refine hp.persistTo (hp.reach hact) (.commit k) rfl ?_ ?_
  · intro p' hn _ _ _ hgood
    rw [← hn] at hgood
    exact on_true (hok p' hn hgood)
  · intro p' hn hgood
    refine on_false ?_
    rw [hn]
    exact hfail _ rfl hgood

/-- An entry made durable, where `n'` is the node that takes it in. -/
lemma Good.store {e : Entry} {n' : Node} {Q : Bool → Proc → Prop}
    (hact : ∀ r, e.persistAny = some r →
      Act F n0 inp p.conf ⟨n', p.disk ++ [record r], p.out⟩)
    (hsrc : Offered n0 inp p.node e)
    (hok : ∀ p', p'.node = p.node → Good F n0 inp c0 { p' with node := n' } → Q true p')
    (hfail : ∀ p', p'.node = p.node → Good F n0 inp c0 p' → Q false p') :
    Sat (recordAppend? e.persistAny) p Q (Dead F n0 inp c0) := by
  cases hr : e.persistAny with
  | none => exact hfail p rfl hp
  | some r =>
    refine hp.persistTo (hp.reach (hact r hr)) (.stored e r hsrc hr) rfl ?_ ?_
    · exact fun p' hn _ _ _ hgood => hok p' hn hgood
    · intro p' hn hgood
      rw [← hn] at hgood
      exact hfail p' hn hgood

lemma Good.recompute (hrole : p.node.role ≠ .candidate) :
    Good F n0 inp c0 { p with node := p.node.recomputed } := by
  rcases p.node.recomputed_cases with h | ⟨ms, hms, hne, h⟩ <;> rw [h]
  · exact hp
  · exact hp.node (.refold p.conf ms hrole hms hne)

end

/-! ### An exhausted term counter -/

/-- A program that respects the size of the file and the outcomes of the environment; all that
counts once the term counter is exhausted. -/
def Tame (F : Prop) {α : Type} (m : M α) : Prop :=
  ∀ p, IoOk F p →
    Sat m p (fun _ p' => Fits p.disk p'.disk ∧ IoOk F p') (fun p' => Fits p.disk p'.disk)

section Tame

variable {α β : Type} {m : M α}

lemma tame_pure (a : α) : Tame F (pure a : M α) := fun _ hp => ⟨id, hp⟩

lemma tame_getNode : Tame F getNode := fun _ hp => ⟨id, hp⟩

lemma tame_modifyNode (f : Node → Node) : Tame F (modifyNode f) := fun _ hp => ⟨id, hp⟩

lemma Tame.bind {f : α → M β} (hm : Tame F m) (hf : ∀ a, Tame F (f a)) : Tame F (m >>= f) := by
  intro p hp
  rw [sat_bind]
  refine (hm p hp).mono (fun a q hq => ?_) fun _ => id
  exact (hf a q hq.2).mono (fun _ _ h => ⟨h.1 ∘ hq.1, h.2⟩) fun _ h => h ∘ hq.1

lemma Tame.ite {c : Prop} [Decidable c] {m1 m2 : M α} (h1 : Tame F m1) (h2 : Tame F m2) :
    Tame F (if c then m1 else m2) := by
  split_ifs
  · exact h1
  · exact h2

lemma Tame.forEach {xs : List β} {f : β → M Unit} (hf : ∀ x, Tame F (f x)) :
    Tame F (forEach xs f) := by
  induction xs with
  | nil => exact tame_pure ()
  | cons x xs ih => exact (hf x).bind fun _ => ih

lemma tame_recordAppend (r : Record) : Tame F (recordAppend r) := by
  intro p hp
  refine sat_recordAppend hp ?_ ?_ ?_
  · exact fun p' _ _ _ hio hfit _ => ⟨fun _ => hfit, hio⟩
  · exact fun p' l _ hd _ hio _ => ⟨hd ▸ fits_landed _ _ l, hio⟩
  · exact fun p' l hd _ _ => hd ▸ fits_landed _ _ l

lemma Good.wrapped (hp : Good F n0 inp c0 p) (hm : Tame F m) (ht : 2 ^ 64 ≤ p.node.term + 1) :
    Traced F n0 inp c0 m p := by
  refine (hm p hp.io).mono (fun _ p' h => hp.step (.wrap _ _ ht) h.1 (.inr (.inr ht)) h.2)
    fun p' h => ?_
  exact ⟨p'.conf, hp.acts.tail ⟨.wrap _ _ ht, h, .inr (.inr ht)⟩, rfl, .inl rfl⟩

end Tame

end Qihse.Consensus
