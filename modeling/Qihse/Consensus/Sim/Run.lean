import Qihse.Consensus.Sim.Actions

/-!
# Runs of a group as runs of the replicated log protocol

`Sim` is kept by every action, by crashes, by opening a node from its file and by copying the file
of one node to another one.
-/

namespace Qihse.Consensus

open Replay Replog Replog.History Consensus.Cluster

namespace Sim

variable {D : Design} {w : Cluster} {σ : State Uuid Entry} {u : Uuid} {c c' : Conf} {n0 : Node}
  {inp : Input}

/-- The node that acts, in the middle of its call. -/
lemma acting (h : Sim D (w.put u c) σ) (hi : Inv D.rules σ) : At D σ u c := by
  have hslot := h.slot u
  rw [put_slots_self] at hslot
  exact ⟨hi, hslot.up rfl, (hslot.file rfl).weaken fun hq => ⟨c.node, rfl, hq⟩⟩

/-- The slots of the other nodes stay related while node `u` takes its steps. -/
lemma others {σ' : State Uuid Entry} (h : Sim D w σ) (hnext : Next D.rules u σ σ') (w' : Cluster)
    (hsame : ∀ v, v ≠ u → w'.slots v = w.slots v) (v : Uuid) (hv : v ≠ u) :
    SlotSim σ'.hist v (w'.slots v) (σ'.nodes v) := by
  rw [hsame v hv, hnext.others hv]
  exact (h.slot v).mono hnext.le

section

variable (hsafe : Safe D.rules)
include hsafe

section

variable (hi : Inv D.rules σ)
include hi

lemma move (h : Sim D (w.put u c) σ)
    (hl : Legal D σ.hist u n0 inp c.node) (hin : ∀ m, inp = .msg m → m ∈ w.sent)
    (hmove : Move False n0 inp c c') : ∃ σ', Steps D.rules u σ σ' ∧ Sim D (w.put u c') σ' := by
  have hw : c'.disk = c.disk ∨ c.node.recQuarantined = false :=
    hmove.writable.imp_right fun hq => hq.resolve_right (not_le.mpr hl.term)
  have hmsg : ∀ a, inp = .msg a → MsgOk D σ.hist a :=
    fun a ha => h.msgs a (by simp [hin a ha])
  obtain ⟨σ', hsteps, hsim, hfile, hout⟩ := (h.acting hi).act hsafe hl hmsg hmove.act hw
  have hnext := hsteps.next hsafe hi
  have hother := h.others hnext (w.put u c') fun v hv => by
    rw [put_slots_ne w c' hv, put_slots_ne w c hv]
  refine ⟨σ', hsteps, fun v => ?_, fun m hm => ?_⟩
  · by_cases hv : v = u
    · subst hv
      rw [put_slots_self]
      refine ⟨?_, nofun, ?_, nofun⟩
      · rintro n ⟨⟩
        exact hsim
      · rintro d ⟨⟩
        refine hfile.weaken ?_
        rintro ⟨n, ⟨⟩, hq⟩
        exact hq
    · exact hother v hv
  · obtain hm | ⟨ho, -⟩ := hmove.act.mem_sent hl.term hm
    · exact (h.msgs _ hm).mono hi.sound hnext.le
    · exact hout m ho

/-- A node goes down with a file that still restores it. -/
lemma down (h : Sim D w σ) {w' : Cluster}
    (hsame : ∀ v, v ≠ u → w'.slots v = w.slots v) (hnode : (w'.slots u).node = none)
    (hfile : ∀ {d}, (w'.slots u).disk = some d → Recovers (σ.nodes u) False d)
    (habsent : (w'.slots u).disk = none → (w.slots u).disk = none) (hsent : w'.sent = w.sent) :
    ∃ σ', Steps D.rules u σ σ' ∧ Sim D w' σ' := by
  have hstep : Step D.rules u σ (σ.update u { σ.nodes u with role := .follower } σ.hist) :=
    .stepDown rfl
  have hnext := hstep.next hsafe hi
  refine ⟨_, .single hstep, fun v => ?_, fun m hm => h.msgs m (hsent ▸ hm)⟩
  by_cases hv : v = u
  · subst hv
    refine ⟨fun hn => ?_, fun _ => by simp, fun hd => ?_, fun hd => ?_⟩
    · cases hnode.symm.trans hn
    · rw [State.update_self]
      refine ((hfile hd).weaken ?_).congr rfl rfl rfl rfl
      rintro ⟨n, hn, -⟩
      cases hnode.symm.trans hn
    · rw [State.update_self, (h.slot v).absent (habsent hd)]
  · exact h.others hnext w' hsame v hv

lemma halt (h : Sim D (w.put u c) σ) {d : List Line}
    (hd : d = c.disk ∨ d = c.disk ++ [Line.torn]) :
    ∃ σ', Steps D.rules u σ σ' ∧ Sim D (w.halt u d c.out) σ' := by
  refine h.down hsafe hi (fun v hv => ?_) (by simp) ?_ (by simp) rfl
  · rw [halt_slots_ne w d c.out hv, put_slots_ne w c hv]
  · intro d' hd'
    obtain rfl : d = d' := by simpa using hd'
    have hfile := (h.acting hi).file.weaken False.elim
    rcases hd with rfl | rfl
    · exact hfile
    · exact hfile.torn

lemma crash (h : Sim D w σ) :
    ∃ σ', Steps D.rules u σ σ' ∧ Sim D (w.setSlot u ⟨none, (w.slots u).disk⟩) σ' := by
  refine h.down hsafe hi (fun v hv => ?_) ?_ ?_ ?_ rfl
  · simp [Cluster.setSlot, hv]
  · simp [Cluster.setSlot]
  · intro d hd
    exact ((h.slot u).file (by simpa [Cluster.setSlot] using hd)).weaken False.elim
  · simp [Cluster.setSlot]

end

end

/-! ### Opening a node -/

/-- The slot of a node that was down after an attempt to open it. -/
lemma slot_opened {cfg : Config} {s t : Slot} {x : Replog.Node Uuid Entry} {h : History Uuid Entry}
    (hs : SlotSim h u s x) (hdown : s.node = none) (ht : Opened cfg s.disk t) :
    SlotSim h u t x := by
  have hrole := hs.down hdown
  generalize hdisk : s.disk = disk at ht
  cases ht with
  | refused =>
    refine ⟨nofun, fun _ => hrole, fun hd => (hs.file (hdisk.trans hd)).weaken ?_,
      fun hd => hs.absent (hdisk.trans hd)⟩
    rintro ⟨n, ⟨⟩, -⟩
  | failed d d' hd =>
    refine ⟨nofun, fun _ => hrole, ?_, nofun⟩
    rintro e ⟨⟩
    refine Recovers.weaken (q := False) ?_ (by rintro ⟨n, ⟨⟩, -⟩)
    have hfile := hs.file hdisk
    rcases hd with rfl | ⟨c, st, p, -, hst, hp, rfl⟩
    · exact hfile.weaken False.elim
    · exact (hfile.discard hst hp).weaken False.elim
  | loaded d d' c st n hc hst hd hn =>
    have hfile := hs.file hdisk
    obtain ⟨ls, hls, hfold⟩ := fold_of_load hst
    have htidy := tidy_start.fold hfold
    have hx := (hfile c ls st (hls.imp_right And.left) hfold).1
    refine ⟨?_, nofun, ?_, nofun⟩
    · rintro n' ⟨⟩
      refine .of_out ?_ (hn.snap ▸ htidy.snap) ?_ (by simp [hn.role])
      · have hlog : n.entries = x.log := by rw [Node.entries, hn.log, hn.snap, hx.log]
        have habs : n.role.abs = x.role := by rw [hn.role, hrole]; rfl
        simp [Node.abs, hn.term, hx.term, hn.votedFor, hx.vote, hlog, hn.commit, hx.commit, habs]
      · rw [hn.snap, hn.commit]
        exact htidy.commit
    · rintro e ⟨⟩
      refine Recovers.weaken (q := True) ?_ fun _ => trivial
      cases hp : st.pend with
      | none =>
        rw [hp] at hd
        exact hd ▸ hfile.close hst hp
      | some =>
        rw [hp] at hd
        exact hd ▸ hfile.discard hst hp
  | unborn d' hc hd =>
    have hx := hs.absent hdisk
    refine ⟨nofun, fun _ => hrole, ?_, nofun⟩
    rintro e ⟨⟩
    rw [hx]
    exact (recovers_identity hd).weaken fun _ => trivial
  | born d' c n hc hd hsize hn =>
    have hx := hs.absent hdisk
    refine ⟨?_, nofun, ?_, nofun⟩
    · rintro n' ⟨⟩
      refine .of_out ?_ (hn.snap ▸ tidy_start.snap) ?_ (by simp [hn.role])
      · rw [hx]
        simp only [Node.abs, hn.term, hn.votedFor, Node.entries, hn.log, hn.snap, hn.commit,
          hn.role]
        rfl
      · rw [hn.snap, hn.commit]
        exact tidy_start.commit
    · rintro e ⟨⟩
      rw [hx]
      exact (recovers_identity (hd ▸ c.identityLines_isIdentity)).weaken fun _ => trivial

lemma opened {cfg : Config} {s : Slot} (h : Sim D w σ) (hdown : w.node u = none)
    (hs : Opened cfg (w.slots u).disk s) : Sim D (w.setSlot u s) σ := by
  refine ⟨fun v => ?_, h.msgs⟩
  by_cases hv : v = u
  · subst hv
    rw [show (w.setSlot v s).slots v = s by simp [Cluster.setSlot]]
    exact slot_opened (h.slot v) hdown hs
  · rw [show (w.setSlot u s).slots v = w.slots v by simp [Cluster.setSlot, hv]]
    exact h.slot v

/-- The counterpart of a running node. -/
lemma nodes {n : Node} (hs : Sim D w σ) (hn : w.node u = some n) : NodeSim σ.hist u n (σ.nodes u) :=
  (hs.slot u).up hn

lemma init : Sim D .init .init :=
  ⟨fun _ => ⟨nofun, fun _ => rfl, nofun, fun _ => rfl⟩, nofun⟩

end Sim

end Qihse.Consensus
