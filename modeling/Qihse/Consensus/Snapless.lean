import Qihse.Consensus.Fixed

/-!
# Groups without compaction

Where no node compacts its log, no snapshot is ever offered, installed or found in a file.
-/

namespace Qihse.Consensus

open Replay List

/-- The line that opens a snapshot transaction. -/
def Record.opensSnapshot : Record → Bool
  | .snapshot _ _ _ _ _ _ _ => true
  | _ => false

/-- A file without snapshot transactions. -/
def SnaplessFile (d : List Line) : Prop := ∀ r, Line.record r ∈ d → r.opensSnapshot = false

/-- A node that does not compact and has installed nothing. -/
structure Node.Snapless (n : Node) : Prop where
  threshold : n.cfg.snapshotThreshold = 0
  snap : n.snap = .empty

/-- A message that offers no snapshot, but at most the empty one. -/
def Msg.Snapless (m : Msg) : Prop := ∀ s, m.body = .snapshot s → s.lastIncludedIndex = 0

def Input.Snapless (inp : Input) : Prop := ∀ m, inp = .msg m → m.Snapless

section

variable {F : Prop} {n0 n : Node} {inp : Input} {c c' : Conf} {d d' : List Line} {r : Record}

section

variable (h : SnaplessFile d)
include h

lemma SnaplessFile.append (h' : SnaplessFile d') : SnaplessFile (d ++ d') := by
  intro r hr
  exact (mem_append.mp hr).elim (h r) (h' r)

lemma SnaplessFile.snoc (hr : r.opensSnapshot = false) : SnaplessFile (d ++ [Line.record r]) := by
  refine h.append fun r' hr' => ?_
  cases mem_singleton.mp hr'
  exact hr

lemma SnaplessFile.torn : SnaplessFile (d ++ [Line.torn]) := by
  refine h.append fun r' hr' => ?_
  cases mem_singleton.mp hr'

lemma SnaplessFile.take (k : ℕ) : SnaplessFile (d.take k) :=
  fun r hr => h r (mem_of_mem_take hr)

end

lemma opensSnapshot_of_persistAny {e : Entry} (h : e.persistAny = some r) :
    r.opensSnapshot = false := by
  have hr := persistAny_announces h
  cases r <;> first | rfl | cases hr

lemma snaplessFile_identity (h : ∀ l ∈ d, l.isIdentity) : SnaplessFile d := by
  intro r hr
  have hid : Replay.isIdentity r := h _ hr
  cases r <;> first | rfl | cases hid

/-- A file without snapshot transactions restores no snapshot. -/
lemma SnaplessFile.fold {cfg : Config} {st st' : Replay} {k : ℕ} (hd : SnaplessFile d)
    (hst : st.snap = .empty ∧ st.pend = none) (h : Replay.fold cfg st k d = some st') :
    st'.snap = .empty ∧ st'.pend = none := by
  refine Replay.fold_induction (P := fun st => st.snap = .empty ∧ st.pend = none) hst h
    fun st k r st1 hr hst hst1 => ?_
  rcases replayed_of_step hst1 with hid | hrep
  · obtain ⟨flags, epoch, rfl⟩ := hid.eq
    exact hst
  · have hp : st.checked.pend = none := hst.2
    cases hrep with
    | vote | commit => exact hst
    | push _ e _ _ _ he =>
      obtain rfl := push_eq he
      exact hst
    | pendPush _ e p _ hp' | swapIn _ p _ hp' => exact absurd (hp.symm.trans hp') nofun
    | openSnapshot => exact absurd (hd _ hr) (by simp [Record.opensSnapshot])
    | cut _ _ _ hcut =>
      obtain ⟨log, next, t, g, -, rfl⟩ := cut_eq hcut
      exact hst

/-- Nothing can be installed from a message that offers no snapshot. -/
lemma InstallOk.not_snapless {m : Msg} {s : SnapshotBody} (h : InstallOk n m s) : ¬ m.Snapless := by
  intro hm
  have hcommit := h.commit
  rw [hm s h.body] at hcommit
  omega

lemma Node.Snapless.compaction (h : n.Snapless) : n.compaction = none := by
  unfold Node.compaction
  simp [h.threshold]

/-- Actions of a group without compaction. -/
lemma Act.snapless (h : Act F n0 inp c c') (hterm : c.node.term + 1 < 2 ^ 64)
    (hc : c.node.Snapless) (hd : SnaplessFile c.disk) (hinp : inp.Snapless) :
    c'.node.Snapless ∧ SnaplessFile c'.disk := by
  cases h with
  | quiet n' h => exact ⟨⟨h.cfg ▸ hc.threshold, h.snap.trans hc.snap⟩, hd⟩
  | send => exact ⟨hc, hd⟩
  | campaign =>
    refine ⟨⟨hc.threshold, hc.snap⟩, ?_⟩
    rw [append_cons]
    exact (hd.snoc rfl).snoc rfl
  | wrap => omega
  | tally | matched => exact ⟨⟨hc.threshold, hc.snap⟩, hd⟩
  | win =>
    have hq := Quiet.matchSelf c.node.lead
    exact ⟨⟨hq.cfg ▸ hc.threshold, hq.snap.trans hc.snap⟩, hd⟩
  | append e r hok hr =>
    refine ⟨?_, hd.snoc (opensSnapshot_of_persistAny hr)⟩
    unfold Node.pushed
    split_ifs
    · exact ⟨hc.threshold, hc.snap⟩
    · have hf := (c.node.push e).refolded_recomputed
      exact ⟨hf.cfg ▸ hc.threshold, hf.sameLog.snap.trans hc.snap⟩
  | refold ms =>
    have hf := c.node.refolded_setMembership ms
    exact ⟨⟨hf.cfg ▸ hc.threshold, hf.sameLog.snap.trans hc.snap⟩, hd⟩
  | push m prev pt lc es j e r hm hbody hrole hj hholds hlast hindex hlen hfold hr =>
    exact ⟨⟨hc.threshold, hc.snap⟩, hd.snoc (opensSnapshot_of_persistAny hr)⟩
  | compact s rs hs => simp [hc.compaction] at hs
  | install m s rs hi hok => exact absurd (hinp m hi) hok.not_snapless
  | quarantine v2 s rs torn hs =>
    rcases hs with ⟨hs, -⟩ | ⟨-, m, b, hi, hok, -⟩
    · simp [hc.compaction] at hs
    · exact absurd (hinp m hi) hok.not_snapless
  | lost l hF hl =>
    refine ⟨hc, ?_⟩
    rcases hl with rfl | ⟨r, rfl, hr⟩
    · exact hd.torn
    · cases hr with
      | stored e _ he hr => exact hd.snoc (opensSnapshot_of_persistAny hr)
      | _ => exact hd.snoc rfl
  | _ => exact ⟨⟨hc.threshold, hc.snap⟩, hd.snoc rfl⟩

lemma MaySend.snapless {m : Msg} (h : MaySend inp n m) (hn : n.Snapless) : m.Snapless := by
  intro s hb
  obtain ⟨-, -, -, h⟩ := h
  simp only [hb, hn.snap] at h
  rw [h.2.2]
  rfl

end

/-! ### Groups -/

/-- The part of the invariant that is about one node. -/
structure SlotSnapless (s : Slot) : Prop where
  node : ∀ {n}, s.node = some n → n.Snapless
  disk : ∀ {d}, s.disk = some d → SnaplessFile d

namespace Cluster

/-- A group in which nothing was ever compacted. -/
structure Snapless (w : Cluster) : Prop where
  slot : ∀ u, SlotSnapless (w.slots u)
  sent : ∀ m ∈ w.sent, m.Snapless

variable {F : Prop} {w : Cluster} {u : Uuid} {n0 : Node} {inp : Input} {c c' : Conf}

lemma Snapless.move (h : (w.put u c).Snapless) (hterm : c.node.term + 1 < 2 ^ 64)
    (hin : ∀ m, inp = .msg m → m ∈ w.sent) (hmove : Move F n0 inp c c') :
    (w.put u c').Snapless := by
  obtain ⟨hu, hothers⟩ := forall_put.mp h.slot
  have hinp : inp.Snapless := fun m hm => h.sent m (by simp [hin m hm])
  obtain ⟨hn, hd⟩ := hmove.act.snapless hterm (hu.node rfl) (hu.disk rfl) hinp
  refine ⟨forall_put.mpr ⟨⟨?_, ?_⟩, hothers⟩, fun m hm => ?_⟩
  · rintro n ⟨⟩
    exact hn
  · rintro d ⟨⟩
    exact hd
  · obtain hm | ⟨-, hmay⟩ := hmove.act.mem_sent hterm hm
    · exact h.sent m hm
    · exact hmay.snapless (hu.node rfl)

lemma Snapless.halt {disk : List Line} (h : (w.put u c).Snapless)
    (hdisk : disk = c.disk ∨ disk = c.disk ++ [Line.torn]) : (w.halt u disk c.out).Snapless := by
  obtain ⟨hu, hothers⟩ := forall_put.mp h.slot
  refine ⟨forall_halt.mpr ⟨⟨nofun, ?_⟩, hothers⟩, h.sent⟩
  rintro d ⟨⟩
  rcases hdisk with rfl | rfl
  · exact hu.disk rfl
  · exact (hu.disk rfl).torn

lemma Snapless.crash (h : w.Snapless) (u : Uuid) :
    (w.setSlot u ⟨none, (w.slots u).disk⟩).Snapless :=
  ⟨forall_setSlot.mpr ⟨⟨nofun, (h.slot u).disk⟩, fun v _ => h.slot v⟩, h.sent⟩

lemma SlotSnapless.opened {s : Slot} {disk : Option (List Line)} {p : Config}
    (hthr : p.snapshotThreshold = 0) (hdisk : ∀ {d}, disk = some d → SnaplessFile d)
    (hs : Opened p disk s) : SlotSnapless s := by
  suffices h : (∀ {n}, s.node = some n → n.Snapless) ∧ ∀ {d}, s.disk = some d → SnaplessFile d from
    ⟨h.1, h.2⟩
  refine hs.rule (fun k hd => hd.take k) snaplessFile_identity ?_ ?_ hdisk
  · intro c d st n hc hd hst hn
    obtain ⟨d0, hd0, hfold⟩ := fold_of_load hst
    have hd0 : SnaplessFile d0 := by
      rcases hd0 with rfl | ⟨rfl, -⟩
      · exact hd
      · exact fun r hr => hd r (by simp [hr])
    refine ⟨?_, hn.snap.trans (hd0.fold ⟨rfl, rfl⟩ hfold).1⟩
    rw [hn.cfg, (prepared_of_prepare hc).snapshotThreshold, hthr]
  · intro c n hc hn
    refine ⟨?_, hn.snap⟩
    rw [hn.cfg, (prepared_of_prepare hc).snapshotThreshold, hthr]

lemma Snapless.opened {cfg : Config} {s : Slot} (h : w.Snapless)
    (hthr : cfg.snapshotThreshold = 0) (hs : Opened cfg (w.slots u).disk s) :
    (w.setSlot u s).Snapless :=
  ⟨forall_setSlot.mpr ⟨SlotSnapless.opened hthr (h.slot u).disk hs, fun v _ => h.slot v⟩, h.sent⟩

lemma snapless_init : init.Snapless := ⟨fun _ => ⟨nofun, nofun⟩, nofun⟩

end Cluster

end Qihse.Consensus
