import Qihse.Consensus.Capacity

/-!
# Groups with a fixed member list

As long as nobody proposes a configuration change, all entries in logs, files and messages are data
entries, so that every node keeps the member list it was opened with.
-/

namespace Qihse.Consensus

open Replay List Node Entry

/-- Entries without a configuration change. -/
def DataOnly (es : List Entry) : Prop := ∀ e ∈ es, e.type = .data

/-- A file that announces data entries only. -/
def DataFile (d : List Line) : Prop := ∀ r, Line.record r ∈ d → ∀ e, entryOf r = some e →
  e.type = .data

/-- A message that carries data entries only. -/
def Msg.DataOnly (m : Msg) : Prop :=
  match m.body with
  | .append _ _ _ es => Consensus.DataOnly es
  | .snapshot s => Consensus.DataOnly s.entries
  | _ => True

/-- An operation that proposes no configuration change. -/
def Input.Plain : Input → Prop
  | .msg m => m.DataOnly
  | .single _ _ _ _ | .joint _ _ => False
  | _ => True

/-! ### The fold over data entries -/

variable {es : List Entry}

lemma Fold.steps_data {f : Fold} (h : DataOnly es) (k : ℕ) : f.steps es k = some f := by
  induction es generalizing k with
  | nil => rfl
  | cons e es ih =>
    have he : e.type = .data := h e (by simp)
    have hstep : f.step e k = some f := by simp [step, configEntryValid, he]
    simp only [steps, hstep, Option.bind_some]
    exact ih (fun x hx => h x (by simp [hx])) _

/-- Data entries change no member and open no joint phase. -/
lemma foldFull_data {base : List Member} {k : ℕ} {f : Fold} (h : DataOnly es)
    (hf : foldFull base es k none = some f) : f.members = base ∧ f.active = false := by
  obtain ⟨g, hg, -, -, rfl, -⟩ := foldFull_eq_some.mp hf
  rw [Option.toList_none, append_nil, Fold.steps_data h] at hg
  cases hg
  exact ⟨rfl, rfl⟩

section

variable {n : Node}

lemma Node.foldMembership_data {ms : List Member} (h : DataOnly n.entries)
    (hms : n.foldMembership none = some ms) : ms = n.cfg.members := by
  obtain ⟨f, hf, -, rfl⟩ := foldMembership_eq_some.mp hms
  exact (foldFull_data h hf).1

lemma Node.foldAtCommit_data {f : Fold} (h : DataOnly n.entries) (hf : n.foldAtCommit = some f) :
    f.active = false :=
  (foldFull_data h hf).2

end

/-! ### Files -/

variable {e e' : Entry} {r : Record}

/-- The line of an entry announces an entry of the same type. -/
lemma entryOf_persistConfigEntry (h : e.persistConfigEntry = some r) (he' : entryOf r = some e') :
    e'.type = e.type := by
  have hconfig : ∀ {add uid index term gen rw},
      entryOf (.config add uid index term gen rw) = some e' →
        e'.type = if add then .configAdd else .configRemove := by
    intro add uid index term gen rw h
    simp only [entryOf, configEntry] at h
    split at h
    · cases h
    · split at h
      · cases h
        rfl
      · split at h
        · cases h
        · cases h
          rfl
  cases ht : e.type <;> simp only [persistConfigEntry, ht, reduceCtorEq] at h <;>
    split_ifs at h <;> cases h <;> exact hconfig he'

lemma dataEntry_type {i t g ph l c s : ℕ} {pl : List UInt8}
    (h : dataEntry i t g ph l c s pl = some e) : e.type = .data := by
  unfold dataEntry at h
  split_ifs at h
  cases h
  rfl

lemma entryOf_persistAny (h : e.persistAny = some r) (he' : entryOf r = some e') :
    e'.type = e.type := by
  cases ht : e.type <;> simp only [persistAny, ht] at h
  · unfold persistEntry at h
    split_ifs at h
    cases h
    exact dataEntry_type he'
  · exact (entryOf_persistConfigEntry h he').trans ht
  · exact (entryOf_persistConfigEntry h he').trans ht
  all_goals
    simp only [persistJointMarker, ht] at h
    split_ifs at h
    cases h
    cases he'
    rfl

lemma entryOf_persistSnapshotEntry (h : e.persistSnapshotEntry = some r)
    (he' : entryOf r = some e') : e'.type = e.type := by
  unfold persistSnapshotEntry at h
  split_ifs at h with ht
  · exact entryOf_persistConfigEntry h he'
  · cases h
    rw [dataEntry_type he']
    exact (not_not.mp ht).symm

variable {d : List Line}

lemma DataFile.append {d' : List Line} (h : DataFile d) (h' : DataFile d') :
    DataFile (d ++ d') := by
  intro r hr
  exact (mem_append.mp hr).elim (h r) (h' r)

lemma DataFile.take (h : DataFile d) (k : ℕ) : DataFile (d.take k) :=
  fun r hr => h r (mem_of_mem_take hr)

lemma dataFile_single (h : ∀ e, entryOf r = some e → e.type = .data) : DataFile [.record r] := by
  intro r' hr'
  cases mem_singleton.mp hr'
  exact h

/-- A line that announces no entry. -/
lemma dataFile_other (h : entryOf r = none) : DataFile [.record r] :=
  dataFile_single fun e he => by simp [h] at he

lemma dataFile_torn : DataFile [.torn] := by
  intro r hr
  cases mem_singleton.mp hr

lemma dataFile_stored (he : e.type = .data) (hr : e.persistAny = some r) : DataFile [.record r] :=
  dataFile_single fun _ he' => (entryOf_persistAny hr he').trans he

lemma dataFile_identity (h : ∀ l ∈ d, l.isIdentity) : DataFile d := by
  intro r hr e he
  rw [entryOf_of_isIdentity (h _ hr)] at he
  cases he

variable {rs : List Record}

lemma dataFile_snapshotEntries (h : DataOnly es)
    (hrs : es.mapM persistSnapshotEntry = some rs) : DataFile (rs.map .record) := by
  intro r hr e he
  obtain ⟨r', hr', heq⟩ := mem_map.mp hr
  cases heq
  obtain ⟨x, hx, hrx⟩ := mem_of_mapM hrs hr'
  exact (entryOf_persistSnapshotEntry hrx he).trans (h x hx)

section

variable {v2 : Bool} {s : Snapshot} (h : DataOnly s.entries)
include h

lemma dataFile_snapshotRecords (hrs : snapshotRecords v2 s = some rs) :
    DataFile (rs.map .record) := by
  obtain ⟨es, hes, rfl⟩ := Option.map_eq_some_iff.mp hrs
  rw [map_append, map_cons, ← singleton_append (l := es.map _)]
  exact ((dataFile_other rfl).append (dataFile_snapshotEntries h hes)).append
    (dataFile_other rfl)

lemma dataFile_partialSnapshot (hrs : PartialSnapshot v2 s rs) : DataFile (rs.map .record) := by
  rcases hrs with rfl | ⟨k, es, hes, rfl⟩
  · exact nofun
  · exact (dataFile_other rfl).append
      (dataFile_snapshotEntries (fun e he => h e (mem_of_mem_take he)) hes)

end

/-! ### Nodes -/

/-- A node that runs with the member list it was opened with. -/
structure Node.Plain (cfg : Config) (base : List Member) (n : Node) : Prop where
  prepared : ∃ b, cfg.prepare b = some n.cfg
  members : n.members = base
  selfIndexed : n.SelfIndexed
  data : DataOnly n.entries

section

variable {F : Prop} {n0 n n' : Node} {inp : Input} {c c' : Conf} {cfg : Config}
  {base : List Member}

section

variable (h : n.Plain cfg base)
include h

lemma Node.Plain.baseline (hbase : cfg.members = base) : n.cfg.members = base := by
  obtain ⟨b, hb⟩ := h.prepared
  rw [(prepared_of_prepare hb).members, hbase]

lemma Node.Plain.self : n.cfg.self = cfg.self := by
  obtain ⟨b, hb⟩ := h.prepared
  exact (prepared_of_prepare hb).self

section

variable (hcfg : n'.cfg = n.cfg) (hmembers : n'.members = n.members)
  (hself : n'.selfIndex = n.selfIndex)
include hcfg hmembers hself

lemma Node.Plain.congr (hdata : ∀ e ∈ n'.entries, e ∈ n.entries) : n'.Plain cfg base := by
  refine ⟨hcfg ▸ h.prepared, hmembers.trans h.members, ?_, fun e he => h.data e (hdata e he)⟩
  have hindex := h.selfIndexed
  simp only [Node.SelfIndexed, memberIndex, hcfg, hmembers, hself] at hindex ⊢
  exact hindex

/-- The same with an unchanged log. -/
lemma Node.Plain.same (hlog : n'.log = n.log) (hsnap : n'.snap = n.snap) : n'.Plain cfg base :=
  h.congr hcfg hmembers hself fun e he => by simpa [entries, hlog, hsnap] using he

end

lemma Node.Plain.push {e : Entry} (he : e.type = .data) : (n.push e).Plain cfg base := by
  refine { h with data := ?_ }
  rw [entries_push]
  exact forall_mem_append.mpr ⟨h.data, forall_mem_singleton.mpr he⟩

end

/-- A leader of a fixed group appends data only. -/
lemma AppendOk.plain {e : Entry} (hok : AppendOk n0 inp n e) (h : n.Plain cfg base)
    (hinp : inp.Plain) : e.type = .data := by
  cases hok with
  | data _ htype => exact htype
  | single op member role weight hi | joint user add remove j d hi =>
    subst hi
    exact hinp.elim
  | close f hrole hf hactive =>
    rw [foldAtCommit_data h.data hf] at hactive
    cases hactive

variable {m : Msg}

lemma Addressed.plain {prev pt lc : ℕ} {es : List Entry} (hm : Addressed inp n m)
    (hbody : m.body = .append prev pt lc es) (hinp : inp.Plain) : DataOnly es := by
  rw [hm.input] at hinp
  simpa [Input.Plain, Msg.DataOnly, hbody] using hinp

lemma InstallOk.plain {s : SnapshotBody} (hok : InstallOk n m s) (hinp : inp.Plain)
    (hi : inp = .msg m) : DataOnly s.entries := by
  rw [hi] at hinp
  simpa [Input.Plain, Msg.DataOnly, hok.body] using hinp

lemma Node.compaction_mem {s : Snapshot} (hs : n.compaction = some s) :
    ∀ e ∈ s.entries, e ∈ n.entries := by
  obtain ⟨target, -, -, -, -, -, rfl⟩ := compaction_snapshot hs
  exact fun e he => mem_of_mem_take he

/-- Actions of a fixed group. -/
lemma Act.plain (h : Act F n0 inp c c') (hterm : c.node.term + 1 < 2 ^ 64)
    (hbase : cfg.members = base) (hc : c.node.Plain cfg base) (hd : DataFile c.disk)
    (hinp : inp.Plain) : c'.node.Plain cfg base ∧ DataFile c'.disk := by
  cases h with
  | quiet n' h => exact ⟨hc.same h.cfg h.members h.selfIndex h.log h.snap, hd⟩
  | send => exact ⟨hc, hd⟩
  | adopt | floor | grant | commit | follow =>
    exact ⟨hc.same rfl rfl rfl rfl rfl, hd.append (dataFile_other rfl)⟩
  | campaign =>
    refine ⟨hc.same rfl rfl rfl rfl rfl, hd.append ?_⟩
    exact (dataFile_other rfl).append (dataFile_other rfl)
  | wrap => omega
  | tally | matched => exact ⟨hc.same rfl rfl rfl rfl rfl, hd⟩
  | win =>
    have hq := Quiet.matchSelf c.node.lead
    have hl : c.node.lead.Plain cfg base := hc.same rfl rfl rfl rfl rfl
    exact ⟨hl.same hq.cfg hq.members hq.selfIndex hq.log hq.snap, hd⟩
  | append e r hok hr =>
    have he := hok.plain hc hinp
    rw [Node.pushed, if_pos he]
    exact ⟨hc.push he, hd.append (dataFile_stored he hr)⟩
  | refold ms hrole hms hne =>
    have hsame := foldMembership_data hc.data hms
    exact absurd (hsame.trans (hc.baseline hbase)) (hc.members ▸ hne)
  | truncate m prev pt lc es j e l hm hbody hrole hj hholds hl hne hsnap =>
    refine ⟨hc.congr rfl rfl rfl fun x hx => ?_, hd.append (dataFile_other rfl)⟩
    rw [entries_truncateFrom _ (Nat.le_of_lt_succ hsnap)] at hx
    exact mem_of_mem_take hx
  | push m prev pt lc es j e r hm hbody hrole hj hholds hlast hindex hlen hfold hr =>
    have he := hm.plain hbody hinp e (mem_of_getElem? hj)
    exact ⟨hc.push he, hd.append (dataFile_stored he hr)⟩
  | compact s rs hs hrs =>
    have hmem := compaction_mem hs
    have hdata : DataOnly s.entries := fun e he => hc.data e (hmem e he)
    refine ⟨hc.congr rfl rfl rfl ?_, hd.append (dataFile_snapshotRecords hdata hrs)⟩
    exact forall_mem_append.mpr ⟨hmem, fun x hx => mem_append_right _ (mem_of_mem_drop hx)⟩
  | install m s rs hi hok hrole hsame hcommit hrs =>
    have hdata := hok.plain hinp hi
    refine ⟨{ hc with data := fun x hx => ?_ },
      hd.append (dataFile_snapshotRecords (s := s.toSnapshot) hdata hrs)⟩
    rcases mem_append.mp hx with hx | hx
    · exact hdata x hx
    · simp [Node.installed] at hx
  | quarantine v2 s rs torn hs hrs ht =>
    have hdata : DataOnly s.entries := by
      rcases hs with ⟨hs, -⟩ | ⟨-, m, b, hi, hok, rfl⟩
      · exact fun e he => hc.data e (compaction_mem hs e he)
      · exact hok.plain hinp hi
    have hrs : DataFile (rs.map .record) :=
      hrs.elim (dataFile_partialSnapshot hdata) fun h => dataFile_snapshotRecords hdata h.2
    have ht : DataFile torn := by
      rcases ht with rfl | ⟨-, rfl⟩
      · rintro r ⟨⟩
      · exact dataFile_torn
    exact ⟨hc.same rfl rfl rfl rfl rfl, (hd.append hrs).append ht⟩
  | lost l hF hl =>
    refine ⟨hc, hd.append ?_⟩
    rcases hl with rfl | ⟨r, rfl, hr⟩
    · exact dataFile_torn
    · cases hr with
      | stored e _ he hr =>
        refine dataFile_stored ?_ hr
        rcases he with hok | ⟨m, prev, pt, lc, es, hm, hbody, he⟩
        · exact hok.plain hc hinp
        · exact hm.plain hbody hinp e he
      | _ => exact dataFile_other rfl

lemma MaySend.plain (h : MaySend inp n m) (hn : n.Plain cfg base) : m.DataOnly := by
  obtain ⟨-, -, -, h⟩ := h
  unfold Msg.DataOnly
  generalize m.body = body at h ⊢
  cases body with
  | append =>
    rcases h.2.2 with ⟨-, -, rfl, -⟩ | ⟨-, -, rfl⟩
    · exact nofun
    · exact fun e he => hn.data e (mem_of_mem_drop (mem_of_mem_take he))
  | snapshot =>
    obtain ⟨-, -, rfl⟩ := h
    exact fun e he => hn.data e (mem_append_left _ he)
  | _ => trivial

/-- A node that was opened from a file without configuration entries. -/
lemma Booted.plain {st : Replay} {b : Bool} {p : Config} (h : Booted p st n)
    (hp : cfg.prepare b = some p) (hbase : cfg.members = base) (hst : All (·.type = .data) st) :
    n.Plain cfg base := by
  have hdata : DataOnly n.entries := by
    rw [Node.entries, h.log, h.snap]
    exact forall_mem_append.mpr ⟨hst.snap, hst.log⟩
  refine ⟨⟨b, h.cfg ▸ hp⟩, ?_, by rw [Node.SelfIndexed, h.cfg]; exact h.selfIndex, hdata⟩
  rw [foldMembership_data hdata h.folded, h.cfg, (prepared_of_prepare hp).members, hbase]

end

/-! ### Groups -/

/-- An event that leaves the member list alone. -/
def Op.static : Op → Bool
  | .copyRecord _ _ | .proposeMembership _ _ _ _ _ | .proposeMembershipRole _ _ _ _ _ _ _
  | .proposeJoint _ _ _ _ _ => false
  | _ => true

/-- The part of the invariant that is about one node. -/
structure SlotPlain (cfg : Config) (base : List Member) (s : Slot) : Prop where
  node : ∀ {n}, s.node = some n → n.Plain cfg base
  disk : ∀ {d}, s.disk = some d → DataFile d

namespace Cluster

/-- A group with a fixed member list whose terms cannot run out. -/
structure Fixed (cfg : Uuid → Config) (base : List Member) (w : Cluster) : Prop
    extends w.Capacity base where
  plain : ∀ u, SlotPlain (cfg u) base (w.slots u)
  data : ∀ m ∈ w.sent, m.DataOnly

variable {F : Prop} {cfg : Uuid → Config} {base : List Member} {w : Cluster} {u : Uuid} {n0 : Node}
  {inp : Input} {c c' : Conf}

lemma Fixed.move (hg : Group cfg base) (h : (w.put u c).Fixed cfg base) (hinp : inp.Plain)
    (hin : ∀ m, inp = .msg m → m ∈ w.sent) (hmove : Move F n0 inp c c') :
    (w.put u c').Fixed cfg base := by
  have hterm := h.toCapacity.term_lt (w.node_put_self u c)
  obtain ⟨hu, hothers⟩ := forall_put.mp h.plain
  obtain ⟨hn, hd⟩ := hmove.act.plain hterm (hg.members u) (hu.node rfl) (hu.disk rfl) hinp
  refine ⟨h.toCapacity.move hin hmove, forall_put.mpr ⟨⟨?_, ?_⟩, hothers⟩, fun m hm => ?_⟩
  · rintro n ⟨⟩
    exact hn
  · rintro d ⟨⟩
    exact hd
  · obtain hm | ⟨-, hmay⟩ := hmove.act.mem_sent hterm hm
    · exact h.data m hm
    · exact hmay.plain (hu.node rfl)

/-- What a call of a running node finds. -/
lemma Fixed.ready {op : Op} {n : Node} (h : w.Fixed cfg base) (hop : op.static)
    (hcall : op.call w = some (u, inp)) (hn : w.node u = some n) :
    (w.slots u).disk.isSome ∧ n.SelfIndexed ∧ n.JointFolded ∧ inp.Plain := by
  have hplain := (h.plain u).node hn
  refine ⟨(h.slot u).stored (by rw [← node, hn]; rfl), hplain.selfIndexed,
    fun f hf hactive => by simp [foldAtCommit_data hplain.data hf] at hactive, ?_⟩
  cases inp with
  | msg m => exact h.data m (Op.call_msg hcall)
  | single _ _ _ _ =>
    cases op with
    | proposeMembership | proposeMembershipRole => cases hop
    | _ => simp [Op.call] at hcall
  | joint _ _ =>
    cases op with
    | proposeJoint => cases hop
    | _ => simp [Op.call] at hcall
  | _ => trivial

lemma Fixed.crash (h : w.Fixed cfg base) (u : Uuid) :
    (w.setSlot u ⟨none, (w.slots u).disk⟩).Fixed cfg base := by
  have hslot := h.slot u
  refine ⟨h.toCapacity.setSlot ⟨hslot.owner, nofun, nofun, hslot.lines⟩ rfl,
    forall_setSlot.mpr ⟨⟨nofun, (h.plain u).disk⟩, fun v _ => h.plain v⟩, h.data⟩

lemma fixed_init : init.Fixed cfg base := by
  refine ⟨⟨fun u => ⟨nofun, nofun, nofun, nofun⟩, nofun⟩, fun u => ⟨nofun, nofun⟩, nofun⟩

lemma Fixed.halt {disk : List Line} (h : (w.put u c).Fixed cfg base)
    (hdisk : disk = c.disk ∨ disk = c.disk ++ [Line.torn]) :
    (w.halt u disk c.out).Fixed cfg base := by
  obtain ⟨hu, hothers⟩ := forall_put.mp h.plain
  refine ⟨h.toCapacity.halt hdisk, forall_halt.mpr ⟨⟨nofun, ?_⟩, hothers⟩, h.data⟩
  rintro d ⟨⟩
  rcases hdisk with rfl | rfl
  · exact hu.disk rfl
  · exact (hu.disk rfl).append dataFile_torn

lemma SlotPlain.opened {s : Slot} {disk : Option (List Line)} {p : Config}
    (hbase : p.members = base) (hdisk : ∀ {d}, disk = some d → DataFile d)
    (hs : Opened p disk s) : SlotPlain p base s := by
  have hall : ∀ {c : Config} {d : List Line} {st : Replay}, DataFile d →
      Replay.start.steps c 0 d = some st → All (·.type = .data) st := by
    intro c d st hd hst
    obtain ⟨d0, rfl | ⟨rfl, -⟩, hfold⟩ := fold_of_load hst
    · exact all_start.fold hd hfold
    · exact all_start.fold (fun r hr => hd r (by simp [hr])) hfold
  obtain ⟨hnode, hfile⟩ := hs.rule (N := (·.Plain p base)) (fun k hd => hd.take k)
    dataFile_identity (fun hc hd hst hn => hn.plain hc hbase (hall hd hst))
    (fun hc hn => hn.plain hc hbase { all_start with }) hdisk
  exact ⟨hnode, hfile⟩

lemma Fixed.opened {s : Slot} (hg : Group cfg base) (h : w.Fixed cfg base)
    (hs : Opened (cfg u) (w.slots u).disk s) : (w.setSlot u s).Fixed cfg base :=
  ⟨h.toCapacity.opened hg hs,
    forall_setSlot.mpr ⟨SlotPlain.opened (hg.members u) (h.plain u).disk hs, fun v _ => h.plain v⟩,
    h.data⟩

end Cluster

end Qihse.Consensus
