import Qihse.Kv.Converge
import Qihse.Kv.Crash

/-!
# Applying replica records in any order

A replica takes the records of a source by `qihse_kv_apply_replica_record` as they come, and a
record is stale when the stored one of its key has a greater sequence. What is stored can be dropped
by a compaction once it is dead, and then nothing tells that an older record is stale.
`Applying.meets` is the condition under which no live record comes so late.
-/

namespace Qihse.Kv

open List Store

/-- A record that is not refused for its form. -/
structure ReplicaRecord where
  entry : Entry
  framed : entry.Framed

/-- The replica, and the records that were applied to it. -/
structure Applying where
  store : Store
  applied : List Entry

namespace Applying

/-- The readings of an application are of the lookup and of the compaction. -/
inductive Act
  | apply (r : ReplicaRecord) (now now' : ℕ)
  | flush (now : ℕ)
  | compact (now : ℕ)
  | restart

/-- No reading of an act is after `t`. -/
def Act.before (t : ℕ) : Act → Prop
  | .apply _ now now' => now ≤ t ∧ now' ≤ t
  | .flush now => now ≤ t
  | .compact now => now ≤ t
  | .restart => True

/-- A record that is refused leaves the store as it is. -/
def step (a : Applying) : Act → Applying
  | .apply r now now' =>
    ⟨(a.store.applyReplicaRecord r.entry.delta cleared now now').getD a.store,
      a.applied ++ [r.entry]⟩
  | .flush now => { a with store := a.store.syncStore now }
  | .compact now => { a with store := a.store.compactSstablesStream now }
  | .restart => { a with store := .create a.store.disk }

def run (acts : List Act) : Applying := acts.foldl step ⟨.fresh [], []⟩

/-- A record of the key with a greater sequence than this record was applied, and no record with as
great a sequence is stored. -/
def forgotten (a : Applying) (e : Entry) : Bool :=
  a.applied.any fun q => decide (q.key = e.key ∧ e.payload.changeSeq < q.payload.changeSeq) &&
    (a.store.newest e.key).all fun p => decide (p.changeSeq < q.payload.changeSeq)

/-- The condition on an act: a record that is applied is dead, or its key has lost no newer
record. -/
def meets (a : Applying) : Act → Bool
  | .apply r now _ => r.entry.payload.isDead now || !a.forgotten r.entry
  | .flush _ => true
  | .compact _ => true
  | .restart => true

def meetsAll (a : Applying) : List Act → Bool
  | [] => true
  | act :: acts => a.meets act && (a.step act).meetsAll acts

end Applying

open Applying

/-! ### The log of a replica -/

/-- The last record of a key has its greatest sequence. -/
lemma Replayable.le_lastOf {es : List Entry} (h : Replayable es) {e : Entry} (he : e ∈ es) :
    ∃ p, lastOf es e.key = some p ∧ e.payload.changeSeq ≤ p.changeSeq := by
  induction es with
  | nil => cases he
  | cons x es ih =>
    have hasc := pairwise_cons.mp h.ascending
    have htail : Replayable es := ⟨fun y hy => h.framed y (mem_cons_of_mem _ hy), hasc.2⟩
    rw [lastOf]
    rcases mem_cons.mp he with rfl | he
    · cases hlast : lastOf es e.key with
      | none => exact ⟨e.payload, by simp, le_rfl⟩
      | some p => exact ⟨p, rfl, (hasc.1 _ (mem_of_lastOf hlast) rfl).le⟩
    · obtain ⟨p, hp, hle⟩ := ih htail he
      exact ⟨p, by rw [hp]; rfl, hle⟩

namespace Store

variable {s : Store} {e : Entry} {k : Key} {now now' t : ℕ}

/-- The log holds the records of the memtable, which came from a source. -/
def Replays (s : Store) : Prop :=
  ∃ es, Replayable es ∧ s.disk.wal = es.flatMap (Entry.frame .replica) ∧ s.trie = trieOf es

lemma Replays.putReplica (h : s.Replays) (he : e.Framed)
    (hnew : ∀ p, s.newest e.key = some p → p.changeSeq < e.payload.changeSeq) :
    (s.putReplica e).Replays := by
  obtain ⟨es, hes, hwal, htrie⟩ := h
  refine ⟨es ++ [e], ⟨?_, ?_⟩, ?_, ?_⟩
  · exact forall_mem_append.mpr ⟨hes.framed, forall_mem_singleton.mpr he⟩
  · refine pairwise_append.mpr ⟨hes.ascending, pairwise_singleton _ _, ?_⟩
    intro a ha b hb hkey
    rw [mem_singleton.mp hb] at hkey ⊢
    obtain ⟨p, hp, hle⟩ := hes.le_lastOf ha
    refine hle.trans_lt (hnew p ?_)
    rw [newest, htrie, hes.find_trieOf, ← hkey, hp]
    rfl
  · have hlog : (s.putReplica e).disk.wal = s.disk.wal ++ e.frame .replica := rfl
    rw [hlog, hwal, flatMap_append, flatMap_singleton]
  · have hput : (s.putReplica e).trie = s.trie.insert e.key e.payload := rfl
    rw [hput, htrie, trieOf, trieOf, foldl_append]
    rfl

lemma Replays.flushMemtable (s : Store) : s.flushMemtable.Replays :=
  ⟨[], ⟨by simp, List.Pairwise.nil⟩, rfl, rfl⟩

lemma Replays.compact (h : s.Replays) (now : ℕ) : (s.compactSstablesStream now).Replays := by
  by_cases hc : s.sstableCounter = 0
  · rwa [compactSstablesStream, if_pos hc]
  · obtain ⟨es, hes, hwal, htrie⟩ := h
    refine ⟨es, hes, ?_, ?_⟩
    · rw [(s.compact_fields now hc).2, wal_foldl_compactOps, hwal]
    · rw [trie_compact, htrie]

lemma Replays.create (h : s.Replays) (hs : s.Sound) :
    (create s.disk).Sound ∧ (create s.disk).Replays ∧
      ∀ k, (create s.disk).newest k = s.newest k := by
  obtain ⟨es, hes, hwal, htrie⟩ := h
  have hwal' : s.disk.wal = es.flatMap (Entry.frame .replica) ++ [] := by
    rw [hwal, append_nil]
  obtain ⟨hsound, hlog, htrie', -, hnewest⟩ :=
    create_replays .replica hs.keyed hes torn_nil hwal'
  refine ⟨hsound, ⟨es, hes, hlog, htrie'⟩, fun k => ?_⟩
  rw [hnewest k, newest, htrie, hes.find_trieOf, hs.latest k, Files.newestBelow_eq_latest hs.below]

/-- A record that is not newer than the stored one changes nothing. -/
lemma applyReplicaRecord_stale {p : Payload} (hp : s.newest e.key = some p)
    (hle : e.payload.changeSeq ≤ p.changeSeq) :
    (s.applyReplicaRecord e.delta cleared now now').getD s = s := by
  have hover : (s.applyOver p e.delta cleared now').getD s = s := by
    have hseq : e.delta.changeSeq ≤ p.changeSeq := hle
    unfold applyOver cleared
    rw [if_neg (by simp)]
    split_ifs with hlt heq
    · rfl
    · rfl
    · rfl
    · omega
  unfold applyReplicaRecord
  split_ifs
  · rfl
  · rw [show e.delta.key = e.key from rfl, logicalLookup_eq, hp]
    cases hd : p.isDead now <;> simpa [hd] using hover

end Store

/-! ### Applying -/

namespace Applying

variable {a : Applying} {t : ℕ}

/-- What is stored was applied. The newest record of a key that was applied is stored, or it is dead
and so is what is stored. -/
structure Settled (t : ℕ) (a : Applying) : Prop where
  sound : a.store.Sound
  replays : a.store.Replays
  known : ∀ k p, a.store.newest k = some p → ⟨k, p⟩ ∈ a.applied
  top : ∀ e ∈ a.applied,
    (∀ q ∈ a.applied, q.key = e.key → q.payload.changeSeq ≤ e.payload.changeSeq) →
      a.store.newest e.key = some e.payload ∨
        Store.Gone t (a.store.newest e.key) ∧ e.payload.isDead t = true

section

variable (h : a.Settled t)
include h

/-- Dead records may be dropped. -/
lemma Settled.thin {s : Store} (hsound : s.Sound) (hreplays : s.Replays)
    (hthin : Store.Thins t a.store s) : Settled t ⟨s, a.applied⟩ where
  sound := hsound
  replays := hreplays
  known k p hp := by
    rcases hthin k with heq | ⟨hnone, -⟩
    · exact h.known k p (heq ▸ hp)
    · rw [hnone] at hp
      cases hp
  top e he hmax := by
    rcases hthin e.key with heq | ⟨hnone, p, hp, hdead⟩
    · rw [heq]
      exact h.top e he hmax
    · refine .inr ⟨hnone ▸ gone_none t, ?_⟩
      rcases h.top e he hmax with hstored | ⟨-, hdead'⟩
      · rw [hp, Option.some_inj] at hstored
        rwa [← hstored]
      · exact hdead'

lemma Settled.maintain {s : Store} {now : ℕ} (hsound : s.Sound)
    (hreplays : s.Replays) (hthin : Store.Thins now a.store s) (hnow : now ≤ t) :
    Settled t ⟨s, a.applied⟩ :=
  h.thin hsound hreplays fun k => (hthin k).trans (.inl rfl) hnow

/-- A record that is stale, or that was applied before, leaves everything as it was. -/
lemma Settled.again {e : Entry} {p : Payload}
    (hdistinct : ∀ q ∈ a.applied, q.key = e.key → q.payload.changeSeq = e.payload.changeSeq → q = e)
    (hp : a.store.newest e.key = some p) (hle : e.payload.changeSeq ≤ p.changeSeq) :
    Settled t ⟨a.store, a.applied ++ [e]⟩ where
  sound := h.sound
  replays := h.replays
  known k q hq := mem_append_left _ (h.known k q hq)
  top x hx hmax := by
    have hstored := h.known e.key p hp
    have hx' : x ∈ a.applied := by
      rcases mem_append.mp hx with hx | hx
      · exact hx
      · -- the record is the stored one
        rw [mem_singleton.mp hx] at hmax ⊢
        have hle' := hmax _ (mem_append_left _ hstored) rfl
        rw [← hdistinct _ hstored rfl (le_antisymm hle' hle)]
        exact hstored
    exact h.top x hx' fun q hq => hmax q (mem_append_left _ hq)

/-- A record that is newer than the stored one. -/
lemma Settled.put {e : Entry} {now : ℕ} (he : e.Framed) (hnow : now ≤ t)
    (hdistinct : ∀ q ∈ a.applied, q.key = e.key → q.payload.changeSeq = e.payload.changeSeq → q = e)
    (hnew : ∀ p, a.store.newest e.key = some p → p.changeSeq < e.payload.changeSeq)
    (hmeets : e.payload.isDead now = true ∨ a.forgotten e = false) :
    Settled t ⟨a.store.putReplica e, a.applied ++ [e]⟩ where
  sound := h.sound.putReplica e
  replays := h.replays.putReplica he hnew
  known k q hq := by
    rw [newest_putReplica he.key.1] at hq
    split_ifs at hq with hk
    · cases hq
      rw [hk]
      exact mem_append_right _ (mem_singleton_self _)
    · exact mem_append_left _ (h.known k q hq)
  top x hx hmax := by
    rw [newest_putReplica he.key.1]
    split_ifs with hk
    · rcases mem_append.mp hx with hx | hx
      · rcases (hmax e (by simp) hk.symm).eq_or_lt with heq | hlt
        · rw [hdistinct x hx hk heq.symm]
          exact .inl rfl
        · -- the newest record is an earlier one: it was lost, and this one is dead
          have hlost : a.forgotten e = true := by
            refine any_eq_true.mpr ⟨x, hx, ?_⟩
            rw [Bool.and_eq_true, decide_eq_true_eq, Option.all_eq_true]
            exact ⟨⟨hk, hlt⟩, fun p hp => decide_eq_true ((hnew p hp).trans hlt)⟩
          have hdead : e.payload.isDead now = true :=
            hmeets.resolve_right fun hkept => by rw [hkept] at hlost; cases hlost
          refine .inr ⟨fun p hp => ?_, ?_⟩
          · cases hp
            exact Payload.isDead_mono hnow hdead
          · rcases h.top x hx fun q hq => hmax q (mem_append_left _ hq) with hstored | hgone
            · exact absurd (hnew _ (hk ▸ hstored)) hlt.le.not_gt
            · exact hgone.2
      · rw [mem_singleton.mp hx]
        exact .inl rfl
    · refine h.top x ?_ fun q hq => hmax q (mem_append_left _ hq)
      refine (mem_append.mp hx).resolve_right fun hx => hk ?_
      rw [mem_singleton.mp hx]

lemma Settled.flush {now : ℕ} (hnow : now ≤ t) :
    Settled t ⟨a.store.flushMemtableToSstable now, a.applied⟩ := by
  obtain ⟨hsound, hthin⟩ := h.sound.flush now
  refine h.maintain hsound ?_ hthin hnow
  rcases a.store.flush_cases now with heq | ⟨-, heq⟩
  · rw [heq]
    exact Store.Replays.flushMemtable a.store
  · rw [heq]
    exact (Store.Replays.flushMemtable a.store).compact now

lemma Settled.flushIfFull {now : ℕ} (hnow : now ≤ t) :
    Settled t ⟨a.store.flushIfFull now, a.applied⟩ := by
  unfold Store.flushIfFull
  split_ifs
  · exact h.flush hnow
  · exact h

end

/-- The records of the acts. -/
def records : List Act → List Entry
  | [] => []
  | .apply r _ _ :: acts => r.entry :: records acts
  | .flush _ :: acts => records acts
  | .compact _ :: acts => records acts
  | .restart :: acts => records acts

lemma Settled.step (h : a.Settled t) {act : Act} (hact : act.before t)
    (hdistinct : ∀ q ∈ a.applied, ∀ e ∈ records [act], q.key = e.key →
      q.payload.changeSeq = e.payload.changeSeq → q = e)
    (hmeets : a.meets act = true) : (a.step act).Settled t := by
  cases act with
  | apply r =>
    have hdist := fun q hq => hdistinct q hq r.entry mem_cons_self
    by_cases hnew : ∀ p, a.store.newest r.entry.key = some p →
        p.changeSeq < r.entry.payload.changeSeq
    · rw [meets, Bool.or_eq_true, Bool.not_eq_true'] at hmeets
      have hput := (h.put r.framed hact.1 hdist hnew hmeets).flushIfFull hact.2
      rw [Applying.step, Store.applyReplicaRecord_eq r.framed hnew]
      exact hput
    · push Not at hnew
      obtain ⟨p, hp, hle⟩ := hnew
      rw [Applying.step, Store.applyReplicaRecord_stale hp hle]
      exact h.again hdist hp hle
  | flush =>
    unfold Applying.step Store.syncStore
    split_ifs
    · exact h.flush hact
    · exact h
  | compact now =>
    exact h.maintain (h.sound.compact now).1 (h.replays.compact now) (h.sound.thins_compact now)
      hact
  | restart =>
    obtain ⟨hsound, hreplays, hnewest⟩ := h.replays.create h.sound
    exact h.thin hsound hreplays (.of_newest hnewest)

lemma applied_step (a : Applying) (act : Act) :
    (a.step act).applied = a.applied ++ records [act] := by
  cases act with
  | apply => rfl
  | flush | compact | restart => exact (append_nil _).symm

lemma records_cons (act : Act) (acts : List Act) :
    records (act :: acts) = records [act] ++ records acts := by
  cases act <;> rfl

/-- The records of one key with one sequence are the same. -/
def Distinct (es : List Entry) : Prop :=
  ∀ q ∈ es, ∀ e ∈ es, q.key = e.key → q.payload.changeSeq = e.payload.changeSeq → q = e

lemma Settled.run (h : a.Settled t) {acts : List Act} (hacts : ∀ act ∈ acts, act.before t)
    (hdistinct : Distinct (a.applied ++ records acts)) (hmeets : a.meetsAll acts = true) :
    (acts.foldl Applying.step a).Settled t ∧
      (acts.foldl Applying.step a).applied = a.applied ++ records acts := by
  induction acts generalizing a with
  | nil => exact ⟨h, (append_nil _).symm⟩
  | cons act acts ih =>
    rw [meetsAll, Bool.and_eq_true] at hmeets
    rw [records_cons, ← append_assoc, ← applied_step] at hdistinct ⊢
    refine ih (h.step (hacts act mem_cons_self) ?_ hmeets.1)
      (fun x hx => hacts x (mem_cons_of_mem _ hx)) hdistinct hmeets.2
    rw [applied_step] at hdistinct
    intro q hq e he
    exact hdistinct q (mem_append_left _ (mem_append_left _ hq)) e
      (mem_append_left _ (mem_append_right _ he))

lemma settled_fresh (t : ℕ) : Settled t ⟨.fresh [], []⟩ where
  sound := sound_fresh []
  replays := ⟨[], ⟨by simp, List.Pairwise.nil⟩, rfl, rfl⟩
  known k p hp := by
    rw [newest_fresh] at hp
    cases hp
  top e he := absurd he not_mem_nil

/-- Records with one sequence for one key, applied in any order and any number of times, with
flushes, compactions and restarts in between, leave every key as its record with the greatest
sequence has it, if no live record comes after a newer one of its key was dropped. -/
theorem apply_order_insensitive (acts : List Act) (hdistinct : Distinct (records acts))
    (hmeets : meetsAll ⟨.fresh [], []⟩ acts = true) (t : ℕ) (ht : ∀ act ∈ acts, act.before t) :
    (∀ e ∈ records acts,
        (∀ q ∈ records acts, q.key = e.key → q.payload.changeSeq ≤ e.payload.changeSeq) →
          (run acts).store.getUser e.key cleared t =
            if e.payload.isDead t then none else some e.payload.value) ∧
      ∀ k, (∀ e ∈ records acts, e.key ≠ k) → (run acts).store.getUser k cleared t = none := by
  obtain ⟨h, happlied⟩ := (settled_fresh t).run ht hdistinct hmeets
  have hknown := h.known
  have htop := h.top
  rw [happlied] at hknown htop
  refine ⟨fun e he hmax => ?_, fun k hk => ?_⟩
  · rcases htop e he hmax with hstored | ⟨hgone, hdead⟩
    · rw [run, getUser_eq, hstored]
      cases hd : e.payload.isDead t <;> simp [Option.filter, Store.readable, cleared, hd]
    · rw [if_pos hdead]
      exact getUser_eq_none_iff.mpr hgone
  · rw [getUser_eq_none_iff]
    intro p hp
    exact absurd rfl (hk _ (hknown k p hp))

end Applying

namespace Sample

/-- A key that is set, with the first sequence. -/
def sourceSet : ReplicaRecord where
  entry := ⟨[97], ⟨[98], 0, 1, 0, 0, false⟩⟩
  framed := ⟨by decide, by decide, by decide, by decide, by decide⟩

/-- The key is deleted, with the second sequence. -/
def sourceDel : ReplicaRecord where
  entry := ⟨[97], ⟨[], 0, 2, 0, 0, true⟩⟩
  framed := ⟨by decide, by decide, by decide, by decide, by decide⟩

/-- The deletion comes first and its tombstone is compacted away. -/
def setAfterTombstone : List Act :=
  [.apply sourceDel 5 5, .flush 5, .compact 5, .apply sourceSet 6 6]

/-- The key is back although its newest record is a tombstone. -/
theorem stale_set_revives_key :
    (run setAfterTombstone).store.getUser [97] cleared 6 = some [98] := by
  decide +kernel

/-- The deletion is compacted away after both records came, the first one twice. -/
def setThenTombstone : List Act :=
  [.apply sourceDel 5 5, .apply sourceSet 5 5, .flush 5, .restart, .apply sourceSet 6 6, .compact 7]

theorem apply_order_insensitive_setThenTombstone :
    (Distinct (records setThenTombstone) ∧
        meetsAll ⟨.fresh [], []⟩ setThenTombstone = true) ∧
      (run setThenTombstone).store.getUser [97] cleared 9 = none := by
  have hrecords : records setThenTombstone =
      [sourceDel.entry, sourceSet.entry, sourceSet.entry] := rfl
  have hdistinct : Distinct (records setThenTombstone) := by
    rw [hrecords]
    unfold Distinct
    decide
  have hmeets : meetsAll ⟨.fresh [], []⟩ setThenTombstone = true := by decide +kernel
  have ht : ∀ act ∈ setThenTombstone, Act.before 9 act := by
    simp [setThenTombstone, Act.before]
  refine ⟨⟨hdistinct, hmeets⟩, ?_⟩
  have htop := (apply_order_insensitive setThenTombstone hdistinct hmeets 9 ht).1
  rw [hrecords] at htop
  exact htop sourceDel.entry mem_cons_self (by decide)

end Sample

end Qihse.Kv
