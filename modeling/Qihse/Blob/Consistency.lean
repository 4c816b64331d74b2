import Qihse.Blob.Store

/-!
# Crash consistency of the blob store

Whatever a call leaves in the directory, whole or cut by a crash, is replayed to the entries before
the call or to those after it, and every entry has its object.
-/

open Bytes Crash Crash.Prog Function

namespace Qihse.Blob

section

variable (sha384 : List UInt8 → Hash)

/-- Every entry stands at its hash, would pass the replay, and has its object. -/
def Sound (objects : Hash → Option (List UInt8)) (entries : Index) : Prop :=
  ∀ ⦃h e⦄, entries h = some e →
    e.info.hash = h ∧ e.info.valid = true ∧ ∃ c, objects h = some c ∧ sha384 c = h

/-- The log says what is in memory. -/
structure Consistent (d : Disk) (entries : Index) : Prop where
  log : ∃ rs, (∀ r ∈ rs, r.valid = true) ∧ d.log = logOf rs ∧ entries = indexOf rs
  sound : Sound sha384 d.objects entries

/-- What a crash or a failed rollback leaves: the log of the entries before the call or after it,
and possibly a part of a record. -/
def Interrupted (d : Disk) (before after : Index) : Prop :=
  ∃ rs tail, (∀ r ∈ rs, r.valid = true) ∧ Cut tail ∧ d.log = logOf rs ++ tail ∧
    (indexOf rs = before ∨ indexOf rs = after) ∧ Sound sha384 d.objects (indexOf rs)

end

variable {sha384 : List UInt8 → Hash} {d : Disk} {entries before after : Index} {w : World}
  {Q : Bool → World → Prop} {C : World → Prop}

lemma Consistent.interrupted (h : Consistent sha384 d entries)
    (hentries : entries = before ∨ entries = after) : Interrupted sha384 d before after := by
  obtain ⟨rs, hrs, hlog, rfl⟩ := h.log
  exact ⟨rs, [], hrs, cut_nil, by rw [hlog, List.append_nil], hentries, h.sound⟩

/-- A store is created on what a crash left. -/
lemma Interrupted.create (h : Interrupted sha384 d before after) :
    ∃ d' store, create d = some (d', store) ∧ Consistent sha384 d' store.entries ∧
      (store.entries = before ∨ store.entries = after) := by
  obtain ⟨rs, tail, hrs, hcut, hlog, heq, hsound⟩ := h
  refine ⟨{ d with log := logOf rs }, ⟨indexOf rs, false⟩, ?_, ⟨⟨rs, hrs, rfl, rfl⟩, hsound⟩, heq⟩
  rw [Blob.create, hlog, logReplay_logOf hrs hcut]
  rfl

/-! ### Objects -/

namespace Sound

variable {objects : Hash → Option (List UInt8)} {h : Hash} {e : Entry} {c : List UInt8}

section

variable (hs : Sound sha384 objects entries)
include hs

lemma set (hhash : e.info.hash = h)
    (hvalid : e.info.valid = true) (hobj : objects h = some c) (hc : sha384 c = h) :
    Sound sha384 objects (update entries h (some e)) := by
  intro h' e' he'
  by_cases heq : h' = h
  · subst heq
    rw [update_self] at he'
    cases he'
    exact ⟨hhash, hvalid, c, hobj, hc⟩
  · rw [update_of_ne heq] at he'
    exact hs he'

lemma erase (h : Hash) : Sound sha384 objects (update entries h none) := by
  intro h' e' he'
  by_cases heq : h' = h
  · subst heq
    rw [update_self] at he'
    cases he'
  · rw [update_of_ne heq] at he'
    exact hs he'

/-- An object is put where its hash says. -/
lemma setObject (c : List UInt8) :
    Sound sha384 (update objects (sha384 c) (some c)) entries := by
  intro h' e' he'
  obtain ⟨hhash, hvalid, c', hc', hsha⟩ := hs he'
  by_cases heq : h' = sha384 c
  · exact ⟨hhash, hvalid, c, by rw [heq, update_self], heq.symm⟩
  · exact ⟨hhash, hvalid, c', by rwa [update_of_ne heq], hsha⟩

/-- An object without an entry is removed. -/
lemma eraseObject (hnone : entries h = none) :
    Sound sha384 (update objects h none) entries := by
  intro h' e' he'
  have hne : h' ≠ h := by
    rintro rfl
    rw [hnone] at he'
    cases he'
  obtain ⟨hhash, hvalid, c', hc', hsha⟩ := hs he'
  exact ⟨hhash, hvalid, c', by rwa [update_of_ne hne], hsha⟩

end

end Sound

/-! ### Steps -/

@[simp]
lemma sat_getStore {Q : Store → World → Prop} : getStore.Sat w Q C ↔ Q w.store w := Iff.rfl

lemma sat_syscall (hok : ∀ plan, Q true { w with plan := plan })
    (hfail : ∀ plan, Q false { w with plan := plan }) (hcrash : ∀ plan, C { w with plan := plan }) :
    syscall.Sat w Q C := by
  obtain ⟨d, store, plan⟩ := w
  cases plan with
  | nil => exact hok []
  | cons io plan =>
    cases io with
    | ok => exact hok plan
    | fail => exact hfail plan
    | crash => exact hcrash plan

lemma sat_setObject {h : Hash} {c : Option (List UInt8)}
    (hok : ∀ plan, Q true
      ⟨{ w.disk with objects := update w.disk.objects h c }, w.store, plan⟩)
    (hfail : ∀ plan, Q false { w with plan := plan }) (hcrash : ∀ plan, C { w with plan := plan }) :
    (setObject h c).Sat w Q C := by
  rw [setObject, sat_bind]
  refine sat_syscall (fun plan => ?_) (fun plan => ?_) hcrash
  · exact hok plan
  · exact hfail plan

lemma sat_logAppend {r : LogRecord} (hp : w.store.poisoned = false)
    (hok : ∀ plan, Q true ⟨w.disk.append r.encode, w.store, plan⟩)
    (hfail : ∀ plan (left : Option ℕ), Q false ⟨w.disk.append (r.encode.take (left.getD 0)),
      { w.store with poisoned := left.isSome }, plan⟩)
    (hcrash : ∀ plan n, C ⟨w.disk.append (r.encode.take n), w.store, plan⟩) :
    (logAppend r).Sat w Q C := by
  obtain ⟨d, store, plan⟩ := w
  unfold Sat logAppend
  rw [if_neg (Bool.eq_false_iff.mp hp)]
  cases plan with
  | nil => exact hok []
  | cons io plan =>
    cases io with
    | ok => exact hok plan
    | fail left => exact hfail plan left
    | crash n => exact hcrash plan n

/-- What an append to the log leaves: the entries before it or after it, or, where it could not be
rolled back, those before it in memory and either of them on the disk. -/
inductive Commits (sha384 : List UInt8 → Hash) (before after : Index) : Bool → World → Prop
  | settled {ok : Bool} {w : World} (h : Consistent sha384 w.disk w.store.entries)
    (heq : w.store.entries = if ok then after else before) (hp : w.store.poisoned = false) :
    Commits sha384 before after ok w
  | torn {w : World} (h : Interrupted sha384 w.disk before after)
    (hs : Sound sha384 w.disk.objects before) (heq : w.store.entries = before)
    (hp : w.store.poisoned = true) : Commits sha384 before after false w

/-- A record that says what the memory is changed to. -/
lemma sat_commit {r : LogRecord} {h : Hash} {e : Option Entry}
    (hw : Consistent sha384 w.disk w.store.entries) (hp : w.store.poisoned = false)
    (hr : r.valid = true) (hmem : update w.store.entries h e = w.store.entries.apply r)
    (hafter : w.store.entries.apply r = after) (hsound : Sound sha384 w.disk.objects after) :
    (commit r h e).Sat w (Commits sha384 w.store.entries after)
      (fun w' => Interrupted sha384 w'.disk w.store.entries after) := by
  subst hafter
  obtain ⟨rs, hrs, hlog, heq⟩ := hw.log
  have hrs' : ∀ r' ∈ rs ++ [r], r'.valid = true := by
    simpa [or_imp, forall_and] using ⟨hrs, hr⟩
  have hidx : indexOf (rs ++ [r]) = w.store.entries.apply r := by rw [indexOf_concat, heq]
  have hwhole : w.disk.log ++ r.encode = logOf (rs ++ [r]) := by rw [hlog, logOf_concat]
  have hpart (n : ℕ) : Interrupted sha384 (w.disk.append (r.encode.take n)) w.store.entries
      (w.store.entries.apply r) := by
    by_cases hn : n < r.encode.length
    · exact ⟨rs, r.encode.take n, hrs, ⟨r, n, hn, rfl⟩, by rw [Disk.log_append, hlog],
        .inl heq.symm, heq ▸ hw.sound⟩
    · refine ⟨rs ++ [r], [], hrs', cut_nil, ?_, .inr hidx, hidx ▸ hsound⟩
      rw [Disk.log_append, List.append_nil, ← hwhole, List.take_of_length_le (not_lt.mp hn)]
  rw [commit, sat_bind]
  refine sat_logAppend hp (fun plan => ?_) (fun plan left => ?_) (fun plan n => hpart n)
  · refine .settled ⟨⟨rs ++ [r], hrs', hwhole, hmem.trans hidx.symm⟩, ?_⟩ hmem hp
    show Sound sha384 w.disk.objects (update w.store.entries h e)
    rwa [hmem]
  · cases left with
    | none => exact .settled ⟨⟨rs, hrs, by simpa using hlog, heq⟩, hw.sound⟩ rfl rfl
    | some n => exact .torn (hpart n) hw.sound rfl rfl

/-! ### Calls -/

/-- The call takes the entries to `after` or leaves them alone, also where it crashes. -/
abbrev Atomic (sha384 : List UInt8 → Hash) (m : Prog World Bool) (w : World)
    (after : Index) : Prop :=
  m.Sat w (fun ok w' => ok = false ∧ w'.disk = w.disk ∧ w'.store = w.store ∨
      w.store.poisoned = false ∧ Commits sha384 w.store.entries after ok w')
    (fun w' => w'.disk = w.disk ∨ Interrupted sha384 w'.disk w.store.entries after)

section

variable {h : Hash} {e : Entry} {i : Info}

lemma Index.apply_info (op : InfoOp) (he : entries h = some e) (hi : i.hash = h) :
    entries.apply (.info op i) = update entries h (some { e with info := i }) := by
  subst hi
  simp [apply, he]

lemma Info.valid_incRef (hi : i.valid = true) (hmax : i.refcount ≠ 0xffffffff) :
    i.incRef.valid = true := by
  have hpos : i.refcount + 1 ≠ 0 := by
    intro hzero
    apply hmax
    rw [← UInt32.toNat_inj] at hzero ⊢
    have hlt := i.refcount.toNat_lt
    simp only [UInt32.toNat_add, UInt32.reduceToNat] at hzero ⊢
    omega
  simp only [valid, incRef, Bool.and_eq_true] at hi ⊢
  exact ⟨⟨⟨⟨decide_eq_true hpos, hi.1.1.1.2⟩, hi.1.1.2⟩, hi.1.2⟩, hi.2⟩

lemma Info.valid_decRef (hi : i.valid = true) (hmany : i.refcount > 1) : i.decRef.valid = true := by
  have hpos : i.refcount - 1 ≠ 0 := by
    intro hzero
    rw [gt_iff_lt, UInt32.lt_iff_toNat_lt] at hmany
    have hle : (1 : UInt32) ≤ i.refcount := UInt32.le_of_lt hmany
    rw [← UInt32.toNat_inj, UInt32.toNat_sub_of_le _ _ hle] at hzero
    simp only [UInt32.reduceToNat] at hzero hmany
    omega
  simp only [valid, decRef, Bool.and_eq_true] at hi ⊢
  exact ⟨⟨⟨⟨decide_eq_true hpos, hi.1.1.1.2⟩, hi.1.1.2⟩, hi.1.2⟩, hi.2⟩

end

lemma length_readAll {limit : ℕ} {eof : Bool} {chunks : List (List UInt8)} {acc c : List UInt8}
    (hacc : acc.length ≤ limit) (h : readAll limit eof chunks acc = some c) : c.length ≤ limit := by
  induction chunks generalizing acc with
  | nil =>
    unfold readAll at h
    split_ifs at h
    cases h
    exact hacc
  | cons x xs ih =>
    unfold readAll at h
    split_ifs at h with hnil hlong
    · cases h
      exact hacc
    · refine ih ?_ h
      simp only [Bool.or_eq_true, decide_eq_true_eq, not_or, not_lt] at hlong
      rw [List.length_append]
      omega

/-- What passes the checks of a put passes those of the replay. -/
lemma valid_newInfo {user : User} {b : Binding} {source : Source} {c : List UInt8}
    (hput : user.mayPut b = true) (hc : source.content b.tag = some c) :
    (newInfo (sha384 c) c b).valid = true := by
  have hlen := length_readAll (Nat.zero_le _) hc
  have hsize : (UInt64.ofNat c.length).toNat ≤ sizeLimit b.tag := by
    exact (Nat.mod_le _ _).trans hlen
  simp only [User.mayPut, Bool.and_eq_true, Bool.or_eq_true, decide_eq_true_eq, and_assoc] at hput
  obtain ⟨-, htag, hle, hrepl, -⟩ := hput
  simp only [Info.valid, newInfo, Bool.and_eq_true, Bool.or_eq_true]
  refine ⟨⟨⟨⟨rfl, decide_eq_true htag⟩, decide_eq_true hle⟩, decide_eq_true hsize⟩, ?_⟩
  exact hrepl.imp decide_eq_true fun h => decide_eq_true h.1

lemma sat_openEntry {user : User} {h : Hash} {Q : Option Entry → World → Prop} (hnone : Q none w)
    (hsome : ∀ e, w.store.entries h = some e → w.store.poisoned = false → Q (some e) w) :
    (openEntry user h).Sat w Q C := by
  rw [openEntry, sat_ite]
  refine ⟨fun _ => hnone, fun _ => ?_⟩
  rw [sat_bind, sat_getStore, sat_pure]
  split_ifs with hp
  · exact hnone
  · cases hfound : (w.store.entries h).filter user.owns with
    | none => exact hnone
    | some e => exact hsome e (Option.filter_eq_some_iff.mp hfound).1 (Bool.eq_false_iff.mpr hp)

lemma atomic_guard {c : Prop} [Decidable c] {m : Prog World Bool}
    (h : ¬ c → Atomic sha384 m w after) : Atomic sha384 (if c then pure false else m) w after :=
  (sat_ite c _ m).mpr ⟨fun _ => .inl ⟨rfl, rfl, rfl⟩, h⟩

section

variable {user : User} {h : Hash} (hw : Consistent sha384 w.disk w.store.entries)
  (hp : w.store.poisoned = false)
include hw hp

lemma atomic_commit {r : LogRecord} {e : Option Entry} (hr : r.valid = true)
    (hmem : update w.store.entries h e = w.store.entries.apply r)
    (hafter : w.store.entries.apply r = after) (hsound : Sound sha384 w.disk.objects after) :
    Atomic sha384 (commit r h e) w after :=
  (sat_commit hw hp hr hmem hafter hsound).mono (fun _ _ hc => .inr ⟨hp, hc⟩) fun _ => .inr

/-- The state of an entry is replaced by another one of the same blob. -/
lemma atomic_commit_info {e : Entry} {i : Info} (op : InfoOp) (he : w.store.entries h = some e)
    (hi : i.valid = true) (hhash : i.hash = e.info.hash) :
    Atomic sha384 (commit (.info op i) h (some { e with info := i })) w
      (update w.store.entries h (some { e with info := i })) := by
  obtain ⟨hh, -, c, hobj, hc⟩ := hw.sound he
  have happly : w.store.entries.apply (.info op i) = _ := Index.apply_info op he (hhash.trans hh)
  exact atomic_commit hw hp hi happly.symm happly (hw.sound.set (hhash.trans hh) hi hobj hc)

/-- The pins of an entry are changed. -/
lemma atomic_commit_pins {e : Entry} {n : UInt32} {r : LogRecord}
    (he : w.store.entries h = some e) (hr : r.valid = true)
    (happly : w.store.entries.apply r = update w.store.entries h (some { e with pinCount := n })) :
    Atomic sha384 (commit r h (some { e with pinCount := n })) w
      (update w.store.entries h (some { e with pinCount := n })) := by
  obtain ⟨hh, hvalid, c, hobj, hc⟩ := hw.sound he
  exact atomic_commit hw hp hr happly.symm happly (hw.sound.set hh hvalid hobj hc)

/-- The entry goes first, its object after it. -/
lemma atomic_removeEntry (h : Hash) :
    Atomic sha384 (removeEntry h) w (update w.store.entries h none) := by
  rw [Atomic, removeEntry, sat_bind]
  refine (sat_commit (r := .del h) hw hp rfl rfl rfl (hw.sound.erase h)).mono
    (fun ok w' hcommit => ?_) fun _ => .inr
  cases ok with
  | false => exact .inr ⟨hp, hcommit⟩
  | true =>
    cases hcommit with
    | settled hc heq hp' =>
      change w'.store.entries = update w.store.entries h none at heq
      have hgone : w'.store.entries h = none := by rw [heq, update_self]
      have hobj : Consistent sha384
          { w'.disk with objects := update w'.disk.objects h none } w'.store.entries :=
        ⟨hc.log, hc.sound.eraseObject hgone⟩
      rw [if_pos rfl, sat_bind]
      refine sat_setObject (fun plan => ?_) (fun plan => ?_) (fun plan => ?_)
      · rw [if_pos rfl, sat_bind]
        refine sat_syscall (fun plan => .inr ⟨hp, .settled hobj heq hp'⟩)
          (fun plan => .inr ⟨hp, .settled hobj heq hp'⟩)
          (fun plan => .inr (hobj.interrupted (.inr heq)))
      · exact .inr ⟨hp, .settled hc heq hp'⟩
      · exact .inr (hc.interrupted (.inr heq))

end

section

variable {user : User} {h : Hash}
  (hw : w.store.poisoned = false → Consistent sha384 w.disk w.store.entries)
include hw

lemma atomic_putInternal (user : User) (b : Binding) (source : Source)
    (expected : Option (Hash × ℕ)) :
    Atomic sha384 (putInternal sha384 user b source expected) w
      (effect sha384 w.store.entries (.put user b source expected)) := by
  unfold putInternal
  refine atomic_guard fun _ => atomic_guard fun hput => ?_
  rw [Bool.not_eq_true', Bool.not_eq_false] at hput
  cases hcont : source.content b.tag with
  | none =>
    rw [Atomic, sat_bind]
    exact sat_syscall (fun plan => .inl ⟨rfl, rfl, rfl⟩) (fun plan => .inl ⟨rfl, rfl, rfl⟩)
      (fun plan => .inl rfl)
  | some c =>
    have heffect : effect sha384 w.store.entries (.put user b source expected) =
        update w.store.entries (sha384 c) (some
          ((w.store.entries (sha384 c)).elim ⟨newInfo (sha384 c) c b, 0⟩ fun e =>
            { e with info := e.info.incRef })) := by
      simp [effect, hcont]
    rw [heffect, Atomic, sat_bind]
    refine sat_syscall (fun plan => ?_) (fun plan => ?_) (fun plan => .inl rfl)
    · refine atomic_guard fun _ => ?_
      rw [Atomic, sat_bind, sat_getStore]
      refine atomic_guard fun hp => ?_
      have hp := Bool.eq_false_iff.mpr hp
      have hw := hw hp
      cases hentry : w.store.entries (sha384 c) with
      | some =>
        refine atomic_guard fun _ => atomic_guard fun hmax => ?_
        exact atomic_commit_info (w := { w with plan := plan }) hw hp .ref hentry
          (Info.valid_incRef (hw.sound hentry).2.1 hmax) rfl
      | none =>
        rw [Atomic, sat_bind]
        refine sat_syscall (fun plan => ?_) (fun plan => .inl ⟨rfl, rfl, rfl⟩)
          (fun plan => .inl rfl)
        rw [if_pos rfl, sat_bind]
        refine sat_setObject (fun plan => ?_) (fun plan => .inl ⟨rfl, rfl, rfl⟩)
          (fun plan => .inl rfl)
        -- the object is in its place before anything refers to it
        have hobj : Consistent sha384
            { w.disk with objects := update w.disk.objects (sha384 c) (some c) }
            w.store.entries := ⟨hw.log, hw.sound.setObject c⟩
        rw [if_pos rfl, sat_bind]
        refine sat_syscall (fun plan => ?_) (fun plan => .inr ⟨hp, .settled hobj rfl hp⟩)
          (fun plan => .inr (hobj.interrupted (.inl rfl)))
        have happly : w.store.entries.apply (.info .put (newInfo (sha384 c) c b)) =
            update w.store.entries (sha384 c) (some ⟨newInfo (sha384 c) c b, 0⟩) := by
          simp [Index.apply, newInfo, hentry]
        refine Sat.mono (sat_commit (w := ⟨{ w.disk with
            objects := update w.disk.objects (sha384 c) (some c) }, w.store, plan⟩)
          hobj hp (valid_newInfo hput hcont) happly.symm happly ?_)
          (fun _ _ hc => .inr ⟨hp, hc⟩) fun _ => .inr
        exact hobj.sound.set rfl (valid_newInfo hput hcont) (update_self _ _ _) rfl
    · rw [sat_ite]
      exact ⟨fun _ => .inl ⟨rfl, rfl, rfl⟩, fun hno => absurd (by simp) hno⟩

/-- The rule for the calls that change the references of an entry. -/
lemma atomic_mutateRef (up allowDelete : Bool)
    (hup : up = true → ∀ e, w.store.entries h = some e → after =
      update w.store.entries h (some { e with info := e.info.incRef }))
    (hdown : up = false → ∀ e, w.store.entries h = some e → e.info.refcount > 1 → after =
      update w.store.entries h (some { e with info := e.info.decRef }))
    (hdelete : allowDelete = true → up = false → ∀ e, w.store.entries h = some e →
      ¬ e.info.refcount > 1 → ¬ e.pinCount > 0 → after = update w.store.entries h none) :
    Atomic sha384 (mutateRef user h up allowDelete) w after := by
  rw [Atomic, mutateRef, sat_bind]
  refine sat_openEntry (.inl ⟨rfl, rfl, rfl⟩) fun e he hp => ?_
  have hw := hw hp
  have hvalid := (hw.sound he).2.1
  rw [sat_ite]
  refine ⟨fun hu => ?_, fun hu => ?_⟩
  · refine atomic_guard fun hmax => ?_
    rw [hup hu e he]
    exact atomic_commit_info hw hp .ref he (Info.valid_incRef hvalid hmax) rfl
  · rw [Bool.not_eq_true] at hu
    rw [sat_ite]
    refine ⟨fun hmany => ?_, fun hlast => ?_⟩
    · rw [hdown hu e he hmany]
      exact atomic_commit_info hw hp .unref he (Info.valid_decRef hvalid hmany) rfl
    · refine atomic_guard fun hfree => ?_
      simp only [Bool.or_eq_true, Bool.not_eq_true', decide_eq_true_eq, not_or,
        Bool.not_eq_false] at hfree
      rw [hdelete hfree.1 hu e he hlast hfree.2]
      exact atomic_removeEntry hw hp h

lemma atomic_pinUser : Atomic sha384 (pinUser user h) w
      (effect sha384 w.store.entries (.pin user h)) := by
  rw [Atomic, pinUser, sat_bind]
  refine sat_openEntry (.inl ⟨rfl, rfl, rfl⟩) fun e he hp => ?_
  refine atomic_guard fun _ => ?_
  rw [effect, he]
  exact atomic_commit_pins (hw hp) hp he rfl (by simp [Index.apply, he])

lemma atomic_unpinUser : Atomic sha384 (unpinUser user h) w
      (effect sha384 w.store.entries (.unpin user h)) := by
  rw [Atomic, unpinUser, sat_bind]
  refine sat_openEntry (.inl ⟨rfl, rfl, rfl⟩) fun e he hp => ?_
  refine atomic_guard fun hpinned => ?_
  have hpos : e.pinCount > 0 := UInt32.pos_iff_ne_zero.mpr hpinned
  rw [effect, he]
  exact atomic_commit_pins (hw hp) hp he rfl (by simp [Index.apply, he, hpos])

/-- Every call does all of what it is for, or nothing. -/
lemma atomic_prog (op : Op) :
    Atomic sha384 (op.prog sha384) w (effect sha384 w.store.entries op) := by
  cases op with
  | put user b source expected => exact atomic_putInternal hw user b source expected
  | ref =>
    refine atomic_mutateRef hw true false (fun _ e he => ?_) nofun nofun
    simp [effect, he]
  | unref =>
    refine atomic_mutateRef hw false false nofun (fun _ e he _ => ?_) nofun
    simp [effect, he]
  | delete =>
    refine atomic_mutateRef hw false true nofun (fun _ e he hmany => ?_)
      (fun _ _ e he hlast hfree => ?_)
    · simp [effect, he, hmany]
    · simp [effect, he, hlast, hfree]
  | pin => exact atomic_pinUser hw
  | unpin => exact atomic_unpinUser hw

end

/-! ### Runs -/

/-- Entries that an act may leave: the same ones, or what a call makes of them. -/
def Next (sha384 : List UInt8 → Hash) (before after : Index) : Prop :=
  after = before ∨ ∃ op, after = effect sha384 before op

namespace State

/-- The store is open and says what the calls so far explain, and so does what a crash would leave;
only a poisoned store has another log. -/
structure Good (sha384 : List UInt8 → Hash) (s : State) (store : Store) : Prop where
  isOpen : s.store = some store
  sound : Sound sha384 s.disk.objects store.entries
  explained : Explains sha384 s.trace store.entries
  interrupted : ∃ after, Interrupted sha384 s.disk store.entries after ∧
    Explains sha384 s.trace after ∧ Next sha384 store.entries after
  consistent : store.poisoned = false → Consistent sha384 s.disk store.entries

variable {s : State} {store : Store} {trace : List (Op × Outcome)}

lemma good_of_consistent (h : Consistent sha384 d store.entries)
    (hexp : Explains sha384 trace store.entries) : Good sha384 ⟨d, some store, trace⟩ store where
  isOpen := rfl
  sound := h.sound
  explained := hexp
  interrupted := ⟨_, h.interrupted (.inl rfl), hexp, .inl rfl⟩
  consistent _ := h

lemma good_reopened (h : Interrupted sha384 d before after) (hbefore : Explains sha384 trace before)
    (hafter : Explains sha384 trace after) (hnext : Next sha384 before after) :
    ∃ store, Good sha384 (reopened d trace) store ∧ Next sha384 before store.entries := by
  obtain ⟨d', store, hcreate, hcons, heq⟩ := h.create
  rw [reopened, hcreate]
  refine ⟨store, good_of_consistent hcons ?_, ?_⟩
  · rcases heq with heq | heq <;> rwa [heq]
  · rcases heq with heq | heq <;> rw [heq]
    · exact .inl rfl
    · exact hnext

lemma Good.step (h : s.Good sha384 store) (a : Act) : ∃ store',
    (s.step sha384 a).Good sha384 store' ∧ Next sha384 store.entries store'.entries := by
  obtain ⟨after, hstop, hafter, hnext⟩ := h.interrupted
  cases a with
  | restart => exact good_reopened hstop h.explained hafter hnext
  | call op plan =>
    have hsat := atomic_prog (w := ⟨s.disk, store, plan⟩) h.consistent op
    simp only [State.step, h.isOpen]
    unfold Atomic Sat at hsat
    rcases hrun : op.prog sha384 ⟨s.disk, store, plan⟩ with ⟨_ | ok, w⟩ <;> rw [hrun] at hsat
    · rcases hsat with hdisk | hcut
      · exact good_reopened (hdisk ▸ hstop) (.lost op h.explained) (.lost op hafter) hnext
      · exact good_reopened hcut (.lost op h.explained) (.kept op h.explained) (.inr ⟨op, rfl⟩)
    · refine ⟨w.store, ?_⟩
      dsimp only
      rcases hsat with ⟨rfl, hdisk, hstore⟩ | ⟨hp, hcommit⟩
      · rw [hdisk, hstore, Bool.and_not_self]
        exact ⟨⟨rfl, h.sound, .refused op h.explained, ⟨after, hstop, .refused op hafter, hnext⟩,
          h.consistent⟩, .inl rfl⟩
      · cases hcommit with
        | settled hcons heq hp' =>
          rw [hp', Bool.false_and]
          cases ok with
          | true =>
            exact ⟨good_of_consistent hcons (heq ▸ .done op h.explained), .inr ⟨op, heq⟩⟩
          | false => exact ⟨good_of_consistent hcons (heq ▸ .refused op h.explained), .inl heq⟩
        | torn hcut hs heq hp' =>
          obtain ⟨d', ⟨idx, poisoned⟩, plan'⟩ := w
          obtain rfl : idx = store.entries := heq
          obtain rfl : poisoned = true := hp'
          rw [show store.poisoned = false from hp]
          exact ⟨⟨rfl, hs, .lost op h.explained, ⟨_, hcut, .kept op h.explained, .inr ⟨op, rfl⟩⟩,
            nofun⟩, .inl rfl⟩

lemma good_init : init.Good sha384 ⟨.empty, false⟩ :=
  good_of_consistent ⟨⟨[], nofun, rfl, rfl⟩, nofun⟩ .nil

lemma good_run (acts : List Act) : ∃ store, (init.run sha384 acts).Good sha384 store := by
  refine List.foldlRecOn acts _ (motive := fun s => ∃ store, Good sha384 s store)
    ⟨_, good_init⟩ fun s hs a _ => ?_
  obtain ⟨store, hgood⟩ := hs
  exact (hgood.step a).imp fun _ => And.left

end State

open State

/-- A call never takes away an entry that is pinned or has other references. -/
lemma effect_keeps (op : Op) {h : Hash} {e : Entry} (he : entries h = some e)
    (hkeep : e.pinCount > 0 ∨ e.info.refcount > 1) :
    ∃ e', effect sha384 entries op h = some e' := by
  have hupdate {h' : Hash} {x : Option Entry} (hx : h = h' → ∃ e', x = some e') :
      ∃ e', update entries h' x h = some e' := by
    by_cases heq : h = h'
    · subst heq
      rw [update_self]
      exact hx rfl
    · exact ⟨e, by rwa [update_of_ne heq]⟩
  cases op with
  | put user b source =>
    unfold effect
    dsimp only
    cases source.content b.tag with
    | none => exact ⟨e, he⟩
    | some => exact hupdate fun _ => ⟨_, rfl⟩
  | ref | unref | pin | unpin => exact hupdate fun heq => by simp [← heq, he]
  | delete =>
    refine hupdate fun heq => ?_
    rw [← heq, he, Option.bind_some]
    split_ifs with hmany hpin
    · exact ⟨_, rfl⟩
    · exact ⟨_, rfl⟩
    · exact absurd hkeep (not_or.mpr ⟨hpin, hmany⟩)

/-- After any calls and crashes the store is open and holds what the calls that returned true say,
with or without those that were cut or could not be rolled back; every entry has its object; and no
act takes away an entry that is pinned or has more than one reference. -/
theorem crash_consistent (sha384 : List UInt8 → Hash) (acts : List Act) :
    (∃ store, (init.run sha384 acts).store = some store ∧
      Explains sha384 (init.run sha384 acts).trace store.entries ∧
      ∀ h e, store.entries h = some e → e.info.hash = h ∧
        ∃ c, (init.run sha384 acts).disk.objects h = some c ∧ sha384 c = h) ∧
    ∀ pre a post, acts = pre ++ a :: post → ∀ h e,
      (init.run sha384 pre).entries h = some e → e.pinCount > 0 ∨ e.info.refcount > 1 →
        ∃ e', (init.run sha384 (pre ++ [a])).entries h = some e' := by
  constructor
  · obtain ⟨store, hgood⟩ := @good_run sha384 acts
    refine ⟨store, hgood.isOpen, hgood.explained, fun h e he => ?_⟩
    obtain ⟨hhash, -, hobj⟩ := hgood.sound he
    exact ⟨hhash, hobj⟩
  · intro pre a post _ h e he hkeep
    obtain ⟨store, hgood⟩ := @good_run sha384 pre
    obtain ⟨store', hgood', hnext⟩ := hgood.step a
    have hrun : init.run sha384 (pre ++ [a]) = (init.run sha384 pre).step sha384 a := by
      simp [run]
    rw [entries, hgood.isOpen] at he
    rw [hrun, entries, hgood'.isOpen]
    change ∃ e', store'.entries h = some e'
    rcases hnext with heq | ⟨op, heq⟩
    · exact ⟨e, by rwa [heq]⟩
    · rw [heq]
      exact effect_keeps op he hkeep

end Qihse.Blob
