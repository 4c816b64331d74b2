import Qihse.Mvcc.Store

/-!
# What a snapshot sees of a chain

A reader at a snapshot is answered from three things only: the versions it can see, the committed
delete intents it can see, and their order. `view` lists them, newest first, and `answer` is the
reader's rule on that list. Two stores with the same views therefore give the same reads.
-/

namespace Qihse.Mvcc

open List Version

/-- A node of a chain as a reader takes it. -/
inductive Seen
  | data (xmin : ℕ) (value : Value)
  | intent (snapshot : ℕ)

/-- Written by a transaction that is committed and not younger than the snapshot. -/
def Version.settled (committed : ℕ → Bool) (snapshot : ℕ) (v : Version) : Bool :=
  decide (v.xmin ≤ snapshot) && committed v.xmin

def Version.see (committed : ℕ → Bool) (snapshot : ℕ) (v : Version) : Option Seen :=
  if v.isDelete then
    if v.settled committed snapshot then some (.intent v.deleteSnapshot) else none
  else if v.visible committed snapshot then some (.data v.xmin v.value)
  else none

def view (committed : ℕ → Bool) (snapshot : ℕ) (chain : List Version) : List Seen :=
  chain.filterMap (see committed snapshot)

/-- The first data node that no intent above it deletes. -/
def answer : List ℕ → List Seen → Option Value
  | _, [] => none
  | ds, .intent d :: below => answer (ds ++ [d]) below
  | ds, .data x value :: below =>
    if ds.any (fun d => decide (x ≤ d)) then answer ds below else some value

/-- A delete intent is evaluated at the id of the transaction that made it. -/
def IntentsOwn (chain : List Version) : Prop :=
  ∀ v ∈ chain, v.isDelete → v.deleteSnapshot = v.xmin

section Answer

variable {committed : ℕ → Bool} {snapshot : ℕ}

/-- The snapshots of the intents that a reader takes into account. -/
def intentsSeen (committed : ℕ → Bool) (snapshot : ℕ) (above : List Version) : List ℕ :=
  (above.filter fun p => p.isDelete && p.settled committed snapshot).map deleteSnapshot

section

variable {v : Version} (hv : v.visible committed snapshot)
include hv

lemma Version.settled_of_visible :
    v.settled committed snapshot := by
  unfold visible at hv
  unfold settled
  split_ifs at hv with h1 h2 <;> simp_all

/-- A version that is visible at a snapshot is visible at an earlier one unless it is younger. -/
lemma Version.visible_earlier {d : ℕ}
    (hd : d ≤ snapshot) : v.visible committed d = decide (v.xmin ≤ d) := by
  unfold visible at hv ⊢
  grind

lemma Version.deletedByIntent_eq {above : List Version} (hown : IntentsOwn above) :
    v.deletedByIntent committed snapshot above =
      (intentsSeen committed snapshot above).any (fun d => decide (v.xmin ≤ d)) := by
  rw [Bool.eq_iff_iff]
  simp only [deletedByIntent, intentsSeen, any_eq_true, mem_map,
    mem_filter, Bool.and_eq_true, decide_eq_true_eq, settled]
  constructor
  · rintro ⟨p, hp, ⟨⟨hdel, hle⟩, hc⟩, hvis⟩
    refine ⟨p.deleteSnapshot, ⟨p, ⟨hp, hdel, hle, hc⟩, rfl⟩, ?_⟩
    rw [v.visible_earlier hv (by rw [hown p hp hdel]; exact hle)] at hvis
    simpa using hvis
  · rintro ⟨_, ⟨p, ⟨hp, hdel, hle, hc⟩, rfl⟩, hx⟩
    refine ⟨p, hp, ⟨⟨hdel, hle⟩, hc⟩, ?_⟩
    rw [v.visible_earlier hv (by rw [hown p hp hdel]; exact hle)]
    simpa using hx

end

lemma intentsSeen_concat (above : List Version) (v : Version) :
    intentsSeen committed snapshot (above ++ [v]) = intentsSeen committed snapshot above ++
      if v.isDelete && v.settled committed snapshot then [v.deleteSnapshot] else [] := by
  unfold intentsSeen
  rw [filter_append, map_append]
  congr 1
  by_cases h : v.isDelete && v.settled committed snapshot <;> simp [h]

lemma intentsSeen_eq_nil {above : List Version} (h : above.countP isDelete = 0) :
    intentsSeen committed snapshot above = [] := by
  rw [countP_eq_zero] at h
  simp only [intentsSeen, map_eq_nil_iff, filter_eq_nil_iff]
  intro v hv
  simp [h v hv]

/-- Reading a chain is answering from its view. -/
lemma readChain_eq_answer {above chain : List Version} (hown : IntentsOwn (above ++ chain)) :
    readChain committed snapshot above (above.countP isDelete) chain =
      answer (intentsSeen committed snapshot above) (view committed snapshot chain) := by
  induction chain generalizing above with
  | nil => rfl
  | cons v below ih =>
    have ih := @ih (above ++ [v]) (by simpa using hown)
    rw [intentsSeen_concat] at ih
    unfold readChain view
    rw [filterMap_cons]
    cases hdel : v.isDelete with
    | true =>
      have hcount : (above ++ [v]).countP isDelete =
          above.countP isDelete + 1 := by simp [hdel]
      rw [hcount, hdel] at ih
      rw [if_pos rfl, ih]
      cases hset : v.settled committed snapshot <;> simp [see, hdel, hset, answer, view]
    | false =>
      have hcount : (above ++ [v]).countP isDelete =
          above.countP isDelete := by simp [hdel]
      rw [hcount, hdel] at ih
      simp only [Bool.false_and, Bool.false_eq_true, if_false, append_nil] at ih
      rw [if_neg (by simp), ih]
      cases hvis : v.visible committed snapshot with
      | false => simp [see, hdel, hvis, view]
      | true =>
        -- the shortcut for a chain without intents agrees with the search for one
        have hkeep : (above.countP isDelete == 0 ||
            !v.deletedByIntent committed snapshot above) =
              !(intentsSeen committed snapshot above).any (fun d => decide (v.xmin ≤ d)) := by
          rw [v.deletedByIntent_eq hvis fun p hp => hown p (by simp [hp])]
          by_cases hzero : above.countP isDelete = 0
          · simp [hzero, intentsSeen_eq_nil hzero]
          · simp [hzero]
        rw [hkeep]
        cases hany : (intentsSeen committed snapshot above).any
          (fun d => decide (v.xmin ≤ d)) <;> simp [see, hdel, hvis, answer, hany, view]

end Answer

/-- A store whose intents are all evaluated at the id of their transaction. -/
def Store.Own (s : Store) : Prop := ∀ e k, IntentsOwn (s.chain e k)

lemma Store.own_empty : Store.empty.Own := by
  intro e k v hv
  cases hv

lemma supersede_own {txn : ℕ} {chain : List Version} (h : IntentsOwn chain) :
    IntentsOwn (Store.supersede txn chain) := by
  induction chain with
  | nil => exact h
  | cons v below ih =>
    have hbelow : IntentsOwn below := fun w hw => h w (mem_cons_of_mem _ hw)
    unfold Store.supersede
    split_ifs with hdel hmax
    · exact forall_mem_cons.mpr ⟨h _ mem_cons_self, ih hbelow⟩
    · exact forall_mem_cons.mpr ⟨fun hc => absurd hc hdel, hbelow⟩
    · exact h

lemma Change.onChain_own (c : Change) {txn : ℕ} {chain : List Version} (h : IntentsOwn chain) :
    IntentsOwn (c.onChain txn chain) := by
  have hcons : ∀ {v : Version} {rest : List Version}, (v.isDelete → v.deleteSnapshot = v.xmin) →
      IntentsOwn rest → IntentsOwn (v :: rest) :=
    fun hv hrest => forall_mem_cons.mpr ⟨hv, hrest⟩
  cases c with
  | insert => exact hcons (by simp [create]) h
  | update => exact hcons (by simp [create]) (supersede_own h)
  | delete =>
    unfold onChain
    split_ifs
    · intro v hv
      simp at hv
    · exact hcons (fun _ => rfl) h

lemma Store.Own.mutate {s s' : Store} (h : s.Own) {txn : ℕ} {m : Mutation}
    (hm : s.mutate txn m = some s') : s'.Own := by
  intro e k
  rw [chain_mutate hm]
  split_ifs
  · exact m.change.onChain_own (h e k)
  · exact h e k

lemma Store.Own.read_eq {s : Store} (h : s.Own) (e : UInt8) (k : Key) (snapshot : ℕ)
    (committed : ℕ → Bool) :
    s.read e k snapshot committed = answer [] (view committed snapshot (s.chain e k)) := by
  rw [Store.read_eq]
  have hown : IntentsOwn ([] ++ s.chain e k) := h e k
  exact readChain_eq_answer hown

end Qihse.Mvcc
