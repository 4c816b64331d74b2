import Qihse.Bytes.Order
import Qihse.Federation.Lease

/-!
# Results of tasks

`qihse_task_complete` writes the result of a task to the store of texts, as it is or, where it has a
zero byte, in hexadecimal with `hex:` before it; `qihse_task_get_result` of a queue that does not
know the task reads it back. A result that starts with `hex:` itself is taken for an encoded one.
-/

namespace Qihse.Spinnaker

open Bytes Federation List Function

inductive TaskState
  | pending
  | started
  | success
  | failure
  | retrying
  | dead
  | cancelled
  deriving DecidableEq

structure Task where
  state : TaskState
  result : List UInt8

structure Queue where
  tasks : Text → Option Task
  kvStore : Kv

/-- `qihse_task_queue_create` over a store. -/
def Queue.create (kv : Kv) : Queue := ⟨fun _ => none, kv⟩

def resultKey (id : Text) : Text := fit 128 (ascii "result:" ++ id)

/-- The text that is stored for a result. -/
def resultText (result : List UInt8) : Text :=
  if 0 ∈ result then ascii "hex:" ++ result.flatMap hexByte else result

/-- `qihse_task_complete`; the answer is whether the task is known. -/
def Queue.complete (q : Queue) (id : Text) (result : List UInt8) : Bool × Queue :=
  match q.tasks id with
  | none => (false, q)
  | some _ =>
    let kv := q.kvStore.set (fit 128 (ascii "task:" ++ id)) (ascii "SUCCESS")
    (true, ⟨update q.tasks id (some ⟨.success, result⟩),
      if result = [] then kv else kv.set (resultKey id) (resultText result)⟩)

/-- `strtoul` in base sixteen, cut to a byte, on two characters. -/
def strtoulPair (a b : UInt8) : UInt8 :=
  match uuidHexVal a, uuidHexVal b with
  | some h, some l => UInt8.ofNat (16 * h + l)
  | some h, none => UInt8.ofNat h
  | none, l =>
    let value := UInt8.ofNat (l.getD 0)
    if a = 45 then -value else if a = 43 ∨ isSpace a then value else 0

/-- The loop over the pairs of characters after `hex:`. -/
def decodePairs : Text → List UInt8
  | a :: b :: rest => strtoulPair a b :: decodePairs rest
  | _ => []

/-- `qihse_task_get_result`. -/
def Queue.getResult (q : Queue) (id : Text) : Option (List UInt8) :=
  match q.tasks id with
  | some task => if task.state = .success then some task.result else none
  | none =>
    (q.kvStore (resultKey id)).map fun text =>
      if text.take 4 = ascii "hex:" then decodePairs (text.drop 4) else text

lemma decodePairs_hex (result : List UInt8) : decodePairs (result.flatMap hexByte) = result := by
  induction result with
  | nil => rfl
  | cons b result ih =>
    have hb := b.toNat_lt
    simp only [flatMap_cons, hexByte, cons_append, nil_append, decodePairs, strtoulPair, ih,
      uuidHexVal_hexDigit _ (show b.toNat / 16 < 16 by omega),
      uuidHexVal_hexDigit _ (show b.toNat % 16 < 16 by omega), Nat.div_add_mod]
    simp

lemma length_decodePairs (text : Text) : (decodePairs text).length ≤ text.length := by
  fun_induction decodePairs text with
  | case1 a b rest ih =>
    simp only [length_cons]
    omega
  | case2 => exact Nat.zero_le _

/-- The queue that completed a task has its result; a new one over the same store has it exactly if
the result is not taken for an encoded one. -/
theorem getResult_restart_iff {q : Queue} {id : Text} {result : List UInt8} (hne : result ≠ [])
    (hdone : (q.complete id result).1 = true) :
    (q.complete id result).2.getResult id = some result ∧
      ((Queue.create (q.complete id result).2.kvStore).getResult id = some result ↔
        0 ∈ result ∨ result.take 4 ≠ ascii "hex:") := by
  unfold Queue.complete at hdone ⊢
  cases htask : q.tasks id with
  | none => simp [htask] at hdone
  | some task =>
    simp only [if_neg hne]
    refine ⟨by simp [Queue.getResult], ?_⟩
    simp only [Queue.getResult, Queue.create, Kv.set, update_self, resultText, Option.map_some,
      Option.some.injEq]
    have hlen : (ascii "hex:").length = 4 := rfl
    by_cases hz : 0 ∈ result
    · simp [hz, take_left' hlen, drop_left' hlen, decodePairs_hex]
    · simp only [hz, if_false, false_or]
      split_ifs with hhex
      · -- what is decoded is shorter
        refine iff_of_false (fun heq => ?_) (not_not_intro hhex)
        have hle := length_decodePairs (result.drop 4)
        have htake := congrArg List.length hhex
        rw [heq, length_drop] at hle
        rw [length_take, hlen] at htake
        omega
      · exact iff_of_true rfl hhex

/-- A queue with one task that a worker has started. -/
def oneTask : Queue := ⟨fun _ => some ⟨.started, []⟩, fun _ => none⟩

theorem getResult_restart_binary :
    (Queue.create (oneTask.complete (ascii "t") [0, 1]).2.kvStore).getResult (ascii "t") =
      some [0, 1] :=
  (getResult_restart_iff (by decide) (by decide)).2.mpr (by decide)

/-- The result `hex:41` comes back as the one byte it would encode. -/
theorem getResult_restart_decoded :
    (oneTask.complete (ascii "t") (ascii "hex:41")).2.getResult (ascii "t") =
        some (ascii "hex:41") ∧
      (Queue.create (oneTask.complete (ascii "t") (ascii "hex:41")).2.kvStore).getResult
        (ascii "t") = some (ascii "A") := by
  decide +kernel

end Qihse.Spinnaker
