import Qihse.Bytes.Codec
import Qihse.Federation.Lease

/-!
# The page cache of the SQLite VFS

`qihse_vfs_page_cache.c` keeps pages as hexadecimal texts in a store of texts, under their numbers.
A truncation walks upwards from its cutoff and stops at the first page that is missing, so it is
complete where the pages to drop follow one another from the cutoff.
-/

namespace Qihse.Vfs

open Bytes Federation List Function Option

/-- `fmt_page_key`. -/
def fmtPageKey (id : ℕ) : Text := ascii "P" ++ (be 8 id).flatMap hexByte

/-- `hex_decode`. -/
def hexDecode : Text → Option (List UInt8)
  | [] => some []
  | [_] => none
  | hi :: lo :: rest => do
    let h ← uuidHexVal hi
    let l ← uuidHexVal lo
    return UInt8.ofNat (16 * h + l) :: (← hexDecode rest)

/-- `qihse_vfs_cache_get` with room for `size` bytes. -/
def cacheGet (kv : Kv) (id : UInt64) (size : ℕ) : Option (List UInt8) :=
  if size = 0 then none
  else (kv (fmtPageKey id.toNat)).bind fun hex =>
    if hex.length = size * 2 then hexDecode hex else none

/-- `KV_MAX_VALUE_LEN`. -/
def kvMaxValueLen : ℕ := 16 * 1024 * 1024

/-- `qihse_vfs_cache_put`. The store refuses a text that is too long, and the answer is dropped. -/
def cachePut (kv : Kv) (id : UInt64) (buf : List UInt8) : Kv :=
  let hex := buf.flatMap hexByte
  if buf = [] ∨ kvMaxValueLen < hex.length then kv else kv.set (fmtPageKey id.toNat) hex

/-- The loop of `qihse_vfs_cache_evict_above`, with `n` ids left below its limit. -/
def evictFrom : ℕ → Kv → ℕ → Kv
  | 0, kv, _ => kv
  | n + 1, kv, id =>
    if (kv (fmtPageKey id)).isSome then evictFrom n (update kv (fmtPageKey id) none) (id + 1)
    else kv

/-- The number of ids below the limit of the scan, which is computed in 64 bits. -/
def scanned (cutoff : ℕ) : ℕ := (cutoff + 2 ^ 20) % 2 ^ 64 - cutoff

inductive Op
  | put (id : UInt64) (buf : List UInt8)
  | evictAbove (cutoff : UInt64)

def step (kv : Kv) : Op → Kv
  | .put id buf => cachePut kv id buf
  | .evictAbove cutoff => evictFrom (scanned cutoff.toNat) kv cutoff.toNat

def run (ops : List Op) : Kv := ops.foldl step fun _ => none

/-! ### What the cache is for -/

/-- The pages that should be there. -/
abbrev Pages : Type := ℕ → Option (List UInt8)

def Pages.step (pages : Pages) : Op → Pages
  | .put id buf => if buf = [] then pages else update pages id.toNat (some buf)
  | .evictAbove cutoff => fun id => if cutoff.toNat ≤ id then none else pages id

/-- A page fits the store, and the pages to drop are the first ones that the scan comes to. -/
def Pages.Follow (pages : Pages) : Op → Prop
  | .put _ buf => 2 * buf.length ≤ kvMaxValueLen
  | .evictAbove cutoff => ∃ m ≤ scanned cutoff.toNat,
      ∀ id ≥ cutoff.toNat, pages id ≠ none ↔ id < cutoff.toNat + m

def Pages.FollowAll : Pages → List Op → Prop
  | _, [] => True
  | pages, op :: ops => pages.Follow op ∧ (pages.step op).FollowAll ops

/-- The store has the texts of the pages. -/
def Mirrors (kv : Kv) (pages : Pages) : Prop :=
  ∀ id < 2 ^ 64, kv (fmtPageKey id) = (pages id).map (·.flatMap hexByte)

lemma fmtPageKey_injective {a b : ℕ} (ha : a < 2 ^ 64) (hb : b < 2 ^ 64)
    (h : fmtPageKey a = fmtPageKey b) : a = b := by
  have hbytes := reverse_injective (hex_injective (append_cancel_left h))
  rw [← ofLe_le (w := 8) ha, hbytes, ofLe_le hb]

lemma hexDecode_hex (buf : List UInt8) : hexDecode (buf.flatMap hexByte) = some buf := by
  induction buf with
  | nil => rfl
  | cons b buf ih =>
    have hb := b.toNat_lt
    simp only [flatMap_cons, hexByte, cons_append, nil_append, hexDecode, ih,
      uuidHexVal_hexDigit _ (show b.toNat / 16 < 16 by omega),
      uuidHexVal_hexDigit _ (show b.toNat % 16 < 16 by omega)]
    simp only [bind_eq_bind, bind_some, Nat.div_add_mod]
    simp

variable {kv : Kv} {pages : Pages} (h : Mirrors kv pages)
include h

lemma Mirrors.get (id : UInt64) {size : ℕ} (hsize : 0 < size) :
    cacheGet kv id size = (pages id.toNat).filter (·.length = size) := by
  unfold cacheGet
  rw [if_neg hsize.ne', h _ id.toNat_lt]
  cases pages id.toNat with
  | none => rfl
  | some buf =>
    simp only [Option.map_some, Option.bind_some, length_hex, hexDecode_hex, Option.filter,
      decide_eq_true_eq]
    exact if_congr (by omega) rfl rfl

lemma Mirrors.update {id : ℕ} (hid : id < 2 ^ 64) (page : Option (List UInt8)) :
    Mirrors (update kv (fmtPageKey id) (page.map (·.flatMap hexByte))) (update pages id page) := by
  intro j hj
  by_cases heq : j = id
  · simp [heq]
  · rw [update_of_ne fun hkey => heq (fmtPageKey_injective hj hid hkey), update_of_ne heq, h j hj]

/-- The walk drops the `m` pages that follow one another from `id`. -/
lemma Mirrors.evictFrom {m n id : ℕ} (hm : m ≤ n) (hlim : id + n < 2 ^ 64)
    (hpages : ∀ j ≥ id, pages j ≠ none ↔ j < id + m) :
    Mirrors (evictFrom n kv id) fun j => if id ≤ j then none else pages j := by
  induction m generalizing kv pages n id with
  | zero =>
    have hnone : ∀ j ≥ id, pages j = none := fun j hj => by
      by_contra hne
      exact absurd ((hpages j hj).mp hne) (not_lt.mpr hj)
    have hkept : (fun j => if id ≤ j then none else pages j) = pages :=
      funext fun j => ite_eq_right_iff.mpr fun hle => (hnone j hle).symm
    rw [hkept]
    cases n with
    | zero => exact h
    | succ => rwa [Vfs.evictFrom, if_neg (by simp [h id (by omega), hnone])]
  | succ m ih =>
    obtain ⟨n, rfl⟩ : ∃ k, n = k + 1 := ⟨n - 1, by omega⟩
    have hsome : pages id ≠ none := (hpages id le_rfl).mpr (by omega)
    have hid : id < 2 ^ 64 := by omega
    rw [Vfs.evictFrom, if_pos (by simpa [h id hid, isSome_iff_ne_none] using hsome)]
    intro j hj
    refine (ih (h.update hid none) (Nat.le_of_succ_le_succ hm) (by omega) ?_ j hj).trans ?_
    · intro i hi
      rw [update_of_ne (by omega), hpages i (by omega)]
      omega
    · refine congrArg _ ?_
      by_cases heq : j = id
      · simp [heq]
      · dsimp only
        rw [update_of_ne heq]
        exact if_congr (by omega) rfl rfl

lemma Mirrors.step {op : Op} (hop : pages.Follow op) : Mirrors (step kv op) (pages.step op) := by
  cases op with
  | put id buf =>
    have hfits : ¬ kvMaxValueLen < 2 * buf.length := not_lt.mpr hop
    simp only [Vfs.step, cachePut, Pages.step, length_hex, hfits, or_false]
    split_ifs
    · exact h
    · exact h.update id.toNat_lt (some buf)
  | evictAbove cutoff =>
    obtain ⟨m, hm, hpages⟩ := hop
    have hcut := cutoff.toNat_lt
    exact h.evictFrom hm (by unfold scanned; omega) hpages

lemma Mirrors.run {ops : List Op} (hops : pages.FollowAll ops) :
    Mirrors (ops.foldl Vfs.step kv) (ops.foldl Pages.step pages) := by
  induction ops generalizing kv pages with
  | nil => exact h
  | cons op ops ih => exact ih (h.step hops.1) hops.2

omit h

/-- Where pages fit the store and those to drop follow one another from the cutoff, the cache
answers as the pages do. -/
theorem cacheGet_run (ops : List Op) (hops : Pages.FollowAll (fun _ => none) ops) (id : UInt64)
    {size : ℕ} (hsize : 0 < size) : cacheGet (run ops) id size =
      ((ops.foldl Pages.step fun _ => none) id.toNat).filter (·.length = size) := by
  have hempty : Mirrors (fun _ => none) fun _ => none := fun _ _ => rfl
  exact (hempty.run hops).get id hsize

theorem cacheGet_run_truncated : cacheGet (run [.put 0 [7], .evictAbove 0]) 0 1 = none := by
  refine cacheGet_run [.put 0 [7], .evictAbove 0]
    ⟨show 2 ≤ kvMaxValueLen by decide, ⟨1, by decide, fun j _ => ?_⟩, trivial⟩ 0 one_pos
  by_cases heq : j = 0 <;> simp [Pages.step, heq]

/-- A missing page stops the walk, and the one above it stays. -/
theorem cacheGet_above_gap : cacheGet (run [.put 5 [7], .evictAbove 4]) 5 1 = some [7] ∧
    ([.put 5 [7], .evictAbove 4].foldl Pages.step fun _ => none) 5 = none := by
  decide +kernel

end Qihse.Vfs
