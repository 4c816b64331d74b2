import Qihse.Resp.Request

/-!
# The protocol

What requests are, apart from the parser: `WellFormed` has lines that end in a carriage return and a
line feed and say nothing about blocks. The parser takes well-formed requests exactly from the
buffers that are `Proper`, where no line ends at a block without its line feed.
-/

namespace Qihse.Resp

open List

def crlf : List UInt8 := [cr, lf]

/-- Bulk strings: a length, a line end, the string and a line end. -/
inductive BulkStrings : List UInt8 → Args → Prop
  | nil : BulkStrings [] []
  | cons {digits arg bytes : List UInt8} {args : Args}
      (hdigits : number digits = some (arg.length : ℤ)) (hbytes : BulkStrings bytes args) :
      BulkStrings (0x24 :: (digits ++ (crlf ++ (arg ++ (crlf ++ bytes))))) (arg :: args)

/-- The bytes of a request with its arguments. -/
inductive WellFormed : List UInt8 → Args → Prop
  | inline {line : List UInt8} (hstar : line.head? ≠ some 0x2a) (hline : ¬ crlf <:+: line)
      (hmax : (words line).length ≤ maxArgs) : WellFormed (line ++ crlf) (words line)
  | array {digits bytes : List UInt8} {args : Args}
      (hdigits : number digits = some (args.length : ℤ)) (hmax : args.length ≤ maxArgs)
      (hbytes : BulkStrings bytes args) : WellFormed (0x2a :: (digits ++ (crlf ++ bytes))) args

/-- The line has a line feed where the search took it to end. -/
def Line.Ended (data : List UInt8) (l : Line) : Prop := data[l.stop + 1]? = some lf

/-- If the buffer begins with what the parser takes for a request, each of its lines that ends with
the last byte of a block has a line feed after that. -/
def Proper (data : List UInt8) : Prop :=
  ∀ args lines consumed, Request data args lines consumed → ∀ l ∈ lines,
    (l.stop - l.start) % 16 = 15 → l.Ended data

section Grammar

variable {data : List UInt8} {cursor start p consumed next : ℕ} {arg digits more : List UInt8}
  {args : Args} {lines : List Line}

/-- Other lines are ended in any case. -/
lemma LineEnd.ended (h : LineEnd data start p)
    (hblock : (p - start) % 16 = 15 → data[p + 1]? = some lf) : data[p + 1]? = some lf :=
  h.stops.2.elim id hblock

lemma Bulks.lineEnd (h : Bulks data cursor args lines consumed) :
    ∀ l ∈ lines, LineEnd data l.start l.stop := by
  induction h with
  | nil => simp
  | cons hbulk _ ih => exact forall_mem_cons.mpr ⟨hbulk.line, ih⟩

lemma Request.lineEnd (h : Request data args lines consumed) :
    ∀ l ∈ lines, LineEnd data l.start l.stop := by
  cases h with
  | inline _ _ hline => exact forall_mem_cons.mpr ⟨hline, by simp⟩
  | array _ hline _ _ hbulks => exact forall_mem_cons.mpr ⟨hline, hbulks.lineEnd⟩

/-- A buffer in which every carriage return has its line feed is proper. -/
lemma proper_of_forall (h : ∀ p < data.length, data[p]? = some cr → data[p + 1]? = some lf) :
    Proper data := by
  intro args lines consumed hrequest l hl _
  have hline := hrequest.lineEnd l hl
  exact h l.stop hline.lt_length hline.stops.1

lemma Bulk.le_next {lineEnd : ℕ} (h : Bulk data cursor arg lineEnd next) :
    cursor + 1 ≤ lineEnd ∧ lineEnd + 4 ≤ next := by
  have hstart := h.line.start_le
  have hnext := h.next_eq
  omega

lemma Bulks.le (h : Bulks data cursor args lines consumed) : cursor ≤ consumed := by
  induction h with
  | nil => exact le_rfl
  | cons hbulk =>
    have := hbulk.le_next
    omega

lemma Bulks.le_length (h : Bulks data cursor args lines consumed) (hc : cursor ≤ data.length) :
    consumed ≤ data.length := by
  induction h with
  | nil => exact hc
  | cons hbulk _ ih => exact ih hbulk.next_le

/-- Two bytes that are known, and the bytes after them. -/
lemma slice_crlf (hcr : data[cursor]? = some cr) (hlf : data[cursor + 1]? = some lf)
    (hle : cursor + 2 ≤ consumed) :
    slice data cursor consumed = crlf ++ slice data (cursor + 2) consumed := by
  rw [slice_succ hcr (by omega), slice_succ hlf (by omega)]
  rfl

/-! ### Proper buffers hold well-formed requests -/

lemma Bulks.bulkStrings (h : Bulks data cursor args lines consumed)
    (hended : ∀ l ∈ lines, l.Ended data) : BulkStrings (slice data cursor consumed) args := by
  induction h with
  | nil cursor =>
    have hnil : slice data cursor cursor = [] := by simp [slice]
    rw [hnil]
    exact .nil
  | @cons cursor lineEnd next consumed arg args lines hbulk hrest ih =>
    obtain ⟨hline, hlines⟩ := forall_mem_cons.mp hended
    have hle := hbulk.le_next
    have hle' := hrest.le
    have hnext := hbulk.next_eq
    have hbytes : slice data cursor consumed = 0x24 :: (slice data (cursor + 1) lineEnd ++
        (crlf ++ (arg ++ (crlf ++ slice data next consumed)))) := by
      rw [slice_succ hbulk.dollar (by omega),
        ← slice_append_slice hle.1 (by omega : lineEnd ≤ consumed),
        slice_crlf hbulk.line.stops.1 hline (by omega),
        ← slice_append_slice (Nat.le_add_right (lineEnd + 2) arg.length)
          (by omega : lineEnd + 2 + arg.length ≤ consumed),
        hbulk.value, slice_crlf hbulk.crAfter hbulk.lfAfter (by omega), hnext]
    rw [hbytes]
    refine .cons ?_ (ih hlines)
    rw [← parseI64Bytes_eq_number]
    exact hbulk.number

lemma Request.wellFormed (h : Request data args lines consumed)
    (hended : ∀ l ∈ lines, l.Ended data) :
    consumed ≤ data.length ∧ WellFormed (data.take consumed) args := by
  cases h with
  | @inline c lineEnd hfirst hc hline hmax =>
    obtain ⟨hlf, -⟩ := forall_mem_cons.mp hended
    have hlt := (List.getElem?_eq_some_iff.mp hlf).1
    have hbytes : data.take (lineEnd + 2) = data.take lineEnd ++ crlf := by
      have hnil : slice data (lineEnd + 2) (lineEnd + 2) = [] := by simp [slice]
      rw [← slice_zero, ← slice_append_slice (Nat.zero_le lineEnd) (Nat.le_add_right lineEnd 2),
        slice_crlf hline.stops.1 hlf (Nat.le_refl _), hnil, slice_zero, append_nil]
    refine ⟨hlt, ?_⟩
    rw [hbytes]
    refine .inline (fun hstar => ?_) (fun hinfix => ?_) hmax
    · rw [head?_take] at hstar
      split_ifs at hstar
      rw [head?_eq_getElem?, hfirst, Option.some_inj] at hstar
      exact hc hstar
    · -- the search would have stopped inside the line
      obtain ⟨before, after, hline'⟩ := hinfix
      have hget (k : ℕ) (hk : k < 2) : data[before.length + k]? = crlf[k]? ∧
          before.length + k < lineEnd := by
        have hlen := congrArg List.length hline'
        simp only [length_append, length_take, crlf, length_cons,
          length_nil] at hlen
        have hin : (data.take lineEnd)[before.length + k]? = crlf[k]? := by
          rw [← hline', append_assoc, getElem?_append_right (by omega),
            Nat.add_sub_cancel_left, getElem?_append_left hk]
        rw [getElem?_take_of_lt (by omega)] at hin
        exact ⟨hin, by omega⟩
      obtain ⟨hcr, hlt'⟩ := hget 0 (by decide)
      exact hline.first before.length (Nat.zero_le _) hlt' ⟨hcr, .inl (hget 1 (by decide)).1⟩
  | @array lineEnd consumed args lines hfirst hline hcount hmax hbulks =>
    obtain ⟨hlf, hlines⟩ := forall_mem_cons.mp hended
    have hlt := (List.getElem?_eq_some_iff.mp hlf).1
    have hle := hbulks.le
    have hstart := hline.start_le
    refine ⟨hbulks.le_length hlt, ?_⟩
    have hbytes : data.take consumed = 0x2a :: (slice data 1 lineEnd ++
        (crlf ++ slice data (lineEnd + 2) consumed)) := by
      rw [← slice_zero, slice_succ hfirst (by omega),
        ← slice_append_slice hstart (by omega : lineEnd ≤ consumed),
        slice_crlf hline.stops.1 hlf hle]
    rw [hbytes]
    refine .array ?_ hmax (hbulks.bulkStrings hlines)
    rw [← parseI64Bytes_eq_number]
    exact hcount

/-! ### Well-formed requests come from proper buffers -/

lemma drop_slice {a b c : ℕ} (hab : a ≤ b) (hbc : b ≤ c) (hc : c ≤ data.length) :
    (slice data a c).drop (b - a) = slice data b c := by
  rw [← slice_append_slice hab hbc]
  exact drop_left' (length_slice (by omega))

/-- A line with a number in it ends at its line end, since no number has a carriage return. -/
lemma LineEnd.of_number (h : LineEnd data start p) (hlen : consumed ≤ data.length) {v : ℤ}
    (hdigits : number digits = some v)
    (hbytes : slice data start consumed = digits ++ (crlf ++ more)) :
    p = start + digits.length ∧ data[p + 1]? = some lf := by
  have hsize := congrArg List.length hbytes
  rw [length_slice hlen, length_append, length_append] at hsize
  have hcrlf : crlf.length = 2 := rfl
  have hget (k : ℕ) (hk : k < 2) : data[start + digits.length + k]? = crlf[k]? := by
    have hslice : (slice data start consumed)[digits.length + k]? =
        data[start + (digits.length + k)]? := getElem?_slice (by omega)
    rw [hbytes, getElem?_append_right (by omega), Nat.add_sub_cancel_left,
      getElem?_append_left hk] at hslice
    rw [add_assoc, ← hslice]
  have hstops : Stops data start (start + digits.length) :=
    ⟨hget 0 (by decide), .inl (hget 1 (by decide))⟩
  have hp : p = start + digits.length := by
    obtain hlt | heq | hgt := lt_trichotomy p (start + digits.length)
    · exfalso
      have hstart := h.start_le
      have hin : digits[p - start]? = some cr := by
        have hslice : (slice data start consumed)[p - start]? = data[start + (p - start)]? :=
          getElem?_slice (by omega)
        rw [hbytes, getElem?_append_left (by omega), Nat.add_sub_cancel' hstart,
          h.stops.1] at hslice
        exact hslice
      rw [← parseI64Bytes_eq_number] at hdigits
      exact cr_notMem_of_parseI64Bytes hdigits (mem_of_getElem? hin)
    · exact heq
    · exact absurd hstops (h.first _ (Nat.le_add_right _ _) hgt)
  refine ⟨hp, ?_⟩
  rw [hp]
  exact hget 1 (by decide)

lemma Bulks.ended (h : Bulks data cursor args lines consumed) (hlen : consumed ≤ data.length)
    (hstrings : BulkStrings (slice data cursor consumed) args) : ∀ l ∈ lines, l.Ended data := by
  induction h with
  | nil => simp
  | @cons cursor lineEnd next consumed arg args lines hbulk hrest ih =>
    have hle := hbulk.le_next
    have hle' := hrest.le
    have hnext := hbulk.next_eq
    rw [slice_succ hbulk.dollar (by omega)] at hstrings
    generalize hbytes : slice data (cursor + 1) consumed = bytes at hstrings
    cases hstrings with
    | @cons digits arg bytes args hdigits hstrings =>
      obtain ⟨hend, hlf⟩ := hbulk.line.of_number hlen hdigits hbytes
      refine forall_mem_cons.mpr ⟨hlf, ih hlen ?_⟩
      have hdrop := drop_slice (by omega : cursor + 1 ≤ next) hle' hlen
      have hcrlf : crlf.length = 2 := rfl
      have hsum : next - (cursor + 1) =
          (digits ++ (crlf ++ (arg ++ crlf))).length := by
        simp only [length_append, hcrlf]
        omega
      have hassoc : digits ++ (crlf ++ (arg ++ (crlf ++ bytes))) =
          (digits ++ (crlf ++ (arg ++ crlf))) ++ bytes := by simp
      rw [hbytes, hassoc, drop_left' hsum.symm] at hdrop
      rwa [← hdrop]

lemma Request.ended (h : Request data args lines consumed) (hlen : consumed ≤ data.length)
    (hwell : WellFormed (data.take consumed) args) : ∀ l ∈ lines, l.Ended data := by
  have hcrlf : crlf.length = 2 := rfl
  generalize hbytes : data.take consumed = bytes at hwell
  have hget (k : ℕ) (hk : k < consumed) : bytes[k]? = data[k]? := by
    rw [← hbytes, getElem?_take_of_lt hk]
  cases h with
  | @inline c lineEnd hfirst hc hline hmax =>
    refine forall_mem_cons.mpr ⟨?_, by simp⟩
    generalize words (data.take lineEnd) = args at hwell
    cases hwell with
    | @inline line _ _ _ =>
      have hsize := congrArg List.length hbytes
      rw [length_take, length_append, hcrlf] at hsize
      have hlast := hget (lineEnd + 1) (by omega)
      rw [getElem?_append_right (by omega)] at hlast
      have hone : lineEnd + 1 - line.length = 1 := by omega
      rw [hone] at hlast
      exact hlast.symm
    | array =>
      have hhead := hget 0 (by omega)
      rw [hfirst] at hhead
      exact absurd (Option.some_inj.mp hhead).symm hc
  | @array lineEnd consumed args lines hfirst hline hcount hmax hbulks =>
    have hle := hbulks.le
    have hstart := hline.start_le
    cases hwell with
    | @inline line hstar _ _ =>
      have hhead := hget 0 (by omega)
      rw [hfirst] at hhead
      cases line with
      | nil => cases hhead
      | cons => exact absurd hhead hstar
    | @array digits bytes args hdigits hmax hstrings =>
      have hslice : slice data 1 consumed = digits ++ (crlf ++ bytes) := by
        rw [← slice_zero, slice_succ hfirst (by omega)] at hbytes
        exact (List.cons.inj hbytes).2
      obtain ⟨hend, hlf⟩ := hline.of_number hlen hdigits hslice
      refine forall_mem_cons.mpr ⟨hlf, hbulks.ended hlen ?_⟩
      have hdrop := drop_slice (by omega : 1 ≤ lineEnd + 2) hle hlen
      have hsum : lineEnd + 2 - 1 = (digits ++ crlf).length := by
        rw [length_append, hcrlf]
        omega
      rw [hslice, ← append_assoc, drop_left' hsum.symm] at hdrop
      rwa [← hdrop]

/-- The parser takes from a buffer only well-formed requests that it has in full if and only if the
buffer is proper. -/
theorem parseRequest_wellFormed_iff (data : List UInt8) :
    (∀ args consumed, parseRequest data = .ok (args, consumed) →
      consumed ≤ data.length ∧ WellFormed (data.take consumed) args) ↔ Proper data := by
  constructor
  · intro h args lines consumed hrequest l hl _
    obtain ⟨hlen, hwell⟩ := h args consumed (parseRequest_eq_ok_iff.mpr ⟨lines, hrequest⟩)
    exact hrequest.ended hlen hwell l hl
  · intro hproper args consumed hok
    obtain ⟨lines, hrequest⟩ := parseRequest_eq_ok_iff.mp hok
    refine hrequest.wellFormed fun l hl => ?_
    exact (hrequest.lineEnd l hl).ended (hproper args lines consumed hrequest l hl)

end Grammar

end Qihse.Resp
