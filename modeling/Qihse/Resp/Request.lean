import Qihse.Resp.Line
import Qihse.Resp.Number

/-!
# Requests

`qihse_resp_parse_request`: a line of words, or an array of bulk strings. `Request` says which bytes
the parser takes for a request and `WellFormed` which ones the protocol has; they differ in how a
line may end. What the parser makes of the bytes it has is not changed by more bytes.
-/

namespace Qihse.Resp

open List

/-- The result of the parser on the bytes that have arrived. -/
inductive Parsed (α : Type)
  | more
  | error
  | ok (a : α)

namespace Parsed

variable {α β : Type}

def bind (x : Parsed α) (f : α → Parsed β) : Parsed β :=
  match x with
  | .more => .more
  | .error => .error
  | .ok a => f a

lemma bind_eq_ok_iff {x : Parsed α} {f : α → Parsed β} {b : β} :
    x.bind f = .ok b ↔ ∃ a, x = .ok a ∧ f a = .ok b := by
  cases x <;> simp [bind]

/-- More bytes were missing, or the result stands. -/
def Kept (x x' : Parsed α) : Prop := x = .more ∨ x' = x

lemma Kept.bind {x x' : Parsed α} {f f' : α → Parsed β} (hx : Kept x x')
    (hf : ∀ a, Kept (f a) (f' a)) : Kept (x.bind f) (x'.bind f') := by
  obtain rfl | rfl := hx
  · exact .inl rfl
  · cases x' with
    | more => exact .inl rfl
    | error => exact .inr rfl
    | ok a => exact hf a

end Parsed

open Parsed

/-- The bytes from one place to another. -/
def slice (data : List UInt8) (a b : ℕ) : List UInt8 := (data.drop a).take (b - a)

/-! ### Words of a line -/

abbrev Args : Type := List (List UInt8)

def maxArgs : ℕ := 2048

def isBlank (c : UInt8) : Bool := c == 0x20 || c == 0x09

/-- Blanks are skipped in blocks of sixteen bytes and then byte by byte. -/
def skipBlanks : ℕ → List UInt8 → List UInt8
  | 0, rest => rest
  | fuel + 1, rest =>
    if 16 ≤ rest.length then
      let idx := Packed.notEqualAny [0x20, 0x09] (rest.take 16)
      if idx < 16 then (rest.drop idx).dropWhile isBlank else skipBlanks fuel (rest.drop idx)
    else rest.dropWhile isBlank

/-- The loop over the words of a line. -/
def inlineArgs : ℕ → ℕ → List UInt8 → Option Args
  | 0, _, _ => some []
  | fuel + 1, argc, rest =>
    match skipBlanks (rest.length + 1) rest with
    | [] => some []
    | c :: cs =>
      if argc = maxArgs then none
      else
        let word := (c :: cs).takeWhile fun c => !isBlank c
        (inlineArgs fuel (argc + 1) ((c :: cs).drop word.length)).map (word :: ·)

/-- The words of a line. -/
def words (line : List UInt8) : Args := (line.splitOnP isBlank).filter (· ≠ [])

/-- Blanks that were skipped make no difference. -/
lemma dropWhile_drop_takeWhile (n : ℕ) (rest : List UInt8) :
    (rest.drop ((rest.take n).takeWhile isBlank).length).dropWhile isBlank =
      rest.dropWhile isBlank := by
  induction rest generalizing n with
  | nil => simp
  | cons c cs ih =>
    cases n with
    | zero => rfl
    | succ n =>
      cases hc : isBlank c with
      | false => simp [hc]
      | true => simpa [hc] using ih n

lemma skipBlanks_eq {fuel : ℕ} {rest : List UInt8} (hfuel : rest.length < 16 * fuel) :
    skipBlanks fuel rest = rest.dropWhile isBlank := by
  induction fuel generalizing rest with
  | zero => omega
  | succ fuel ih =>
    rw [skipBlanks]
    by_cases hblock : 16 ≤ rest.length
    · have hset : (fun c : UInt8 => [0x20, 0x09].contains c) = isBlank := by
        ext c
        rw [Bool.eq_iff_iff]
        simp [isBlank]
      have hidx : Packed.notEqualAny [0x20, 0x09] (rest.take 16) =
          ((rest.take 16).takeWhile isBlank).length := by
        rw [Packed.notEqualAny_eq (by decide)]
        exact congrArg (fun p => ((rest.take 16).takeWhile p).length) hset
      have hle : ((rest.take 16).takeWhile isBlank).length ≤ 16 :=
        ((List.takeWhile_prefix isBlank).length_le).trans (by simp)
      dsimp only
      rw [hidx]
      split_ifs with hlt
      · exact dropWhile_drop_takeWhile 16 rest
      · rw [ih, dropWhile_drop_takeWhile]
        rw [length_drop]
        omega
    · rw [if_neg hblock]

lemma words_dropWhile (line : List UInt8) : words (line.dropWhile isBlank) = words line := by
  induction line with
  | nil => rfl
  | cons c cs ih =>
    cases hc : isBlank c with
    | false => rw [dropWhile_cons_of_neg (by simp [hc])]
    | true =>
      rw [dropWhile_cons_of_pos hc, ih, words, words, splitOnP_cons_eq_if_modifyHead,
        if_pos hc]
      rfl

/-- The first word, and the words after it. -/
lemma words_cons {c : UInt8} {cs : List UInt8} (hc : isBlank c = false) :
    words (c :: cs) = (c :: cs).takeWhile (fun c => !isBlank c) ::
      words ((c :: cs).drop ((c :: cs).takeWhile fun c => !isBlank c).length) := by
  generalize hword : (c :: cs).takeWhile (fun c => !isBlank c) = word
  generalize hrest : (c :: cs).drop word.length = rest
  have hprefix : word <+: c :: cs := hword ▸ takeWhile_prefix _
  have hsplit : c :: cs = word ++ rest := by
    rw [← hrest]
    exact (prefix_iff_eq_append.mp hprefix).symm
  have hne : word ≠ [] := by simp [← hword, hc]
  have hnoblank : ∀ x ∈ word, isBlank x = false := by
    intro x hx
    have hall := all_takeWhile (p := fun c => !isBlank c) (l := c :: cs)
    rw [hword, all_eq_true] at hall
    simpa using hall x hx
  rw [hsplit]
  cases rest with
  | nil =>
    rw [append_nil, words, splitOnP_eq_singleton hnoblank]
    simp [hne, words]
  | cons sep rest =>
    have hsep : isBlank sep = true := by
      have hdrop : (c :: cs).dropWhile (fun c => !isBlank c) = sep :: rest := by
        have happ := takeWhile_append_dropWhile (p := fun c => !isBlank c) (l := c :: cs)
        rw [hword] at happ
        exact append_cancel_left (happ.trans hsplit)
      have hnot := head?_dropWhile_not (fun c => !isBlank c) (c :: cs)
      rw [hdrop] at hnot
      simpa using hnot
    rw [words, words, splitOnP_append_cons_of_forall_mem hnoblank sep hsep,
      splitOnP_cons_eq_if_modifyHead, if_pos hsep]
    simp [hne]

/-- The loop gives the words of the line if there are not too many. -/
lemma inlineArgs_eq {fuel argc : ℕ} {line : List UInt8} (hfuel : line.length < fuel)
    (hargc : argc ≤ maxArgs) : inlineArgs fuel argc line =
      if argc + (words line).length ≤ maxArgs then some (words line) else none := by
  induction fuel generalizing argc line with
  | zero => omega
  | succ fuel ih =>
    rw [inlineArgs, skipBlanks_eq (by omega), ← words_dropWhile]
    have hlen : (line.dropWhile isBlank).length ≤ line.length :=
      (dropWhile_suffix isBlank).length_le
    have hnot := head?_dropWhile_not isBlank line
    generalize line.dropWhile isBlank = rest at hlen hnot
    cases rest with
    | nil =>
      have hnil : words [] = [] := rfl
      simp [hnil, hargc]
    | cons c cs =>
      have hc : isBlank c = false := hnot
      rw [words_cons hc]
      dsimp only
      have hpos : 0 < ((c :: cs).takeWhile fun c => !isBlank c).length := by simp [hc]
      by_cases hfull : argc = maxArgs
      · rw [if_pos hfull, if_neg]
        rw [length_cons]
        omega
      · rw [if_neg hfull, ih (by rw [length_drop, length_cons] at *; omega) (by omega)]
        rw [length_cons, add_right_comm, add_assoc]
        split_ifs <;> rfl

/-! ### The parser -/

def sizeMax : ℕ := 2 ^ 64 - 1

/-- The body of the loop over bulk strings: the string at the cursor and the cursor after it. -/
def parseBulk (data : List UInt8) (cursor : ℕ) : Parsed (List UInt8 × ℕ) :=
  match data[cursor]? with
  | none => .more
  | some c =>
    if c ≠ 0x24 then .error
    else
      match findCrlf data (cursor + 1) with
      | none => .more
      | some lineEnd =>
        match parseI64Bytes (slice data (cursor + 1) lineEnd) with
        | none => .error
        | some bulkLen =>
          if bulkLen < 0 then .error
          else if sizeMax - (lineEnd + 2) - 2 < bulkLen.toNat then .error
          else if data.length < lineEnd + 2 + bulkLen.toNat + 2 then .more
          else if data[lineEnd + 2 + bulkLen.toNat]? ≠ some cr ∨
              data[lineEnd + 2 + bulkLen.toNat + 1]? ≠ some lf then .error
          else
            .ok (slice data (lineEnd + 2) (lineEnd + 2 + bulkLen.toNat),
              lineEnd + 2 + bulkLen.toNat + 2)

def parseBulks (data : List UInt8) : ℕ → ℕ → Parsed (Args × ℕ)
  | 0, cursor => .ok ([], cursor)
  | count + 1, cursor =>
    (parseBulk data cursor).bind fun (arg, next) =>
      (parseBulks data count next).bind fun (args, consumed) => .ok (arg :: args, consumed)

/-- `qihse_resp_parse_request`: the arguments and the number of bytes that they take. -/
def parseRequest (data : List UInt8) : Parsed (Args × ℕ) :=
  match data[0]? with
  | none => .more
  | some c =>
    if c ≠ 0x2a then
      match findCrlf data 0 with
      | none => .more
      | some lineEnd =>
        match inlineArgs (lineEnd + 1) 0 (data.take lineEnd) with
        | none => .error
        | some args => .ok (args, lineEnd + 2)
    else
      match findCrlf data 1 with
      | none => .more
      | some lineEnd =>
        match parseI64Bytes (slice data 1 lineEnd) with
        | none => .error
        | some argc =>
          if argc < 0 ∨ (maxArgs : ℤ) < argc then .error
          else parseBulks data argc.toNat (lineEnd + 2)

/-! ### Slices -/

section Slice

variable {data : List UInt8} {a b c k : ℕ} {x : UInt8}

lemma length_slice (hb : b ≤ data.length) : (slice data a b).length = b - a := by
  rw [slice, length_take, length_drop]
  omega

lemma slice_append_slice (hab : a ≤ b) (hbc : b ≤ c) :
    slice data a b ++ slice data b c = slice data a c := by
  have hdrop : data.drop b = (data.drop a).drop (b - a) := by
    rw [drop_drop]
    congr 1
    omega
  have hsum : c - a = (b - a) + (c - b) := by omega
  rw [slice, slice, slice, hdrop, hsum, take_add]

lemma getElem?_slice (hk : a + k < b) : (slice data a b)[k]? = data[a + k]? := by
  rw [slice, getElem?_take_of_lt (by omega), getElem?_drop]

lemma slice_succ (h : data[a]? = some x) (hab : a < b) :
    slice data a b = x :: slice data (a + 1) b := by
  obtain ⟨hlt, hget⟩ := List.getElem?_eq_some_iff.mp h
  have hsub : b - a = (b - (a + 1)) + 1 := by omega
  rw [slice, slice, drop_eq_getElem_cons hlt, hget, hsub, take_succ_cons]

lemma slice_of_append (more : List UInt8) (hb : b ≤ data.length) :
    slice (data ++ more) a b = slice data a b := by
  obtain hab | hab := le_total a data.length
  · rw [slice, slice, drop_append_of_le_length hab, take_append_of_le_length]
    rw [length_drop]
    omega
  · have hsub : b - a = 0 := by omega
    rw [slice, slice, hsub, take_zero, take_zero]

lemma slice_zero : slice data 0 b = data.take b := by
  rw [slice, drop_zero, Nat.sub_zero]

end Slice

/-! ### What the parser takes for a request -/

/-- The bulk string at a place of the buffer, with the end of the line before it. -/
structure Bulk (data : List UInt8) (cursor : ℕ) (arg : List UInt8) (lineEnd next : ℕ) : Prop where
  dollar : data[cursor]? = some 0x24
  line : LineEnd data (cursor + 1) lineEnd
  number : parseI64Bytes (slice data (cursor + 1) lineEnd) = some (arg.length : ℤ)
  room : arg.length ≤ sizeMax - (lineEnd + 2) - 2
  value : slice data (lineEnd + 2) (lineEnd + 2 + arg.length) = arg
  crAfter : data[lineEnd + 2 + arg.length]? = some cr
  lfAfter : data[lineEnd + 2 + arg.length + 1]? = some lf
  next_eq : next = lineEnd + 2 + arg.length + 2

/-- Where a line begins and where it ends. -/
structure Line where
  start : ℕ
  stop : ℕ

/-- Bulk strings one after the other, with their lines. -/
inductive Bulks (data : List UInt8) : ℕ → Args → List Line → ℕ → Prop
  | nil (cursor : ℕ) : Bulks data cursor [] [] cursor
  | cons {cursor lineEnd next consumed : ℕ} {arg : List UInt8} {args : Args} {lines : List Line}
      (hbulk : Bulk data cursor arg lineEnd next) (hrest : Bulks data next args lines consumed) :
      Bulks data cursor (arg :: args) (⟨cursor + 1, lineEnd⟩ :: lines) consumed

/-- The parser finds these arguments at the front of the buffer, in these lines. -/
inductive Request (data : List UInt8) : Args → List Line → ℕ → Prop
  | inline {c : UInt8} {lineEnd : ℕ} (hfirst : data[0]? = some c) (hc : c ≠ 0x2a)
      (hline : LineEnd data 0 lineEnd) (hmax : (words (data.take lineEnd)).length ≤ maxArgs) :
      Request data (words (data.take lineEnd)) [⟨0, lineEnd⟩] (lineEnd + 2)
  | array {lineEnd consumed : ℕ} {args : Args} {lines : List Line} (hfirst : data[0]? = some 0x2a)
      (hline : LineEnd data 1 lineEnd)
      (hcount : parseI64Bytes (slice data 1 lineEnd) = some (args.length : ℤ))
      (hmax : args.length ≤ maxArgs) (hbulks : Bulks data (lineEnd + 2) args lines consumed) :
      Request data args (⟨1, lineEnd⟩ :: lines) consumed

section Request

variable {data : List UInt8} {cursor count consumed next : ℕ} {arg : List UInt8} {args : Args}

lemma Bulk.next_le {lineEnd : ℕ} (h : Bulk data cursor arg lineEnd next) : next ≤ data.length := by
  have hlt := (List.getElem?_eq_some_iff.mp h.lfAfter).1
  have := h.next_eq
  omega

lemma parseBulk_eq_ok_iff :
    parseBulk data cursor = .ok (arg, next) ↔ ∃ lineEnd, Bulk data cursor arg lineEnd next := by
  constructor
  · intro h
    unfold parseBulk at h
    split at h
    case h_1 => cases h
    case h_2 c hc =>
      split_ifs at h with hdollar
      split at h
      case h_1 => cases h
      case h_2 lineEnd hline =>
        split at h
        case h_1 => cases h
        case h_2 bulkLen hnumber =>
          split_ifs at h with hneg hroom hmore hend
          obtain ⟨n, rfl⟩ := Int.eq_ofNat_of_zero_le (not_lt.mp hneg)
          rw [Int.toNat_natCast] at h hroom hmore hend
          cases h
          have hlen : (slice data (lineEnd + 2) (lineEnd + 2 + n)).length = n := by
            rw [length_slice (by omega)]
            omega
          simp only [not_or, not_not] at hdollar hend
          refine ⟨lineEnd, hc.trans (by rw [hdollar]), findCrlf_eq_some_iff.mp hline, ?_, ?_, ?_,
            ?_, ?_, ?_⟩
          all_goals rw [hlen]
          · exact hnumber
          · omega
          · exact hend.1
          · exact hend.2
  · rintro ⟨lineEnd, h⟩
    have hlen := h.next_le
    have hnext := h.next_eq
    have hnumber := h.number
    have hroom := h.room
    unfold parseBulk
    simp only [h.dollar, findCrlf_eq_some_iff.mpr h.line, hnumber, ne_eq, not_true_eq_false,
      if_false, Int.toNat_natCast, h.crAfter, h.lfAfter, or_self, h.value]
    rw [if_neg (by omega), if_neg (by omega), if_neg (by omega), hnext]

lemma parseBulks_eq_ok_iff : parseBulks data count cursor = .ok (args, consumed) ↔
      args.length = count ∧ ∃ lines, Bulks data cursor args lines consumed := by
  induction count generalizing cursor args with
  | zero =>
    constructor
    · intro h
      cases h
      exact ⟨rfl, [], .nil _⟩
    · rintro ⟨hlen, lines, hbulks⟩
      cases hbulks with
      | nil => rfl
      | cons => cases hlen
  | succ count ih =>
    rw [parseBulks, bind_eq_ok_iff]
    constructor
    · rintro ⟨⟨arg, next⟩, harg, hrest⟩
      obtain ⟨⟨args', n⟩, hargs, hok⟩ := bind_eq_ok_iff.mp hrest
      cases hok
      obtain ⟨hlen, lines, hbulks⟩ := ih.mp hargs
      obtain ⟨lineEnd, hbulk⟩ := parseBulk_eq_ok_iff.mp harg
      exact ⟨by rw [length_cons, hlen], _, .cons hbulk hbulks⟩
    · rintro ⟨hlen, lines, hbulks⟩
      cases hbulks with
      | nil => cases hlen
      | cons hbulk hrest =>
        refine ⟨_, parseBulk_eq_ok_iff.mpr ⟨_, hbulk⟩, ?_⟩
        rw [bind_eq_ok_iff]
        exact ⟨_, ih.mpr ⟨Nat.succ.inj hlen, _, hrest⟩, rfl⟩

/-- The parser answers with a request where there is one. -/
theorem parseRequest_eq_ok_iff :
    parseRequest data = .ok (args, consumed) ↔ ∃ lines, Request data args lines consumed := by
  have hwords (lineEnd : ℕ) : inlineArgs (lineEnd + 1) 0 (data.take lineEnd) =
      if (words (data.take lineEnd)).length ≤ maxArgs then some (words (data.take lineEnd))
      else none := by
    rw [inlineArgs_eq (Nat.lt_succ_of_le (length_take_le _ _)) (Nat.zero_le _), Nat.zero_add]
  constructor
  · intro h
    unfold parseRequest at h
    split at h
    case h_1 => cases h
    case h_2 c hc =>
      split_ifs at h with hstar
      · split at h
        case h_1 => cases h
        case h_2 lineEnd hline =>
          rw [hwords] at h
          split_ifs at h with hmax
          cases h
          exact ⟨_, .inline hc hstar (findCrlf_eq_some_iff.mp hline) hmax⟩
      · split at h
        case h_1 => cases h
        case h_2 lineEnd hline =>
          split at h
          case h_1 => cases h
          case h_2 argc hargc =>
            split_ifs at h with hrange
            obtain ⟨hneg, hmax⟩ := not_or.mp hrange
            obtain ⟨n, rfl⟩ := Int.eq_ofNat_of_zero_le (not_lt.mp hneg)
            obtain ⟨hlen, lines, hbulks⟩ := parseBulks_eq_ok_iff.mp h
            subst hlen
            exact ⟨_, .array (hc.trans (by rw [not_not.mp hstar])) (findCrlf_eq_some_iff.mp hline)
              hargc (by omega) hbulks⟩
  · rintro ⟨lines, h⟩
    unfold parseRequest
    cases h with
    | inline hfirst hc hline hmax =>
      simp [hfirst, findCrlf_eq_some_iff.mpr hline, hwords, if_pos hmax, if_pos hc]
    | array hfirst hline hcount hmax hbulks =>
      simp only [hfirst, findCrlf_eq_some_iff.mpr hline, hcount, ne_eq, not_true_eq_false,
        if_false, Int.toNat_natCast]
      rw [if_neg (by omega)]
      exact parseBulks_eq_ok_iff.mpr ⟨rfl, _, hbulks⟩

end Request

/-! ### More bytes -/

section Append

variable {data : List UInt8} {cursor count : ℕ}

lemma getElem?_append_of_some {i : ℕ} {x : UInt8} (h : data[i]? = some x) (more : List UInt8) :
    (data ++ more)[i]? = some x := by
  rw [getElem?_append_left (List.getElem?_eq_some_iff.mp h).1, h]

lemma kept_parseBulk (more : List UInt8) :
    Kept (parseBulk data cursor) (parseBulk (data ++ more) cursor) := by
  unfold parseBulk
  cases hc : data[cursor]? with
  | none => exact .inl rfl
  | some =>
    rw [getElem?_append_of_some hc more]
    dsimp only
    split_ifs with hdollar
    · exact .inr rfl
    cases hline : findCrlf data (cursor + 1) with
    | none => exact .inl rfl
    | some lineEnd =>
      have hlt := (findCrlf_eq_some_iff.mp hline).lt_length
      rw [findCrlf_append hline more]
      dsimp only
      rw [slice_of_append more hlt.le]
      cases parseI64Bytes (slice data (cursor + 1) lineEnd) with
      | none => exact .inr rfl
      | some bulkLen =>
        dsimp only
        by_cases hmore : data.length < lineEnd + 2 + bulkLen.toNat + 2
        · split_ifs <;> first | exact .inl rfl | exact .inr rfl
        · have hmore' : ¬ (data ++ more).length < lineEnd + 2 + bulkLen.toNat + 2 := by
            rw [length_append]
            omega
          rw [if_neg hmore, if_neg hmore', getElem?_append_left (by omega),
            getElem?_append_left (by omega), slice_of_append more (by omega)]
          exact .inr rfl

lemma kept_parseBulks (more : List UInt8) :
    Kept (parseBulks data count cursor) (parseBulks (data ++ more) count cursor) := by
  induction count generalizing cursor with
  | zero => exact .inr rfl
  | succ count ih =>
    refine (kept_parseBulk more).bind fun (arg, next) => ?_
    exact ih.bind fun _ => .inr rfl

/-- An answer of the parser is not changed by bytes that come later. -/
theorem kept_parseRequest (data more : List UInt8) :
    Kept (parseRequest data) (parseRequest (data ++ more)) := by
  unfold parseRequest
  cases hc : data[0]? with
  | none => exact .inl rfl
  | some =>
    rw [getElem?_append_of_some hc more]
    dsimp only
    split_ifs with hstar
    · cases hline : findCrlf data 0 with
      | none => exact .inl rfl
      | some =>
        have hlt := (findCrlf_eq_some_iff.mp hline).lt_length
        rw [findCrlf_append hline more]
        dsimp only
        rw [take_append_of_le_length hlt.le]
        exact .inr rfl
    · cases hline : findCrlf data 1 with
      | none => exact .inl rfl
      | some lineEnd =>
        have hlt := (findCrlf_eq_some_iff.mp hline).lt_length
        rw [findCrlf_append hline more]
        dsimp only
        rw [slice_of_append more hlt.le]
        cases parseI64Bytes (slice data 1 lineEnd) with
        | none => exact .inr rfl
        | some =>
          dsimp only
          split_ifs
          · exact .inr rfl
          · exact kept_parseBulks more

lemma parseRequest_append {data : List UInt8} (more : List UInt8)
    (h : parseRequest data ≠ .more) : parseRequest (data ++ more) = parseRequest data :=
  (kept_parseRequest data more).resolve_left h

end Append

end Qihse.Resp
