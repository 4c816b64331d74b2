import Qihse.Bytes.Text
import Qihse.Resp.Grammar

/-!
# The session loop

`qihse_resp_session_loop`: each read is put after what is left in the buffer, and then requests are
parsed and dispatched as long as the buffer has them. The handlers are a parameter. What is
dispatched depends on how the bytes are cut into reads where a line ends at a block without its line
feed, and where a request that closes the session is followed by others.
-/

namespace Qihse.Resp

open List

/-- What a handler leaves: its own state, whether the session goes on, and its success. -/
structure Reply (σ : Type) where
  state : σ
  keepOpen : Bool
  ok : Bool

/-- What stops the parse loop. After `overrun` it has moved past the end of the buffer. -/
inductive Stop
  | failed
  | protocolError
  | overrun
deriving DecidableEq

/-- How a session ends. -/
inductive Ending
  | closed
  | tooLarge
  | stopped (stop : Stop)
deriving DecidableEq

/-- The parse loop of one read: what is left, and what was dispatched and parsed. -/
structure Drained (σ : Type) where
  state : σ
  keepOpen : Bool
  rest : List UInt8
  stop : Option Stop
  dispatched : List Args
  parsed : List (List UInt8)

section Loop

variable {σ : Type} (dispatch : σ → Bool → Args → Reply σ)

/-- The inner loop. A handler finds the flag of the request before it. -/
def drain : ℕ → σ → Bool → List UInt8 → Drained σ
  | 0, state, keepOpen, buffer => ⟨state, keepOpen, buffer, none, [], []⟩
  | fuel + 1, state, keepOpen, buffer =>
    if buffer = [] then ⟨state, keepOpen, buffer, none, [], []⟩
    else
      match parseRequest buffer with
      | .more => ⟨state, keepOpen, buffer, none, [], [buffer]⟩
      | .error => ⟨state, false, buffer, some .protocolError, [], [buffer]⟩
      | .ok (args, consumed) =>
        let reply := dispatch state keepOpen args
        if reply.ok = false then ⟨reply.state, false, buffer, some .failed, [args], [buffer]⟩
        else if buffer.length < consumed then
          ⟨reply.state, reply.keepOpen, buffer, some .overrun, [args], [buffer]⟩
        else
          let d := drain fuel reply.state reply.keepOpen (buffer.drop consumed)
          { d with dispatched := args :: d.dispatched, parsed := buffer :: d.parsed }

/-- The state of the loop. `unread` are bytes that came when the session had ended. -/
structure Session (σ : Type) where
  state : σ
  buffer : List UInt8
  capacity : ℕ
  ended : Option Ending
  dispatched : List Args
  parsed : List (List UInt8)
  unread : List UInt8

def initialBuffer : ℕ := 16384

variable (max : ℕ)

def Session.start (s0 : σ) : Session σ :=
  ⟨s0, [], min initialBuffer max, none, [], [], []⟩

/-- Parse, and then close, give up on a full buffer or let it grow. -/
def Session.parse (s : Session σ) (buffer : List UInt8) : Session σ :=
  let d := drain dispatch (buffer.length + 1) s.state true buffer
  let s' := { s with
    state := d.state
    buffer := d.rest
    ended := d.stop.map .stopped
    dispatched := s.dispatched ++ d.dispatched
    parsed := s.parsed ++ d.parsed }
  if d.stop ≠ none then s'
  else if d.keepOpen = false then { s' with ended := some .closed }
  else if d.rest.length = s.capacity then
    if max ≤ s.capacity then { s' with ended := some .tooLarge }
    else { s' with capacity := if max / 2 < s.capacity then max else s.capacity * 2 }
  else s'

/-- One turn of the loop, with the bytes of a read. -/
def Session.receive (s : Session σ) (chunk : List UInt8) : Session σ :=
  match s.ended with
  | some _ => { s with unread := s.unread ++ chunk }
  | none => s.parse dispatch max (s.buffer ++ chunk)

def Session.run (s : Session σ) (reads : List (List UInt8)) : Session σ :=
  reads.foldl (Session.receive dispatch max) s

/-- The session in which the whole stream is in the buffer. -/
def Session.whole (s0 : σ) (stream : List UInt8) : Session σ :=
  { Session.start max s0 with capacity := max }.parse dispatch max stream

/-- The reads are those that the loop can make: some bytes, as far as there is room for them. -/
def Session.Reads : Session σ → List (List UInt8) → Prop
  | _, [] => True
  | s, chunk :: reads =>
    (s.ended = none → chunk ≠ [] ∧ chunk.length ≤ s.capacity - s.buffer.length) ∧
      Session.Reads (s.receive dispatch max chunk) reads

/-- The session dispatches and ends as with the whole stream in the buffer. The parser took only
well-formed requests that it had in full, and later bytes change none of its answers. -/
def Session.Independent (s0 : σ) (reads : List (List UInt8)) : Prop :=
  (((Session.start max s0).run dispatch max reads).dispatched =
      (Session.whole dispatch max s0 reads.flatten).dispatched ∧
    ((Session.start max s0).run dispatch max reads).ended =
      (Session.whole dispatch max s0 reads.flatten).ended) ∧
  ∀ b ∈ ((Session.start max s0).run dispatch max reads).parsed,
    (∀ args consumed, parseRequest b = .ok (args, consumed) →
      consumed ≤ b.length ∧ WellFormed (b.take consumed) args) ∧
    ∀ more, Parsed.Kept (parseRequest b) (parseRequest (b ++ more))

/-! ### The parse loop -/

variable {args : Args} {consumed : ℕ}

lemma Request.two_le {data : List UInt8} {lines : List Line}
    (h : Request data args lines consumed) : 2 ≤ consumed := by
  cases h with
  | inline => omega
  | array _ _ _ _ hbulks =>
    have := hbulks.le
    omega

lemma two_le_of_parseRequest {buffer : List UInt8}
    (h : parseRequest buffer = .ok (args, consumed)) : 2 ≤ consumed := by
  obtain ⟨lines, hrequest⟩ := parseRequest_eq_ok_iff.mp h
  exact hrequest.two_le

variable {dispatch max} {state : σ} {keepOpen : Bool} {buffer more : List UInt8}

lemma drain_fuel {fuel fuel' : ℕ} (hfuel : buffer.length < fuel) (hfuel' : buffer.length < fuel') :
    drain dispatch fuel state keepOpen buffer = drain dispatch fuel' state keepOpen buffer := by
  induction fuel generalizing fuel' state keepOpen buffer with
  | zero => omega
  | succ fuel ih =>
    obtain ⟨fuel', rfl⟩ : ∃ n, fuel' = n + 1 := ⟨fuel' - 1, by omega⟩
    rw [drain, drain]
    split_ifs with hnil
    · rfl
    · have hpos := length_pos_iff.mpr hnil
      cases hparse : parseRequest buffer with
      | more | error => rfl
      | ok result =>
        obtain ⟨args, consumed⟩ := result
        have hconsumed := two_le_of_parseRequest hparse
        have hlen := length_drop (i := consumed) (l := buffer)
        dsimp only
        rw [ih (by omega) (by omega : (buffer.drop consumed).length < fuel')]

variable (dispatch) in
/-- The loop with as many turns as it takes. -/
def drainAll (state : σ) (keepOpen : Bool) (buffer : List UInt8) : Drained σ :=
  drain dispatch (buffer.length + 1) state keepOpen buffer

lemma ne_nil_of_parseRequest (h : parseRequest buffer ≠ .more) : buffer ≠ [] := by
  rintro rfl
  exact h rfl

lemma drainAll_more (h : parseRequest buffer = .more) (hne : buffer ≠ []) :
    drainAll dispatch state keepOpen buffer = ⟨state, keepOpen, buffer, none, [], [buffer]⟩ := by
  rw [drainAll, drain, if_neg hne, h]

lemma drainAll_error (h : parseRequest buffer = .error) : drainAll dispatch state keepOpen buffer =
      ⟨state, false, buffer, some .protocolError, [], [buffer]⟩ := by
  rw [drainAll, drain, if_neg (ne_nil_of_parseRequest (by simp [h])), h]

lemma drainAll_ok (h : parseRequest buffer = .ok (args, consumed)) :
    drainAll dispatch state keepOpen buffer =
      if (dispatch state keepOpen args).ok = false then
        ⟨(dispatch state keepOpen args).state, false, buffer, some .failed, [args], [buffer]⟩
      else if buffer.length < consumed then
        ⟨(dispatch state keepOpen args).state, (dispatch state keepOpen args).keepOpen, buffer,
          some .overrun, [args], [buffer]⟩
      else
        let d := drainAll dispatch (dispatch state keepOpen args).state
          (dispatch state keepOpen args).keepOpen (buffer.drop consumed)
        { d with dispatched := args :: d.dispatched, parsed := buffer :: d.parsed } := by
  have hne := ne_nil_of_parseRequest (by simp [h] : parseRequest buffer ≠ .more)
  have hpos := length_pos_iff.mpr hne
  have hconsumed := two_le_of_parseRequest h
  have hlen := length_drop (i := consumed) (l := buffer)
  rw [drainAll, drain, if_neg hne, h]
  dsimp only
  rw [drain_fuel (by omega) (Nat.lt_succ_self _)]
  rfl

/-- The loop did what is given, and then what the other one did. -/
structure Drained.Follows (dispatched : List Args) (d d' : Drained σ) : Prop where
  state : d'.state = d.state
  keepOpen : d'.keepOpen = d.keepOpen
  rest : d'.rest = d.rest
  stop : d'.stop = d.stop
  dispatched : d'.dispatched = dispatched ++ d.dispatched

/-- On a longer buffer the loop does what it did on the shorter one. If it was not stopped there, it
goes on with what was left. -/
lemma drainAll_append {d : Drained σ} (hd : drainAll dispatch state keepOpen buffer = d)
    (hproper : ∀ b ∈ d.parsed, Proper b) (more : List UInt8) :
    (d.stop = none → Drained.Follows d.dispatched
      (drainAll dispatch d.state d.keepOpen (d.rest ++ more))
      (drainAll dispatch state keepOpen (buffer ++ more))) ∧
    (∀ stop, d.stop = some stop →
      (drainAll dispatch state keepOpen (buffer ++ more)).stop = some stop ∧
      (drainAll dispatch state keepOpen (buffer ++ more)).dispatched = d.dispatched) := by
  induction hlen : buffer.length using Nat.strong_induction_on generalizing state keepOpen buffer d
  rename_i n ih
  subst hlen
  by_cases hnil : buffer = []
  · subst hnil
    subst hd
    exact ⟨fun _ => ⟨rfl, rfl, rfl, rfl, rfl⟩, nofun⟩
  cases hparse : parseRequest buffer with
  | more =>
    rw [← hd, drainAll_more hparse hnil]
    exact ⟨fun _ => ⟨rfl, rfl, rfl, rfl, rfl⟩, nofun⟩
  | error =>
    have hparse' := (parseRequest_append more (by simp [hparse])).trans hparse
    have hd' : drainAll dispatch state keepOpen (buffer ++ more) = _ := drainAll_error hparse'
    rw [← hd, drainAll_error hparse, hd']
    exact ⟨nofun, fun stop h => ⟨h, rfl⟩⟩
  | ok result =>
    obtain ⟨args, consumed⟩ := result
    have hparse' := (parseRequest_append more (by simp [hparse])).trans hparse
    have hd' : drainAll dispatch state keepOpen (buffer ++ more) = _ := drainAll_ok hparse'
    rw [drainAll_ok hparse] at hd
    by_cases hok : (dispatch state keepOpen args).ok = false
    · rw [if_pos hok] at hd hd'
      rw [← hd, hd']
      exact ⟨nofun, fun stop h => ⟨h, rfl⟩⟩
    rw [if_neg hok] at hd hd'
    have hmem : buffer ∈ d.parsed := by
      rw [← hd]
      split_ifs <;> simp
    have hle : consumed ≤ buffer.length :=
      ((parseRequest_wellFormed_iff buffer).mpr (hproper buffer hmem) args consumed hparse).1
    have hle' : ¬ (buffer ++ more).length < consumed := by
      rw [length_append]
      omega
    rw [if_neg (by omega)] at hd
    rw [if_neg hle', drop_append_of_le_length hle] at hd'
    have hlt : (buffer.drop consumed).length < buffer.length := by
      have hconsumed := two_le_of_parseRequest hparse
      have hpos := length_pos_iff.mpr hnil
      rw [length_drop]
      omega
    subst hd
    obtain ⟨hfollows, hstopped⟩ := ih _ hlt rfl
      (fun b hb => hproper b (mem_cons_of_mem _ hb)) rfl
    rw [hd']
    refine ⟨fun h => ?_, fun stop h => ?_⟩
    · obtain ⟨hstate, hkeep, hrest, hstop, hdisp⟩ := hfollows h
      exact ⟨hstate, hkeep, hrest, hstop, congrArg (args :: ·) hdisp⟩
    · obtain ⟨hstop, hdisp⟩ := hstopped stop h
      exact ⟨hstop, congrArg (args :: ·) hdisp⟩

/-- What is left is no longer than the buffer, and the beginning of a request if the loop was not
stopped. -/
lemma drainAll_rest {d : Drained σ} (hd : drainAll dispatch state keepOpen buffer = d) :
    d.rest.length ≤ buffer.length ∧ (d.stop = none → parseRequest d.rest = .more) := by
  induction hlen : buffer.length using Nat.strong_induction_on generalizing state keepOpen buffer d
  rename_i n ih
  subst hlen
  by_cases hnil : buffer = []
  · subst hnil
    subst hd
    exact ⟨le_rfl, fun _ => rfl⟩
  cases hparse : parseRequest buffer with
  | more =>
    rw [← hd, drainAll_more hparse hnil]
    exact ⟨le_rfl, fun _ => hparse⟩
  | error =>
    rw [← hd, drainAll_error hparse]
    exact ⟨le_rfl, nofun⟩
  | ok result =>
    obtain ⟨args, consumed⟩ := result
    have hconsumed := two_le_of_parseRequest hparse
    have hpos := length_pos_iff.mpr hnil
    have hlen : (buffer.drop consumed).length = buffer.length - consumed := length_drop
    rw [← hd, drainAll_ok hparse]
    split_ifs
    · exact ⟨le_rfl, nofun⟩
    · exact ⟨le_rfl, nofun⟩
    · obtain ⟨hle, hmore⟩ := ih (buffer.drop consumed).length (by omega) rfl rfl
      exact ⟨by dsimp only; omega, hmore⟩

lemma drainAll_of_more (h : parseRequest buffer = .more) :
    ∃ parsed, drainAll dispatch state keepOpen buffer =
      ⟨state, keepOpen, buffer, none, [], parsed⟩ := by
  by_cases hnil : buffer = []
  · subst hnil
    exact ⟨_, rfl⟩
  · exact ⟨_, drainAll_more h hnil⟩

/-! ### Sessions -/

/-- How the session ends after the parse loop. -/
def Drained.ending (max : ℕ) (d : Drained σ) : Option Ending :=
  match d.stop with
  | some stop => some (.stopped stop)
  | none =>
    if d.keepOpen = false then some .closed
    else if d.rest.length = max then some .tooLarge
    else none

lemma Drained.Follows.ending {dispatched : List Args} {d d' : Drained σ}
    (h : Drained.Follows dispatched d d') : d'.ending max = d.ending max := by
  rw [Drained.ending, Drained.ending, h.stop, h.keepOpen, h.rest]

/-- The session after the parse loop. -/
structure Session.Took (max : ℕ) (s s' : Session σ) (d : Drained σ) : Prop where
  state : s'.state = d.state
  buffer : s'.buffer = d.rest
  dispatched : s'.dispatched = s.dispatched ++ d.dispatched
  parsed : s'.parsed = s.parsed ++ d.parsed
  unread : s'.unread = s.unread
  ended : s'.ended = d.ending max
  capacity : s'.ended = none → s'.buffer.length < s'.capacity ∧ s'.capacity ≤ max

lemma Session.took_parse {s : Session σ}
    (hroom : (drainAll dispatch s.state true buffer).rest.length ≤ s.capacity)
    (hpos : 0 < s.capacity) (hmax : s.capacity ≤ max) :
    s.Took max (s.parse dispatch max buffer) (drainAll dispatch s.state true buffer) := by
  have hd : drain dispatch (buffer.length + 1) s.state true buffer =
      drainAll dispatch s.state true buffer := rfl
  simp only [parse, hd]
  generalize drainAll dispatch s.state true buffer = d at hroom
  cases hstop : d.stop with
  | some =>
    exact ⟨rfl, rfl, rfl, rfl, rfl, by rw [Drained.ending, hstop]; rfl, nofun⟩
  | none =>
    have hending : d.ending max = if d.keepOpen = false then some .closed
        else if d.rest.length = max then some .tooLarge else none := by
      rw [Drained.ending, hstop]
    rw [if_neg (not_not.mpr rfl)]
    split_ifs with hclosed hfull hgrown hhalf
    · exact ⟨rfl, rfl, rfl, rfl, rfl, by rw [hending, if_pos hclosed], nofun⟩
    · have heq : d.rest.length = max := by omega
      exact ⟨rfl, rfl, rfl, rfl, rfl, by rw [hending, if_neg hclosed, if_pos heq],
        nofun⟩
    all_goals
      have hne : ¬ d.rest.length = max := by omega
      exact ⟨rfl, rfl, rfl, rfl, rfl, by rw [hending, if_neg hclosed, if_neg hne]; rfl,
        fun _ => by dsimp only; omega⟩

namespace Session

variable {s : Session σ} {chunk : List UInt8} {reads : List (List UInt8)}

/-- A session that has ended leaves the bytes that come. -/
lemma run_of_ended {e : Ending} (h : s.ended = some e) :
    s.run dispatch max reads = { s with unread := s.unread ++ reads.flatten } := by
  induction reads generalizing s with
  | nil => simp [run]
  | cons chunk reads ih =>
    have hstep : s.receive dispatch max chunk = { s with unread := s.unread ++ chunk } := by
      rw [receive, h]
    have hrest : run dispatch max { s with unread := s.unread ++ chunk } reads =
        { s with unread := s.unread ++ chunk ++ reads.flatten } := ih h
    rw [run, foldl_cons, hstep, flatten_cons, ← append_assoc]
    exact hrest

lemma parsed_parse (s : Session σ) : (s.parse dispatch max buffer).parsed =
      s.parsed ++ (drainAll dispatch s.state true buffer).parsed := by
  unfold parse
  dsimp only
  split_ifs <;> rfl

lemma mem_parsed_run {b : List UInt8} (hb : b ∈ s.parsed) :
    b ∈ (s.run dispatch max reads).parsed := by
  induction reads generalizing s with
  | nil => exact hb
  | cons chunk reads ih =>
    refine ih ?_
    rw [receive]
    cases s.ended with
    | some => exact hb
    | none =>
      rw [parsed_parse]
      exact mem_append_left _ hb

/-- What reads have made of the session `s`, against what the parse loop does with all of their
bytes. -/
structure Agrees (dispatch : σ → Bool → Args → Reply σ) (max : ℕ) (s r : Session σ)
    (d : Drained σ) : Prop where
  opened : r.ended ≠ some .closed →
    r.ended = d.ending max ∧ r.dispatched = s.dispatched ++ d.dispatched
  closed : r.ended = some .closed → ∃ state dispatched, r.dispatched = s.dispatched ++ dispatched ∧
    Drained.Follows dispatched (drainAll dispatch state false (r.buffer ++ r.unread)) d

section

variable {s' : Session σ} {d d' : Drained σ} (htook : s.Took max s' d)
include htook

lemma Took.agrees_of_stopped {stop : Stop} (hstop : d.stop = some stop)
    (hstop' : d'.stop = some stop) (hdispatched : d'.dispatched = d.dispatched) :
    s.Agrees dispatch max (s'.run dispatch max reads) d' := by
  have hending : s'.ended = some (.stopped stop) := by rw [htook.ended, Drained.ending, hstop]
  rw [run_of_ended hending]
  refine ⟨fun _ => ⟨?_, ?_⟩, fun h => ?_⟩
  · rw [hending, Drained.ending, hstop']
  · rw [htook.dispatched, hdispatched]
  · rw [hending] at h
    cases h

variable (hstop : d.stop = none)
include hstop

lemma Took.agrees_of_closed (hclosed : d.keepOpen = false) (hunread : s.unread = [])
    (hfollows : Drained.Follows d.dispatched (drainAll dispatch d.state d.keepOpen
      (d.rest ++ reads.flatten)) d') : s.Agrees dispatch max (s'.run dispatch max reads) d' := by
  have hending : s'.ended = some .closed := by
    rw [htook.ended, Drained.ending, hstop]
    exact if_pos hclosed
  rw [run_of_ended hending]
  refine ⟨fun h => absurd hending h, fun _ => ⟨d.state, d.dispatched, htook.dispatched, ?_⟩⟩
  rwa [htook.buffer, htook.unread, hunread, nil_append, ← hclosed]

lemma Took.agrees_of_full (hopen : ¬ d.keepOpen = false) (hfull : d.rest.length = max)
    (hnil : reads.flatten = []) : s.Agrees dispatch max (s'.run dispatch max reads) d := by
  have hending : s'.ended = some .tooLarge := by
    rw [htook.ended, Drained.ending, hstop]
    rw [if_neg hopen, if_pos hfull]
  rw [run_of_ended hending, hnil, append_nil]
  refine ⟨fun _ => ⟨htook.ended, htook.dispatched⟩, fun h => ?_⟩
  rw [hending] at h
  cases h

end

/-- The reads of an open session against the parse loop on all of their bytes. -/
lemma run_spec (hopen : s.ended = none) (hmore : parseRequest s.buffer = .more)
    (hroom : s.buffer.length < s.capacity ∧ s.capacity ≤ max) (hunread : s.unread = [])
    (hlen : (s.buffer ++ reads.flatten).length ≤ max) (hreads : Reads dispatch max s reads)
    (hproper : ∀ b ∈ (s.run dispatch max reads).parsed, Proper b) :
    s.Agrees dispatch max (s.run dispatch max reads)
      (drainAll dispatch s.state true (s.buffer ++ reads.flatten)) := by
  induction reads generalizing s with
  | nil =>
    obtain ⟨parsed, hd⟩ : ∃ parsed, drainAll dispatch s.state true s.buffer =
        ⟨s.state, true, s.buffer, none, [], parsed⟩ := drainAll_of_more hmore
    have hrun : s.run dispatch max [] = s := rfl
    have hne : ¬ s.buffer.length = max := by omega
    rw [hrun, flatten_nil, append_nil, hd]
    refine ⟨fun _ => ⟨?_, (append_nil _).symm⟩, fun h => absurd (hopen.symm.trans h) nofun⟩
    simp [Drained.ending, hne, hopen]
  | cons chunk reads ih =>
    have hflatten : s.buffer ++ (chunk :: reads).flatten =
        (s.buffer ++ chunk) ++ reads.flatten := by
      rw [flatten_cons, append_assoc]
    have hrun : s.run dispatch max (chunk :: reads) =
        (s.parse dispatch max (s.buffer ++ chunk)).run dispatch max reads := by
      have hstep : s.receive dispatch max chunk =
          s.parse dispatch max (s.buffer ++ chunk) := by rw [receive, hopen]
      rw [run, foldl_cons, hstep]
      rfl
    obtain ⟨hchunk, hreads⟩ := hreads
    rw [receive, hopen] at hreads
    rw [hrun] at hproper ⊢
    rw [hflatten] at hlen ⊢
    obtain ⟨hrestle, hrestmore⟩ :
        (drainAll dispatch s.state true (s.buffer ++ chunk)).rest.length ≤ _ ∧ _ :=
      drainAll_rest rfl
    have hfit : (s.buffer ++ chunk).length ≤ s.capacity := by
      have := (hchunk hopen).2
      rw [length_append]
      omega
    have htook : s.Took max (s.parse dispatch max (s.buffer ++ chunk)) _ :=
      took_parse (hrestle.trans hfit) (by omega) hroom.2
    have hparsed : ∀ b ∈ (drainAll dispatch s.state true (s.buffer ++ chunk)).parsed, Proper b := by
      intro b hb
      refine hproper b (mem_parsed_run ?_)
      rw [htook.parsed]
      exact mem_append_right _ hb
    obtain ⟨hfollows, hstopped⟩ := drainAll_append rfl hparsed reads.flatten
    generalize hd : drainAll dispatch s.state true (s.buffer ++ chunk) = d at *
    generalize s.parse dispatch max (s.buffer ++ chunk) = s' at *
    cases hstop : d.stop with
    | some stop =>
      obtain ⟨hstop', hdispatched⟩ := hstopped stop hstop
      exact htook.agrees_of_stopped hstop hstop' hdispatched
    | none =>
      have hfollows := hfollows hstop
      by_cases hclosed : d.keepOpen = false
      · exact htook.agrees_of_closed hstop hclosed hunread hfollows
      by_cases hfull : d.rest.length = max
      · -- nothing was taken from the buffer and all bytes are there
        have hnil : reads.flatten = [] := by
          rw [length_append] at hlen
          exact eq_nil_of_length_eq_zero (by omega)
        rw [hnil, append_nil, hd]
        exact htook.agrees_of_full hstop hclosed hfull hnil
      · have hending : s'.ended = none := by
          rw [htook.ended, Drained.ending, hstop]
          rw [if_neg hclosed, if_neg hfull]
        have hkeep : d.keepOpen = true := by simpa using hclosed
        have hlen' : (s'.buffer ++ reads.flatten).length ≤ max := by
          rw [htook.buffer]
          rw [length_append] at hlen ⊢
          omega
        obtain ⟨hopen', hclosed'⟩ := ih hending (by rw [htook.buffer]; exact hrestmore hstop)
          (htook.capacity hending) (htook.unread.trans hunread) hlen' hreads hproper
        rw [htook.state, htook.buffer, htook.dispatched, ← hkeep] at hopen' hclosed'
        refine ⟨fun h => ?_, fun h => ?_⟩
        · obtain ⟨hend, hdisp⟩ := hopen' h
          rw [hfollows.ending, hfollows.dispatched, hend, hdisp, append_assoc]
          exact ⟨rfl, rfl⟩
        · obtain ⟨state, dispatched, hdisp, hlast⟩ := hclosed' h
          refine ⟨state, d.dispatched ++ dispatched, by rw [hdisp, append_assoc], ?_⟩
          exact ⟨hfollows.state.trans hlast.state, hfollows.keepOpen.trans hlast.keepOpen,
            hfollows.rest.trans hlast.rest, hfollows.stop.trans hlast.stop,
            by rw [hfollows.dispatched, hlast.dispatched, append_assoc]⟩

/-- The session with the whole stream in its buffer is the parse loop on it. -/
lemma whole_spec (s0 : σ) {stream : List UInt8} (hmax : 0 < max) (hlen : stream.length ≤ max) :
    (whole dispatch max s0 stream).ended = (drainAll dispatch s0 true stream).ending max ∧
      (whole dispatch max s0 stream).dispatched =
        (drainAll dispatch s0 true stream).dispatched := by
  have hrest : (drainAll dispatch s0 true stream).rest.length ≤ _ := (drainAll_rest rfl).1
  have htook : ({ start max s0 with capacity := max } : Session σ).Took max
      (whole dispatch max s0 stream) (drainAll dispatch s0 true stream) :=
    took_parse (hrest.trans hlen) hmax (le_refl max)
  exact ⟨htook.ended, htook.dispatched⟩

/-- A session and the one with the whole stream, when the bytes that it dispatched are proper. -/
lemma same_iff {r w : Session σ} {d' : Drained σ}
    (hwhole : w.ended = d'.ending max ∧ w.dispatched = d'.dispatched)
    (hs : s.dispatched = []) (hspec : s.Agrees dispatch max r d') :
    (r.dispatched = w.dispatched ∧ r.ended = w.ended) ↔
      (r.ended = some .closed → parseRequest (r.buffer ++ r.unread) = .more) := by
  rw [hwhole.1, hwhole.2]
  obtain ⟨hopen, hclosed⟩ := hspec
  by_cases hend : r.ended = some .closed
  · obtain ⟨state, dispatched, hdispatched, hfollows⟩ := hclosed hend
    rw [hfollows.ending, hfollows.dispatched, hdispatched, hend, hs, nil_append]
    refine ⟨fun ⟨hlist, hending⟩ _ => ?_, fun hmore => ?_⟩
    · cases hparse : parseRequest (r.buffer ++ r.unread) with
      | more => rfl
      | error =>
        rw [drainAll_error hparse] at hending
        cases hending
      | ok result =>
        obtain ⟨args, consumed⟩ := result
        obtain ⟨rest, hrest⟩ : ∃ rest,
            (drainAll dispatch state false (r.buffer ++ r.unread)).dispatched = args :: rest := by
          rw [drainAll_ok hparse]
          split_ifs <;> exact ⟨_, rfl⟩
        rw [hrest, self_eq_append_right] at hlist
        cases hlist
    · obtain ⟨parsed, hd⟩ : ∃ parsed, drainAll dispatch state false (r.buffer ++ r.unread) =
          ⟨state, false, r.buffer ++ r.unread, none, [], parsed⟩ := drainAll_of_more (hmore rfl)
      rw [hd]
      exact ⟨(append_nil _).symm, rfl⟩
  · obtain ⟨hending, hdispatched⟩ := hopen hend
    rw [hs, nil_append] at hdispatched
    exact ⟨fun _ h => absurd h hend, fun _ => ⟨hdispatched, hending⟩⟩

/-- For reads of at most the maximum of bytes, what is dispatched is independent of the reads if and
only if all buffers that are parsed are proper, and what comes after a request that closes the
session is at most the beginning of another one. -/
theorem independent_iff (dispatch : σ → Bool → Args → Reply σ) (max : ℕ) (s0 : σ)
    (reads : List (List UInt8)) (hmax : 64 ≤ max) (hlen : reads.flatten.length ≤ max)
    (hreads : Reads dispatch max (start max s0) reads) : Independent dispatch max s0 reads ↔
      (∀ b ∈ ((start max s0).run dispatch max reads).parsed, Proper b) ∧
      (((start max s0).run dispatch max reads).ended = some .closed →
        parseRequest (((start max s0).run dispatch max reads).buffer ++
          ((start max s0).run dispatch max reads).unread) = .more) := by
  have hroom : (start max s0).buffer.length < (start max s0).capacity ∧
      (start max s0).capacity ≤ max := by
    have hcapacity : (start max s0).capacity = min 16384 max := rfl
    have hbuffer : (start max s0).buffer.length = 0 := rfl
    omega
  have hwhole : (whole dispatch max s0 reads.flatten).ended =
      (drainAll dispatch s0 true reads.flatten).ending max ∧
      (whole dispatch max s0 reads.flatten).dispatched =
        (drainAll dispatch s0 true reads.flatten).dispatched :=
    whole_spec s0 (by omega) hlen
  have hsame (hproper : ∀ b ∈ ((start max s0).run dispatch max reads).parsed, Proper b) :=
    same_iff hwhole rfl (run_spec rfl rfl hroom rfl hlen hreads hproper)
  refine ⟨fun hindependent => ?_, fun ⟨hproper, hclosed⟩ => ?_⟩
  · have hproper : ∀ b ∈ ((start max s0).run dispatch max reads).parsed, Proper b :=
      fun b hb => (parseRequest_wellFormed_iff b).mp (hindependent.2 b hb).1
    exact ⟨hproper, (hsame hproper).mp hindependent.1⟩
  · refine ⟨(hsame hproper).mpr hclosed, fun b hb => ⟨?_, kept_parseRequest b⟩⟩
    exact (parseRequest_wellFormed_iff b).mpr (hproper b hb)

end Session

end Loop

namespace Sample

open Bytes

/-- Handlers that succeed; a session is closed by `QUIT` alone. -/
def answering (_ : Unit) (_ : Bool) (args : Args) : Reply Unit :=
  ⟨(), args ≠ [ascii "QUIT"], true⟩

/-- A line of fifteen bytes. -/
def line : List UInt8 := ascii "SET alpha value"

/-- If the line is cut before its line feed, the loop moves past the end of the buffer. If `QUIT` is
in a read of its own, what follows it is not dispatched. -/
theorem dispatch_depends_on_reads :
    (((Session.start 64 ()).run answering 64 [line ++ [cr], [lf]]).ended =
        some (.stopped .overrun) ∧ (Session.whole answering 64 () (line ++ [cr, lf])).ended = none ∧
      ¬ Session.Independent answering 64 () [line ++ [cr], [lf]]) ∧
    (((Session.start 64 ()).run answering 64 [ascii "QUIT\r\n", ascii "PING\r\n"]).dispatched =
        [[ascii "QUIT"]] ∧ (Session.whole answering 64 () (ascii "QUIT\r\nPING\r\n")).dispatched =
        [[ascii "QUIT"], [ascii "PING"]]) := by
  have hrun : ((Session.start 64 ()).run answering 64 [line ++ [cr], [lf]]).ended =
      some (.stopped .overrun) := by decide +kernel
  have hwhole : (Session.whole answering 64 () [line ++ [cr], [lf]].flatten).ended = none := by
    decide +kernel
  refine ⟨⟨hrun, hwhole, fun h => ?_⟩, by decide +kernel, by decide +kernel⟩
  have hended := h.1.2
  rw [hrun, hwhole] at hended
  cases hended

/-- The same line, cut elsewhere. -/
def cutInside : List (List UInt8) := [ascii "SET alpha val", ascii "ue\r\n"]

/-- The condition is met, and the line is dispatched as a whole. -/
theorem independent_cutInside : Session.Independent answering 64 () cutInside ∧
      ((Session.start 64 ()).run answering 64 cutInside).dispatched =
        [[ascii "SET", ascii "alpha", ascii "value"]] := by
  have hreads : Session.Reads answering 64 (Session.start 64 ()) cutInside :=
    ⟨fun _ => by decide +kernel, fun _ => by decide +kernel, trivial⟩
  have hparsed : ((Session.start 64 ()).run answering 64 cutInside).parsed =
      [ascii "SET alpha val", ascii "SET alpha value\r\n"] := by decide +kernel
  have hended : ((Session.start 64 ()).run answering 64 cutInside).ended = none := by
    decide +kernel
  refine ⟨(Session.independent_iff answering 64 () cutInside (by decide) (by decide +kernel)
    hreads).mpr ⟨?_, fun h => ?_⟩, by decide +kernel⟩
  · rw [hparsed]
    intro b hb
    obtain rfl | rfl := mem_pair.mp hb
    all_goals exact proper_of_forall (by decide +kernel)
  · rw [hended] at h
    cases h

end Sample

end Qihse.Resp
