import Qihse.Event.Record

/-!
# The write-ahead log of the SQLite VFS

`qihse_vfs_wal.c` keeps every write as a record of an event stream, its offset before its bytes, and
an image of the file beside it: a write patches the image, and a rebuild replays the records into
it. The stream refuses a payload that it has, and the image needs a buffer that can be had, so the
log is a file as long as no write is repeated and the buffer can be grown.
-/

namespace Qihse.Vfs

open Bytes List

/-- An offset and the bytes to write there. -/
@[ext]
structure Write where
  offset : ℕ
  data : List UInt8
  deriving DecidableEq

/-- The payload of a record: eight bytes of offset, then the data. -/
def Write.payload (w : Write) : List UInt8 := le 8 w.offset ++ w.data

/-- The bytes of a file, zero where nothing was written, and its end. -/
@[ext]
structure File where
  bytes : ℕ → UInt8
  size : ℕ

namespace File

def empty : File := ⟨fun _ => 0, 0⟩

def write (f : File) (w : Write) : File where
  bytes p := if w.offset ≤ p then (w.data[p - w.offset]?).getD (f.bytes p) else f.bytes p
  size := max f.size (w.offset + w.data.length)

def read (f : File) (offset size : ℕ) : Option (List UInt8) :=
  if f.size < offset + size then none
  else some ((List.range size).map fun i => f.bytes (offset + i))

/-- The file that some writes make. -/
def of (ws : List Write) : File := ws.foldl write empty

end File

open File

/-- The payloads of the topic; the image has `replay_buf` and `replay_len`, and `cap` bytes are
allocated for it. -/
structure Wal where
  stream : List (List UInt8)
  image : File
  cap : ℕ
  replayed : Bool

/-- The loop of `wal_buf_grow`. -/
def doubled : ℕ → ℕ → ℕ → ℕ
  | 0, cap, _ => cap
  | n + 1, cap, size => if cap < size then doubled n (cap * 2) size else cap

/-- The capacity that is asked for. -/
def grown (cap size : ℕ) : ℕ := doubled size (if cap = 0 then 64 * 1024 else cap) size

section

-- The sizes that `realloc` grants.
variable (alloc : ℕ → Bool)

/-- `wal_buf_grow`: the new capacity. Beyond `2 ^ 63` the loop of the source does not end. -/
def walBufGrow (cap size : ℕ) : Option ℕ :=
  if size ≤ cap then some cap
  else if size ≤ 2 ^ 63 ∧ alloc (grown cap size) then some (grown cap size)
  else none

namespace Wal

/-- A write is put into the image, if its buffer can be grown. -/
def patch (wal : Wal) (w : Write) : Option Wal :=
  (walBufGrow alloc wal.cap (w.offset + w.data.length)).map fun cap =>
    { wal with image := wal.image.write w, cap := cap }

/-- `rebuild_cb`; `none` stops the replay. -/
def rebuildCb (wal : Wal) (payload : List UInt8) : Option Wal :=
  if payload.length < 8 then some wal
  else wal.patch alloc ⟨ofLe (payload.take 8), payload.drop 8⟩

def replay : List (List UInt8) → Wal → Wal
  | [], wal => wal
  | payload :: rest, wal => (wal.rebuildCb alloc payload).elim wal (replay rest)

/-- `qihse_vfs_wal_create` on the records of an existing stream. -/
def create (stream : List (List UInt8)) : Wal := ⟨stream, .empty, 0, false⟩

/-- `qihse_vfs_wal_rebuild_flat`: the length is reset, the buffer is used again as it is, and a
replay that was stopped counts as one. -/
def rebuildFlat (wal : Wal) : Wal :=
  { replay alloc wal.stream { wal with image := ⟨wal.image.bytes, 0⟩ } with replayed := true }

/-- `qihse_vfs_wal_append`. Event ids are hashes of payloads, so the stream refuses one it has. -/
def append (wal : Wal) (w : Write) : Bool × Wal :=
  if w.data = [] ∨ Event.maxPayload < w.payload.length ∨ wal.stream.contains w.payload then
    (false, wal)
  else
    let logged := { wal with stream := wal.stream ++ [w.payload] }
    (true, if wal.replayed then (logged.patch alloc w).getD { logged with replayed := false }
      else logged)

def ensure (wal : Wal) : Wal := if wal.replayed then wal else wal.rebuildFlat alloc

/-- `qihse_vfs_wal_read`. -/
def read (wal : Wal) (offset size : ℕ) : Option (List UInt8) :=
  if size = 0 then none else (wal.ensure alloc).image.read offset size

/-- `qihse_vfs_wal_size`. -/
def size (wal : Wal) : ℕ := (wal.ensure alloc).image.size

end Wal

inductive WalOp
  | append (w : Write)
  | read
  | rebuild
  | reopen

def Wal.step (wal : Wal) : WalOp → Wal
  | .append w => (wal.append alloc w).2
  | .read => wal.ensure alloc
  | .rebuild => wal.rebuildFlat alloc
  | .reopen => .create wal.stream

def walRun (ops : List WalOp) : Wal := ops.foldl (Wal.step alloc) (.create [])

def writes (ops : List WalOp) : List Write :=
  ops.filterMap fun | .append w => some w | _ => none

/-- A write the stream has room for, at an offset that a buffer reaches; whatever the doubling asks
for to reach it is granted. -/
structure Write.Fits (w : Write) : Prop where
  data : w.data ≠ []
  payload : w.payload.length ≤ Event.maxPayload
  reach : w.offset + w.data.length ≤ 2 ^ 63
  granted : ∀ cap ≤ max (64 * 1024) (2 * (w.offset + w.data.length)), alloc cap = true

end

variable {alloc : ℕ → Bool}

/-- The log has the writes `ws`. -/
structure Wal.Holds (alloc : ℕ → Bool) (wal : Wal) (ws : List Write) : Prop where
  stream : wal.stream = ws.map Write.payload
  fits : ∀ w ∈ ws, w.Fits alloc
  image : wal.image = .of (if wal.replayed then ws else [])

lemma doubled_le {n cap size : ℕ} : doubled n cap size ≤ max cap (2 * size) := by
  induction n generalizing cap with
  | zero => exact le_max_left ..
  | succ n ih =>
    rw [doubled]
    split_ifs with hlt
    · have hle : doubled n (cap * 2) size ≤ max (cap * 2) (2 * size) := ih
      omega
    · exact le_max_left ..

lemma grown_le {cap size : ℕ} (h : cap < size) : grown cap size ≤ max (64 * 1024) (2 * size) := by
  refine doubled_le.trans (max_le ?_ (le_max_right ..))
  split_ifs
  · exact le_max_left ..
  · exact le_max_of_le_right (by omega)

/-- The buffer can be grown for a write that fits. -/
lemma Write.Fits.patch {w : Write} (h : w.Fits alloc) (wal : Wal) :
    ∃ cap, wal.patch alloc w = some { wal with image := wal.image.write w, cap := cap } := by
  unfold Wal.patch walBufGrow
  split_ifs with hcap hgrow
  · exact ⟨_, rfl⟩
  · exact ⟨_, rfl⟩
  · exact absurd ⟨h.reach, h.granted _ (grown_le (not_le.mp hcap))⟩ hgrow

/-- After the same writes two files have the same byte wherever one of the writes was. -/
lemma File.foldl_write (ws : List Write) {f g : File} (hsize : f.size = g.size) :
    (ws.foldl write f).size = (ws.foldl write g).size ∧
      ∀ p, (ws.foldl write f).bytes p = (ws.foldl write g).bytes p ∨
        (ws.foldl write f).bytes p = f.bytes p ∧ (ws.foldl write g).bytes p = g.bytes p := by
  induction ws generalizing f g with
  | nil => exact ⟨hsize, fun p => .inr ⟨rfl, rfl⟩⟩
  | cons w ws ih =>
    obtain ⟨hend, hbytes⟩ := ih (f := f.write w) (g := g.write w) (by simp [write, hsize])
    refine ⟨hend, fun p => ?_⟩
    rcases hbytes p with heq | ⟨hf, hg⟩
    · exact .inl heq
    · rw [foldl_cons, foldl_cons, hf, hg]
      unfold write
      dsimp only
      split_ifs
      · cases w.data[p - w.offset]? with
        | none => exact .inr ⟨rfl, rfl⟩
        | some => exact .inl rfl
      · exact .inr ⟨rfl, rfl⟩

/-- A second replay changes nothing. -/
lemma File.of_again (ws : List Write) : ws.foldl write { of ws with size := 0 } = of ws := by
  obtain ⟨hsize, hbytes⟩ := foldl_write ws (f := { of ws with size := 0 }) (g := empty) rfl
  exact File.ext (funext fun p => (hbytes p).elim id And.left) hsize

lemma Write.Fits.ofLe_offset {w : Write} (h : w.Fits alloc) : ofLe (le 8 w.offset) = w.offset :=
  ofLe_le (lt_of_le_of_lt (le_self_add.trans h.reach) (by decide))

lemma Write.Fits.rebuildCb {w : Write} (h : w.Fits alloc) (wal : Wal) :
    wal.rebuildCb alloc w.payload = wal.patch alloc w := by
  have hlen := length_le 8 w.offset
  unfold Wal.rebuildCb Write.payload
  rw [if_neg (by simp [hlen]), take_left' hlen, drop_left' hlen, h.ofLe_offset]

lemma Write.Fits.payload_inj {v w : Write} (hv : v.Fits alloc) (hw : w.Fits alloc)
    (h : v.payload = w.payload) : v = w := by
  obtain ⟨hoffset, hdata⟩ := append_inj h (by simp only [length_le])
  refine Write.ext ?_ hdata
  rw [← hv.ofLe_offset, hoffset, hw.ofLe_offset]

/-- Writes that fit are all replayed. -/
lemma Wal.replay_payloads {ws : List Write} (h : ∀ w ∈ ws, w.Fits alloc) (wal : Wal) :
    ∃ cap, replay alloc (ws.map Write.payload) wal =
      { wal with image := ws.foldl write wal.image, cap := cap } := by
  induction ws generalizing wal with
  | nil => exact ⟨wal.cap, rfl⟩
  | cons w ws ih =>
    obtain ⟨hw, hws⟩ := forall_mem_cons.mp h
    obtain ⟨cap, hpatch⟩ := hw.patch wal
    rw [map_cons, replay, hw.rebuildCb, hpatch]
    exact ih hws _

namespace Wal.Holds

variable {wal : Wal} {ws : List Write}

lemma rebuildFlat (h : wal.Holds alloc ws) : (wal.rebuildFlat alloc).Holds alloc ws := by
  obtain ⟨cap, hreplay⟩ := replay_payloads h.fits { wal with image := ⟨wal.image.bytes, 0⟩ }
  rw [← h.stream] at hreplay
  rw [Wal.rebuildFlat, hreplay]
  refine ⟨h.stream, h.fits, ?_⟩
  change ws.foldl write ⟨wal.image.bytes, 0⟩ = .of ws
  rw [h.image]
  split_ifs
  · exact of_again ws
  · rfl

lemma ensure (h : wal.Holds alloc ws) :
    (wal.ensure alloc).Holds alloc ws ∧ (wal.ensure alloc).image = .of ws := by
  unfold Wal.ensure
  split_ifs with hr
  · exact ⟨h, by rw [h.image, if_pos hr]⟩
  · exact ⟨h.rebuildFlat, h.rebuildFlat.image⟩

lemma append (h : wal.Holds alloc ws) {w : Write} (hw : w.Fits alloc) (hnew : w ∉ ws) :
    (wal.append alloc w).1 = true ∧ (wal.append alloc w).2.Holds alloc (ws ++ [w]) := by
  have hpayload : w.payload ∉ wal.stream := by
    rw [h.stream]
    intro hmem
    obtain ⟨v, hv, heq⟩ := mem_map.mp hmem
    exact hnew ((h.fits v hv).payload_inj hw heq ▸ hv)
  have hall : ∀ v ∈ ws ++ [w], v.Fits alloc :=
    forall_mem_append.mpr ⟨h.fits, forall_mem_singleton.mpr hw⟩
  obtain ⟨cap, hpatch⟩ := hw.patch { wal with stream := wal.stream ++ [w.payload] }
  unfold Wal.append
  rw [if_neg (by simp [hw.data, hw.payload, hpayload])]
  refine ⟨rfl, ?_⟩
  dsimp only
  split_ifs with hr
  · rw [hpatch]
    refine ⟨by simp [h.stream], hall, ?_⟩
    simp [h.image, hr, of]
  · refine ⟨by simp [h.stream], hall, ?_⟩
    simp [h.image, hr]

lemma run {ops : List WalOp} (h : wal.Holds alloc ws) (hfits : ∀ w ∈ writes ops, w.Fits alloc)
    (hnew : (ws ++ writes ops).Nodup) :
    (ops.foldl (Wal.step alloc) wal).Holds alloc (ws ++ writes ops) := by
  induction ops generalizing wal ws with
  | nil => simpa [writes] using h
  | cons op ops ih =>
    cases op with
    | append w =>
      have hw : w ∉ ws := fun hmem => (nodup_append.mp hnew).2.2 w hmem w mem_cons_self rfl
      rw [show writes (.append w :: ops) = [w] ++ writes ops from rfl, ← append_assoc] at hnew ⊢
      exact ih (h.append (hfits w mem_cons_self) hw).2
        (fun v hv => hfits v (mem_cons_of_mem w hv)) hnew
    | read => exact ih h.ensure.1 hfits hnew
    | rebuild => exact ih h.rebuildFlat hfits hnew
    | reopen => exact ih ⟨h.stream, h.fits, rfl⟩ hfits hnew

end Wal.Holds

/-- Without a repeated write, and with the memory for its image, the log is the file that the writes
make. -/
theorem wal_refines_file (ops : List WalOp) (hfits : ∀ w ∈ writes ops, w.Fits alloc)
    (hnew : (writes ops).Nodup) :
    (∀ w, w.Fits alloc → w ∉ writes ops → ((walRun alloc ops).append alloc w).1 = true) ∧
      (walRun alloc ops).size alloc = (of (writes ops)).size ∧
        ∀ offset size, 0 < size →
          (walRun alloc ops).read alloc offset size =
            (of (writes ops)).read offset size := by
  have hempty : (Wal.create []).Holds alloc [] := ⟨rfl, nofun, rfl⟩
  have hrun : (walRun alloc ops).Holds alloc (writes ops) := hempty.run hfits hnew
  have himage := hrun.ensure.2
  refine ⟨fun w hw hnew => (hrun.append hw hnew).1, congrArg size himage, ?_⟩
  intro offset size hsize
  rw [Wal.read, if_neg hsize.ne', himage]

/-- A buffer of 64 KiB is all there is. -/
def smallest (cap : ℕ) : Bool := cap ≤ 64 * 1024

theorem wal_refines_file_gap :
    (walRun smallest [.append ⟨2, [5]⟩, .read]).read smallest 1 2 = some [0, 5] := by
  have hfits : ∀ w ∈ writes [.append ⟨2, [5]⟩, .read], w.Fits smallest := by
    refine forall_mem_singleton.mpr ⟨by decide, by decide, by decide, fun cap hcap => ?_⟩
    simpa [smallest] using hcap
  exact (wal_refines_file [.append ⟨2, [5]⟩, .read] hfits (by decide)).2.2 1 2 two_pos

/-- The first bytes, others in their place, and the first ones again: the last write is refused,
and the image keeps the second. -/
theorem wal_returning_write_refused :
    ((walRun smallest [.append ⟨0, [1]⟩, .append ⟨0, [2]⟩]).append smallest ⟨0, [1]⟩).1 = false ∧
      (walRun smallest [.append ⟨0, [1]⟩, .append ⟨0, [2]⟩, .append ⟨0, [1]⟩]).read smallest 0 1 =
        some [2] := by
  decide +kernel

-- A write past the buffer is logged, and the image that is rebuilt ends before it.
example :
    ((walRun smallest []).append smallest ⟨64 * 1024, [1]⟩).1 = true ∧
      (walRun smallest [.append ⟨64 * 1024, [1]⟩]).size smallest = 0 := by
  decide +kernel

end Qihse.Vfs
