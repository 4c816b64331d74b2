import Qihse.Consensus.Wire

/-!
# Frames are canonical up to the group name

Every field of a frame is read back to the bytes it was written as, with one exception. The group
name has a length on the wire and ends at a NUL in memory, and the decoder does not compare the two:
a group field with a NUL in it decodes to the name before the NUL, which is written as a shorter
field.
-/

namespace Qihse.Consensus

open Bytes List MsgBody

/-! ### The fields of a frame -/

lemma takes_decodeFlag : Takes decodeFlag encodeFlag := by
  intro bs b rest h
  simp only [decodeFlag, run_bind_eq_some, run_bigWord_eq_some, run_check_eq_some,
    run_pure_eq_some] at h
  obtain ⟨v, _, ⟨rfl, -⟩, _, _, ⟨hle, rfl⟩, rfl, rfl⟩ := h
  have hv : v = 0 ∨ v = 1 := by
    have := of_decide_eq_true hle
    omega
  rcases hv with rfl | rfl <;> rfl

lemma EntryType.toNat_of_ofCode {code : ℕ} {t : EntryType} (h : EntryType.ofCode code = some t) :
    t.toNat = code := by
  unfold ofCode at h
  split at h <;> first | cases h; rfl | cases h

lemma takes_entry : Takes Entry.decode Entry.encode := by
  intro bs e rest h
  simp only [Entry.decode, run_bind_eq_some, run_bigWord_eq_some, run_check_eq_some,
    run_take_eq_some, run_pure_eq_some] at h
  obtain ⟨index, _, ⟨rfl, -⟩, term, _, ⟨rfl, -⟩, gen, _, ⟨rfl, -⟩, phys, _, ⟨rfl, -⟩, logical, _,
    ⟨rfl, -⟩, classif, _, ⟨rfl, -⟩, sci, _, ⟨rfl, -⟩, code, _, ⟨rfl, -⟩, length, _, ⟨rfl, -⟩, _, _,
    ⟨-, rfl⟩, payload, _, ⟨rfl, rfl⟩, type, _, htype, rfl, rfl⟩ := h
  obtain ⟨hofCode, rfl⟩ := run_lift_eq_some.mp htype
  simp [Entry.encode, EntryType.toNat_of_ofCode hofCode]

/-- A count and as many entries. -/
lemma eq_append_of_decodeEntries {limit : ℕ} {bs rest : List UInt8} {es : List Entry}
    (h : (decodeEntries limit).run bs = some (es, rest)) :
    bs = be 1 es.length ++ es.flatMap Entry.encode ++ rest := by
  simp only [decodeEntries, run_bind_eq_some, run_bigWord_eq_some, run_check_eq_some] at h
  obtain ⟨count, _, ⟨rfl, -⟩, _, _, ⟨-, rfl⟩, hmany⟩ := h
  obtain ⟨rfl, rfl⟩ := takes_entry.many hmany
  rw [append_assoc]

lemma takes_snapshotBody : Takes SnapshotBody.decode fun s => (snapshot s).encode := by
  intro bs s rest h
  simp only [SnapshotBody.decode, run_bind_eq_some, run_bigWord_eq_some, run_pure_eq_some] at h
  obtain ⟨index, _, ⟨rfl, -⟩, term, _, ⟨rfl, -⟩, epoch, _, ⟨rfl, -⟩, gen, _, ⟨rfl, -⟩, digest, _,
    ⟨rfl, -⟩, entries, _, hentries, rfl, rfl⟩ := h
  rw [eq_append_of_decodeEntries hentries]
  simp [encode]

lemma takes_snapshotChunk :
    Takes SnapshotChunk.decode fun c => (snapshotChunk c).encode := by
  intro bs c rest h
  simp only [SnapshotChunk.decode, run_bind_eq_some, run_bigWord_eq_some, run_check_eq_some,
    run_pure_eq_some] at h
  obtain ⟨transfer, _, ⟨rfl, -⟩, total, _, ⟨rfl, -⟩, first, _, ⟨rfl, -⟩, term, _, ⟨rfl, -⟩, epoch,
    _, ⟨rfl, -⟩, gen, _, ⟨rfl, -⟩, digest, _, ⟨rfl, -⟩, chunkDigest, _, ⟨rfl, -⟩, count, _,
    ⟨rfl, -⟩, final, _, hfinal, _, _, ⟨-, rfl⟩, entries, _, hentries, rfl, rfl⟩ := h
  obtain rfl := takes_decodeFlag hfinal
  obtain ⟨rfl, rfl⟩ := takes_entry.many hentries
  simp [encode]

section

variable {bs rest : List UInt8} {body : MsgBody}

lemma eq_append_of_decodeVote {make : ℕ → ℕ → MsgBody}
    (h : (decodeVote make).run bs = some (body, rest)) :
    ∃ i t, body = make i t ∧ bs = be 8 i ++ be 8 t ++ rest := by
  simp only [decodeVote, run_bind_eq_some, run_bigWord_eq_some, run_pure_eq_some] at h
  obtain ⟨i, _, ⟨rfl, -⟩, t, _, ⟨rfl, -⟩, rfl, rfl⟩ := h
  exact ⟨i, t, rfl, (append_assoc _ _ _).symm⟩

lemma eq_append_of_decodeReply {make : Bool → ℕ → MsgBody}
    (h : (decodeReply make).run bs = some (body, rest)) :
    ∃ b i, body = make b i ∧ bs = encodeFlag b ++ be 8 i ++ rest := by
  simp only [decodeReply, run_bind_eq_some, run_bigWord_eq_some, run_pure_eq_some] at h
  obtain ⟨b, _, hb, i, _, ⟨rfl, -⟩, rfl, rfl⟩ := h
  obtain rfl := takes_decodeFlag hb
  exact ⟨b, i, rfl, (append_assoc _ _ _).symm⟩

lemma eq_append_of_decodeAppend (h : decodeAppend.run bs = some (body, rest)) :
    body.code = 3 ∧ bs = body.encode ++ rest := by
  simp only [decodeAppend, run_bind_eq_some, run_bigWord_eq_some, run_pure_eq_some] at h
  obtain ⟨prev, _, ⟨rfl, -⟩, prevTerm, _, ⟨rfl, -⟩, commit, _, ⟨rfl, -⟩, entries, _, hentries, rfl,
    rfl⟩ := h
  rw [eq_append_of_decodeEntries hentries]
  simp [encode, code]

/-- One case for each type of message. -/
lemma eq_append_of_body {code : ℕ} (h : (decode code).run bs = some (body, rest)) :
    body.code = code ∧ bs = body.encode ++ rest := by
  unfold decode at h
  split at h
  · obtain ⟨i, t, rfl, rfl⟩ := eq_append_of_decodeVote h
    exact ⟨rfl, rfl⟩
  · obtain ⟨b, hb, rfl⟩ := run_fmap_eq_some.mp h
    exact ⟨rfl, takes_decodeFlag hb⟩
  · exact eq_append_of_decodeAppend h
  · obtain ⟨b, i, rfl, rfl⟩ := eq_append_of_decodeReply h
    exact ⟨rfl, rfl⟩
  · obtain ⟨s, hs, rfl⟩ := run_fmap_eq_some.mp h
    exact ⟨rfl, takes_snapshotBody hs⟩
  · obtain ⟨b, i, rfl, rfl⟩ := eq_append_of_decodeReply h
    exact ⟨rfl, rfl⟩
  · obtain ⟨c, hc, rfl⟩ := run_fmap_eq_some.mp h
    exact ⟨rfl, takes_snapshotChunk hc⟩
  · obtain ⟨i, t, rfl, rfl⟩ := eq_append_of_decodeVote h
    exact ⟨rfl, rfl⟩
  · obtain ⟨b, hb, rfl⟩ := run_fmap_eq_some.mp h
    exact ⟨rfl, takes_decodeFlag hb⟩
  · cases h

lemma eq_append_of_expectBinding {binding : Option Binding} {u : Unit}
    (h : (expectBinding binding).run bs = some (u, rest)) :
    bs = binding.elim [] Binding.encode ++ rest := by
  cases binding with
  | none =>
    obtain ⟨-, rfl⟩ := run_pure_eq_some.mp h
    rfl
  | some =>
    simp only [expectBinding, Binding.expect, run_bind_eq_some, run_bigWord_eq_some,
      run_take_eq_some, run_check_eq_some] at h
    obtain ⟨id, _, ⟨rfl, -⟩, epoch, _, ⟨rfl, -⟩, hok, rfl⟩ := h
    simp only [Bool.and_eq_true, decide_eq_true_eq] at hok
    rw [hok.1, hok.2, Option.elim_some, Binding.encode, append_assoc]

end

/-! ### The group name -/

/-- A frame with the group field `group` in the place of the group name. -/
def Msg.frame (binding : Option Binding) (group : List UInt8) (m : Msg) : List UInt8 :=
  wireMagic binding.isSome ++ be 2 (wireVersion binding.isSome) ++ be 1 m.body.code ++
    be 1 group.length ++ m.sender.bytes ++ m.dest.bytes ++ be 8 m.term ++
    be 8 m.fencingEpoch ++ binding.elim [] Binding.encode ++ group ++ m.body.encode

/-- What the decoder has read is a frame, of which it has kept everything but the group field. -/
lemma Msg.eq_frame_of_decode {binding : Option Binding} {bs rest : List UInt8} {m : Msg}
    (h : (Msg.decode binding).run bs = some (m, rest)) :
    ∃ group, m.groupId = groupOf group ∧ group.length < 256 ∧
      bs = m.frame binding group ++ rest := by
  simp only [decode, run_bind_eq_some, run_bigWord_eq_some, run_take_eq_some,
    run_check_eq_some, run_pure_eq_some] at h
  obtain ⟨magic, _, ⟨rfl, -⟩, version, _, ⟨rfl, -⟩, code, _, ⟨rfl, -⟩, groupLength, _, ⟨rfl, hlt⟩,
    sender, _, ⟨rfl, hsize⟩, dest, _, ⟨rfl, hsize'⟩, term, _, ⟨rfl, -⟩, epoch, _, ⟨rfl, -⟩, _, _,
    ⟨hok, rfl⟩, _, _, hbinding, group, _, ⟨rfl, rfl⟩, body, _, hbody, rfl, rfl⟩ := h
  simp only [Bool.and_eq_true, decide_eq_true_eq] at hok
  obtain ⟨⟨⟨rfl, rfl⟩, -⟩, -⟩ := hok
  obtain rfl := eq_append_of_expectBinding hbinding
  obtain ⟨rfl, rfl⟩ := eq_append_of_body hbody
  have hbytes : ∀ {xs : List UInt8}, xs.length = 16 → (Uuid.ofBytes xs).bytes = xs := fun hxs =>
    congrArg Uuid.bytes (Uuid.ofBytes_bytes ⟨_, hxs⟩)
  refine ⟨group, rfl, hlt, ?_⟩
  simp [frame, hbytes hsize, hbytes hsize']

/-- A name is written up to its first NUL. -/
lemma groupBytes_groupOf (group : List UInt8) :
    groupBytes (groupOf group) = group.takeWhile (· ≠ 0) := by
  rw [groupBytes, groupOf, map_map]
  conv_rhs => rw [← map_id (group.takeWhile (· ≠ 0))]
  refine map_congr_left fun b _ => ?_
  have hchar : ∀ n < 256, (Char.ofNat n).toNat = n := by decide +kernel
  simp only [Function.comp_apply, id_eq, hchar b.toNat b.toNat_lt]
  exact UInt8.ofNat_toNat

/-- The group field of a frame: its length stands at byte 7, the field after the fixed header. -/
def groupField (binding : Option Binding) (wire : List UInt8) : List UInt8 :=
  (wire.drop (wireHeaderSize + if binding.isSome then wireBoundSize else 0)).take
    (wire.getD 7 0).toNat

lemma groupField_frame (binding : Option Binding) {group : List UInt8} (m : Msg)
    (hlt : group.length < 256) : groupField binding (m.frame binding group) = group := by
  have hbyte : (m.frame binding group).getD 7 0 = UInt8.ofNat group.length := by
    simp only [Msg.frame, append_assoc]
    rfl
  have hhead : (wireMagic binding.isSome ++ be 2 (wireVersion binding.isSome) ++
      be 1 m.body.code ++ be 1 group.length ++ m.sender.bytes ++ m.dest.bytes ++ be 8 m.term ++
      be 8 m.fencingEpoch ++ binding.elim [] Binding.encode).length =
      wireHeaderSize + if binding.isSome then wireBoundSize else 0 := by
    have hmagic : (wireMagic binding.isSome).length = 4 := rfl
    cases binding with
    | none => simp [m.sender.size, m.dest.size, wireMagic, wireHeaderSize]
    | some b =>
      simp [m.sender.size, m.dest.size, wireMagic, wireHeaderSize, wireBoundSize, Binding.encode,
        b.size]
  have htoNat : (UInt8.ofNat group.length).toNat = group.length := by
    rw [UInt8.toNat_ofNat']
    omega
  rw [groupField, hbyte, htoNat, ← hhead, Msg.frame, append_assoc _ group, drop_left,
    take_left]

/-- A frame that the decoder accepts is what the encoder writes for its message if and only if its
group field has no NUL in it. -/
theorem wireEncode_wireDecode_iff (user : Principal) (binding : Option Binding) (wire : List UInt8)
    (m : Msg) (h : wireDecode user binding wire = some m) (cap : ℕ) (hcap : wire.length ≤ cap) :
    wireEncode user binding cap m = some wire ↔ 0 ∉ groupField binding wire := by
  rw [wireDecode, Option.ite_none_left_eq_some] at h
  obtain ⟨hbounds, h⟩ := h
  have hbound : binding.all Binding.valid = true := by
    simpa using (not_or.mp (not_or.mp hbounds).2).2
  split at h
  · rename_i m' hread
    split_ifs at h with hvalid
    cases h
    obtain ⟨group, hgroup, hlt, hwire⟩ := Msg.eq_frame_of_decode hread
    rw [append_nil] at hwire
    subst hwire
    rw [groupField_frame binding m hlt]
    have hencode : m.encode binding = m.frame binding (group.takeWhile (· ≠ 0)) := by
      rw [← groupBytes_groupOf, ← hgroup, Msg.encode, Msg.frame, groupBytes, length_map]
    constructor
    · intro hsome hzero
      -- the frame of the shorter name is shorter
      have hshort : (group.takeWhile (· ≠ 0)).length < group.length := by
        refine lt_of_le_of_ne (List.takeWhile_prefix _).length_le fun hlen => ?_
        have hall := takeWhile_eq_self_iff.mp
          ((List.takeWhile_prefix _).eq_of_length hlen) 0 hzero
        simp at hall
      unfold wireEncode at hsome
      split_ifs at hsome
      rw [Option.some.injEq, hencode] at hsome
      have hlen := congrArg List.length hsome
      simp only [Msg.frame, length_append, length_be] at hlen
      omega
    · intro hzero
      have hall : group.takeWhile (· ≠ 0) = group := by
        refine takeWhile_eq_self_iff.mpr fun b hb => ?_
        simpa using fun hb0 : b = 0 => hzero (hb0 ▸ hb)
      rw [hall] at hencode
      rw [wireEncode, hencode, if_pos (by simp [hvalid, hbound, hcap])]
  · cases h

namespace Sample

/-- A granted vote in a group whose name field is `name`. -/
def voteFrame (name : List UInt8) : List UInt8 :=
  Msg.frame none name ⟨[], .ofBytes [1], .ofBytes [2], 4, 5, .voteReply true⟩

def voteMsg : Msg := ⟨['g'], .ofBytes [1], .ofBytes [2], 4, 5, .voteReply true⟩

/-- Two frames that decode to one message: the second has a NUL in its group field. -/
theorem frame_not_canonical : wireDecode cleared none (voteFrame [103]) = some voteMsg ∧
      wireDecode cleared none (voteFrame [103, 0, 120]) = some voteMsg ∧
      wireEncode cleared none wireMax voteMsg = some (voteFrame [103]) ∧
      voteFrame [103] ≠ voteFrame [103, 0, 120] := by
  decide +kernel

theorem wireEncode_wireDecode_iff_vote : wireDecode cleared none (voteFrame [103]) = some voteMsg ∧
      (wireEncode cleared none wireMax voteMsg = some (voteFrame [103]) ↔
        0 ∉ groupField none (voteFrame [103])) := by
  have h : wireDecode cleared none (voteFrame [103]) = some voteMsg := by decide +kernel
  exact ⟨h, wireEncode_wireDecode_iff cleared none _ voteMsg h wireMax (by decide +kernel)⟩

end Sample

end Qihse.Consensus
