import Bcb.Api.RoundTrip

/-! What the checksum of a container protects.  `decompress_core` returns from a container of
length 0 before it looks at the checksum. -/

namespace Bcb.Api

open RangeCoder Prior Codec

/-- The checksum that a container carries. -/
def storedCrc : List UInt8 → Option UInt32
  | [] => none
  | _ :: buf => match varintGet buf with
    | none => none
    | some (_, hn) => if (buf.drop hn).length < 4 then none else some (le32 (buf.drop hn))

/-- A container of an empty message, for this prior if it names one, with a checksum that is
not that of the empty message. -/
structure EmptyMismatch (id : List UInt8) (tag : UInt8) (buf : List UInt8) : Prop where
  length : ∃ hn, varintGet buf = some (0, hn) ∧
    (tag &&& tagId ≠ 0 → ((buf.drop hn).drop 4).take priorIdLen = id)
  crc : ∃ want, storedCrc (tag :: buf) = some want ∧ want ≠ crc32 []

/-- The place of the checksum in a container of the message. -/
def crcOffset (msg : List UInt8) : Nat := 1 + (varintPut msg.length).length

/-- Other bytes in place of the four of the checksum. -/
def withCrc (w : UInt32) (off : Nat) (container : List UInt8) : List UInt8 :=
  container.take off ++ (le32Bytes w ++ container.drop (off + 4))

variable {B : Build} {im : Image} {p : BcbPrior} {c c' d d' : BcbCodec} {msg : List UInt8}
  {tag : UInt8} {buf : List UInt8} {luts : Bool}

theorem takeCrc_ok {l rest : List UInt8} {want : Option UInt32} (htag : tag &&& tagCrc ≠ 0)
    (h : takeCrc tag l = .ok (want, rest)) :
    ¬ l.length < 4 ∧ want = some (le32 l) ∧ rest = l.drop 4 := by
  rw [takeCrc, if_pos htag] at h
  split_ifs at h with hlen
  · cases h
    exact ⟨hlen, rfl, rfl⟩

theorem takeId_ok {id l rest : List UInt8} (h : takeId id tag l = .ok rest)
    (htag : tag &&& tagId ≠ 0) : l.take priorIdLen = id := by
  rw [takeId, if_pos htag] at h
  split_ifs at h with hlen hid
  exact not_not.1 hid

theorem parseFrame_ok {id : List UInt8} {f : Frame} (htag : tag &&& tagCrc ≠ 0)
    (h : parseFrame id (tag :: buf) = .ok f) :
    ∃ want, storedCrc (tag :: buf) = some want ∧ f.want = some want ∧
      ∃ hn, varintGet buf = some (f.orig, hn) ∧
        (tag &&& tagId ≠ 0 → ((buf.drop hn).drop 4).take priorIdLen = id) := by
  rw [parseFrame] at h
  cases hget : varintGet buf with
  | none =>
    rw [hget] at h
    cases h
  | some x =>
    obtain ⟨orig, hn⟩ := x
    rw [hget] at h
    cases hcrc : takeCrc tag (buf.drop hn) with
    | error s =>
      simp only [hcrc] at h
      cases h
    | ok y =>
      obtain ⟨want, rest⟩ := y
      obtain ⟨hlen, rfl, rfl⟩ := takeCrc_ok htag hcrc
      cases hid : takeId id tag ((buf.drop hn).drop 4) with
      | error s =>
        simp only [hcrc] at h
        change (takeId id tag ((buf.drop hn).drop 4) >>= _) = _ at h
        rw [hid] at h
        cases h
      | ok payload =>
        simp only [hcrc] at h
        change (takeId id tag ((buf.drop hn).drop 4) >>= _) = _ at h
        rw [hid] at h
        cases h
        refine ⟨le32 (buf.drop hn), ?_, rfl, hn, rfl, takeId_ok hid⟩
        simp only [storedCrc, hget, if_neg hlen]

theorem decodePayload_length {al : Alloc} {f : Frame} {dec : List UInt8}
    (h : decodePayload B luts p al f d = .ok (some dec, d')) : dec.length = f.orig := by
  obtain ⟨d1, -, h⟩ := bind_eq_ok.1 h
  split_ifs at h
  · cases h
  · obtain ⟨⟨out, e, s⟩, hloop, h⟩ := bind_eq_ok.1 h
    cases h
    exact cecDecLoop_length hloop
  · obtain ⟨⟨out, s⟩, hdec, h⟩ := bind_eq_ok.1 h
    obtain ⟨⟨out', e, s'⟩, hloop, hdec⟩ := bind_eq_ok.1 hdec
    cases hdec
    cases h
    exact cecDecLoop_length hloop

theorem decompressCore_crc {al : Alloc} {cap n : Nat} {out out' : Buffer} {f : Frame}
    {want : UInt32} (hf : parseFrame p.id buf = .ok f) (hwant : f.want = some want)
    (h : decompressCore B luts p al buf cap out d = .ok (.ok n, out', d')) :
    n = f.orig ∧ (f.orig ≠ 0 → crc32 (out'.read n) = want) := by
  simp only [decompressCore, hf] at h
  split_ifs at h with hcap h0
  · cases h
  · cases h
    exact ⟨h0.symm, fun hne => absurd h0 hne⟩
  · obtain ⟨⟨o, d1⟩, hdec, h⟩ := bind_eq_ok.1 h
    cases o with
    | none => cases h
    | some dec =>
      simp only [hwant, Option.any_some] at h
      split_ifs at h with hcrc
      · cases h
      · cases h
        refine ⟨rfl, fun _ => ?_⟩
        rw [← decodePayload_length hdec, Buffer.read_write]
        simpa using hcrc

theorem parseFrame_of_mismatch (hid : p.id.length = priorIdLen) (htag : tag &&& tagCrc ≠ 0)
    (h : EmptyMismatch p.id tag buf) :
    ∃ want payload, parseFrame p.id (tag :: buf) = .ok ⟨tag, 0, some want, payload⟩ := by
  obtain ⟨⟨hn, hget, hmatch⟩, want, hwant, -⟩ := h
  simp only [storedCrc, hget] at hwant
  split_ifs at hwant with hlen
  have hcrc : takeCrc tag (buf.drop hn) = .ok (some (le32 (buf.drop hn)), (buf.drop hn).drop 4) := by
    rw [takeCrc, if_pos htag, if_neg hlen]
    rfl
  obtain ⟨payload, hpayload⟩ : ∃ payload, takeId p.id tag ((buf.drop hn).drop 4) = .ok payload := by
    rw [takeId]
    split_ifs with hbit hshort hne
    · have htake := congrArg List.length (hmatch hbit)
      rw [List.length_take, hid] at htake
      omega
    · exact absurd (hmatch hbit) hne
    · exact ⟨_, rfl⟩
    · exact ⟨_, rfl⟩
  refine ⟨le32 (buf.drop hn), payload, ?_⟩
  simp only [parseFrame, hget, hcrc]
  change (takeId p.id tag ((buf.drop hn).drop 4) >>= _) = _
  rw [hpayload]
  rfl

theorem storedCrc_iff (hid : p.id.length = priorIdLen) (htag : tag &&& tagCrc ≠ 0) :
    (∀ {al : Alloc} {cap n : Nat} {out out' : Buffer} {d' : BcbCodec},
      decompressCore B luts p al (tag :: buf) cap out d = .ok (.ok n, out', d') →
        storedCrc (tag :: buf) = some (crc32 (out'.read n))) ↔
      ¬ EmptyMismatch p.id tag buf := by
  constructor
  · intro h hmis
    obtain ⟨want, payload, hf⟩ := parseFrame_of_mismatch hid htag hmis
    obtain ⟨-, want', hwant', hne⟩ := hmis
    have hrun : decompressCore B luts p ⟨true, true, true⟩ (tag :: buf) 0 (fun _ => 0) d =
        .ok (.ok 0, fun _ => 0, d) := by
      simp only [decompressCore, hf]
      rfl
    have hcrc := h hrun
    rw [hwant'] at hcrc
    exact hne (Option.some.inj hcrc)
  · intro hmis al cap n out out' d' h
    cases hf : parseFrame p.id (tag :: buf) with
    | error s =>
      simp only [decompressCore, hf] at h
      cases h
    | ok f =>
      obtain ⟨want, hstored, hwant, hn, hget, hmatch⟩ := parseFrame_ok htag hf
      obtain ⟨rfl, hcrc⟩ := decompressCore_crc hf hwant h
      rw [hstored]
      by_cases h0 : f.orig = 0
      · rw [h0] at hget ⊢
        by_contra hne
        exact hmis ⟨⟨hn, hget, hmatch⟩, want, hstored, fun heq => hne (congrArg some heq)⟩
      · rw [hcrc h0]

theorem parseFrame_withCrc (idOn sd : Bool) {id : List UInt8} (hid : id.length = priorIdLen)
    (hmsg : msg.length < 2 ^ 64) (comp : List UInt8) (w : UInt32) :
    parseFrame id (withCrc w (crcOffset msg) (containerHeader true idOn sd id msg ++ comp)) =
      .ok ⟨tagOf true idOn sd, msg.length, some w, comp⟩ := by
  have hsplit : containerHeader true idOn sd id msg ++ comp =
      (tagOf true idOn sd :: varintPut msg.length) ++ (le32Bytes (crc32 msg) ++
        ((if idOn then id else []) ++ comp)) := by simp [containerHeader]
  have hoff : (tagOf true idOn sd :: varintPut msg.length).length = crcOffset msg := by
    rw [List.length_cons, crcOffset, Nat.add_comm]
  have hrest : (le32Bytes (crc32 msg) ++ ((if idOn then id else []) ++ comp)).drop 4 =
      (if idOn then id else []) ++ comp := List.drop_left' rfl
  have hfields := parseFrame_fields true idOn sd hid hmsg w comp
  rw [withCrc, hsplit, ← hoff, List.take_left, ← List.drop_drop, List.drop_left, hrest]
  simpa using hfields

theorem decodePayload_noalloc (hp : p.schemaRec ≠ 0 → SchemaReadable p) {al : Alloc}
    (hal : (al.output && al.coder) = false) (f : Frame) :
    ∃ d', decodePayload B true p al f d = .ok (none, d') := by
  obtain ⟨d1, hset⟩ := bcbCodecSetSdelta_total (B := B) hp al.precompute
    (f.tag &&& tagSdelta ≠ 0 && structural p) (bcbCodecBegin B p d)
  refine ⟨d1, ?_⟩
  simp only [decodePayload, hset, ok_bind, hal]
  rfl

theorem withCrc_corrupted_iff (hp : priorParse B im = .ok (some p)) (hcod : TablesCodable B p)
    (hc : Reachable B p c) (hd : Reachable B p d) (hmsg : msg.length < 2 ^ 28) {al alD : Alloc}
    {idOn : Bool} {cap cap' n : Nat} {out out' : Buffer}
    (h : compressCore B true p al true idOn msg cap out c = .ok (.ok n, out', c'))
    (hcap : msg.length ≤ cap') {w : UInt32} (hw : w ≠ crc32 msg) (buf : Buffer) :
    (∃ buf' d', decompressCore B true p alD (withCrc w (crcOffset msg) (out'.read n)) cap' buf d =
      .ok (.error .corrupted, buf', d')) ↔ msg ≠ [] := by
  obtain ⟨comp, hpay, -, -, hread⟩ := compressCore_ok h
  rw [hread, decompressCore,
    parseFrame_withCrc idOn (structural p) (priorParse_id hp) (by omega) comp w]
  simp only [if_neg (Nat.not_lt_of_le hcap)]
  by_cases h0 : msg.length = 0
  · rw [if_pos h0]
    refine iff_of_false ?_ (fun hne => hne (List.length_eq_zero_iff.1 h0))
    rintro ⟨buf', d', hrun⟩
    cases hrun
  · rw [if_neg h0]
    refine iff_of_true ?_ (fun hnil => h0 (by rw [hnil]; rfl))
    have hschema : p.schemaRec ≠ 0 → SchemaReadable p := fun h => priorParse_schema hp h
    cases hal : alD.output && alD.coder with
    | false =>
      obtain ⟨d', hdec⟩ := decodePayload_noalloc (B := B) (d := d) hschema hal
        ⟨tagOf true idOn (structural p), msg.length, some w, comp⟩
      exact ⟨buf, d', by rw [hdec]; rfl⟩
    | true =>
      obtain ⟨houtput, hcoder⟩ := Bool.and_eq_true_iff.1 hal
      obtain ⟨d', hdec⟩ := decodePayload_encodePayload hschema hcod hc hd hmsg hcoder houtput
        hpay (f := ⟨tagOf true idOn (structural p), msg.length, some w, comp⟩)
        (tagOf_bits true idOn (structural p)).2 rfl rfl
      have hcrc : (some w).any (fun want => decide (crc32 msg ≠ want)) = true := by
        simpa using hw.symm
      refine ⟨buf, d', ?_⟩
      rw [hdec]
      simp only [ok_bind, if_pos hcrc]
      rfl

/-- The integrity of containers with a checksum, and the one kind that has none. -/
theorem integrity_iff (hp : priorParse B im = .ok (some p)) (hcod : TablesCodable B p)
    (hd : Reachable B p d) :
    (∀ tag buf, tag &&& tagCrc ≠ 0 →
      ((∀ {al : Alloc} {cap n : Nat} {out out' : Buffer} {d' : BcbCodec},
        decompressCore B true p al (tag :: buf) cap out d = .ok (.ok n, out', d') →
          storedCrc (tag :: buf) = some (crc32 (out'.read n))) ↔
        ¬ EmptyMismatch p.id tag buf)) ∧
    ∀ {c c' : BcbCodec} {msg : List UInt8} {al alD : Alloc} {idOn : Bool} {cap cap' n : Nat}
      {out out' : Buffer} {w : UInt32} (buf : Buffer), Reachable B p c → msg.length < 2 ^ 28 →
      compressCore B true p al true idOn msg cap out c = .ok (.ok n, out', c') →
      msg.length ≤ cap' → w ≠ crc32 msg →
      ((∃ buf' d', decompressCore B true p alD (withCrc w (crcOffset msg) (out'.read n)) cap' buf d =
        .ok (.error .corrupted, buf', d')) ↔ msg ≠ []) := by
  constructor
  · intro tag buf htag
    exact storedCrc_iff (priorParse_id hp) htag
  · intro c c' msg al alD idOn cap cap' n out out' w buf hc hmsg h hcap hw
    exact withCrc_corrupted_iff hp hcod hc hd hmsg h hcap hw buf

theorem integrity_iff_uniform :
    (∀ tag buf, tag &&& tagCrc ≠ 0 →
      ((∀ {al : Alloc} {cap n : Nat} {out out' : Buffer} {d' : BcbCodec},
        decompressCore .plain true uniformPrior al (tag :: buf) cap out
            (bcbCodecNew .plain uniformPrior true) = .ok (.ok n, out', d') →
          storedCrc (tag :: buf) = some (crc32 (out'.read n))) ↔
        ¬ EmptyMismatch uniformPrior.id tag buf)) ∧
    ∀ {c c' : BcbCodec} {msg : List UInt8} {al alD : Alloc} {idOn : Bool} {cap cap' n : Nat}
      {out out' : Buffer} {w : UInt32} (buf : Buffer), Reachable .plain uniformPrior c →
      msg.length < 2 ^ 28 →
      compressCore .plain true uniformPrior al true idOn msg cap out c = .ok (.ok n, out', c') →
      msg.length ≤ cap' → w ≠ crc32 msg →
      ((∃ buf' d', decompressCore .plain true uniformPrior alD
          (withCrc w (crcOffset msg) (out'.read n)) cap' buf
          (bcbCodecNew .plain uniformPrior true) = .ok (.error .corrupted, buf', d')) ↔ msg ≠ []) :=
  integrity_iff (priorParse_schemaImage 0 fun _ => 64) uniformPrior_codable (.new true)

/-- A container of the empty message with another checksum is accepted. -/
theorem integrity_emptyMessage :
    priorParse .plain (schemaImage 0 fun _ => 64) = .ok (some uniformPrior) ∧
    (∃ out c, compressCore .plain true uniformPrior ⟨true, true, true⟩ true false [] 64
        (fun _ => 0) (bcbCodecNew .plain uniformPrior true) = .ok (.ok 7, out, c) ∧
      withCrc 1 (crcOffset []) (out.read 7) = [5, 0, 1, 0, 0, 0, 64]) ∧
    (∃ out d, decompressCore .plain true uniformPrior ⟨true, true, true⟩ [5, 0, 1, 0, 0, 0, 64] 64
        (fun _ => 0) (bcbCodecNew .plain uniformPrior true) = .ok (.ok 0, out, d) ∧
      storedCrc [5, 0, 1, 0, 0, 0, 64] ≠ some (crc32 (out.read 0))) := by
  have henc : (compressCore .plain true uniformPrior ⟨true, true, true⟩ true false [] 64
      (fun _ => 0) (bcbCodecNew .plain uniformPrior true)).map (fun x => (x.1, x.2.1.read 7)) =
        .ok (.ok 7, [5, 0, 0, 0, 0, 0, 64]) := by
    decide +kernel
  refine ⟨priorParse_schemaImage 0 fun _ => 64, ?_, ?_⟩
  · obtain ⟨⟨r, out, c⟩, hrun, heq⟩ := map_eq_ok.1 henc
    obtain ⟨rfl, hread⟩ : r = .ok 7 ∧ out.read 7 = [5, 0, 0, 0, 0, 0, 64] := Prod.mk.inj heq
    exact ⟨out, c, hrun, by rw [hread]; decide⟩
  · refine ⟨_, _, rfl, ?_⟩
    decide

end Bcb.Api
