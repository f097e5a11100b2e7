import Bcb.RangeCoder.Decoder

/-! Encoder and decoder in lockstep: the decoder's window lies on the encoder's interval,
so a payload that is a code point of the last interval is decoded to every symbol coded. -/

namespace Bcb.RangeCoder

open Lib CecEncoder

/-- `d` reads `B` at the place where `e` stands. -/
structure Tracks (B : BitSeq) (e : CecEncoder) (d : CecDecoder) : Prop where
  low : d.low = e.low
  high : d.high = e.high
  code : e.base + d.code = B.prefixVal e.interval.scale
  rest : d.rest = B.drop e.interval.scale
  reading : d.Reading

variable {B : BitSeq} {e : CecEncoder} {d : CecDecoder}

theorem Tracks.inside (h : Tracks B e d) (hB : B ∈ e.interval.seqs) (hh : e.high < 2 ^ 32) :
    d.Inside := by
  obtain ⟨hlo, hhi⟩ := hB
  have hcode := h.code
  simp only [interval] at hlo hhi hcode
  exact ⟨h.reading, by rw [h.low]; omega, by rw [h.high]; omega, h.high ▸ hh⟩

theorem Tracks.new (data : List UInt8) : Tracks (byteSeq data) cecEncNew (cecDecNew data) := by
  obtain ⟨hbet, -, hlow, hhigh, hcode, hrest⟩ := cecDecNew_spec data
  refine ⟨hlow, hhigh, ?_, hrest, hbet.toReading⟩
  rw [hcode]
  exact Nat.zero_add _

theorem cecEncNew_between : cecEncNew.Between 0 :=
  ⟨⟨⟨by norm_num [cecEncNew], by norm_num [cecEncNew]⟩, by norm_num [cecEncNew],
    by norm_num [cecEncNew]⟩, rfl, le_rfl⟩

theorem Tracks.renorm (h : Tracks B e d) (ho : e.Ordered) (hw : 2 ^ 16 ≤ e.high - e.low + 1)
    (ht : e.turns + 17 < 2 ^ 32) (hB : B ∈ e.interval.seqs) :
    Tracks B (cecRenormEnc e) (cecRenormDec d) := by
  refine (Loop.run_rel (R := fun e1 d1 => Turned e e1 ∧ Tracks B e1 d1) ?_ ?_ 32
    ⟨⟨ho, 0, rfl⟩, h⟩).2
  · rintro e1 d1 ⟨-, htr⟩ hnone
    rw [cecRenormDecTurn_none, htr.low, htr.high]
    exact cecRenormEncTurn_none.1 hnone
  · rintro e1 d1 e2 ⟨htd, htr⟩ h12
    obtain ⟨j, -, hj, -⟩ := htd.turns_le hw ho.low_le
    have hB1 : B ∈ e1.interval.seqs := by rwa [hj, CodeInterval.seqs_double_iterate]
    have hin := htr.inside hB1 htd.high_lt
    obtain ⟨htd2, hint, c, hc, hcl, hlow2, hhigh2, hbase2⟩ := htd.turn hw ho.low_le ht h12
    cases hd : cecRenormDecTurn d1 with
    | none =>
      rw [cecRenormDecTurn_none, htr.low, htr.high, hc] at hd
      cases hd
    | some d2 =>
      obtain ⟨c', hc', hin2, -, hdlow, hdhigh, hdcode, hdrest⟩ := cecRenormDecTurn_spec hin hd
      rw [htr.low, htr.high, hc] at hc'
      obtain rfl := Option.some.inj hc'
      have hscale : e2.interval.scale = e1.interval.scale + 1 := congrArg CodeInterval.scale hint
      have hcode := htr.code
      have hlo := hin.low_le
      refine ⟨d2, rfl, htd2, ⟨?_, ?_, ?_, ?_, hin2.toReading⟩⟩
      · rw [hdlow, hlow2, htr.low]
      · rw [hdhigh, hhigh2, htr.high]
      · rw [hscale, BitSeq.prefixVal_succ, ← hcode, hdcode, hbase2, htr.rest, BitSeq.drop_apply,
          Nat.add_zero]
        rw [htr.low] at hlo
        omega
      · rw [hdrest, htr.rest, hscale]
        funext i
        simp [Nat.add_assoc]

/-- A code point of the narrowed interval is decoded to the byte that narrowed it. -/
theorem Tracks.symbol {n : Nat} {cum : Cum} {b : UInt8} (h : Tracks B e d) (he : e.Between n)
    (hn : n + 1 < 2 ^ 28) (hc : cum.Codable) (hB : B ∈ (narrowed e cum b.toNat).interval.seqs) :
    ∃ d1, cecDecNarrow d cum = .ok (b, d1) ∧
      Tracks B (cecRenormEnc (narrowed e cum b.toNat)) (cecRenormDec d1) := by
  have hturns := he.turns_le
  obtain ⟨-, ho, hts, hw, hnar⟩ := cecEncSym_narrowed he hc.increasing b.toNat_lt
  have hd : d.Between := ⟨h.inside (hnar.seqs_subset hB) he.high_lt, by
    rw [h.low, h.high]
    exact he.settled⟩
  have hdlow := hd.low_le
  have htot := hc.increasing.tot_pos
  have hb : cum b.toNat ≤ symTarget d (cum 256) ∧ symTarget d (cum 256) < cum (b.toNat + 1) := by
    obtain ⟨hlo, hhi⟩ := hB
    have hcode := h.code
    have hscale : (narrowed e cum b.toNat).interval.scale = e.interval.scale := hnar.scale
    have hbase : (narrowed e cum b.toNat).base = e.base :=
      SameOutput.base (e := e) ⟨rfl, rfl, rfl⟩ rfl
    rw [hscale, ← hcode] at hlo hhi
    simp only [interval, hbase] at hlo hhi
    have hnlo : (narrowed e cum b.toNat).low =
        d.low + (d.high - d.low + 1) * cum b.toNat / cum 256 := by rw [h.low, h.high]; rfl
    have hnhi : (narrowed e cum b.toNat).high =
        d.low + (d.high - d.low + 1) * cum (b.toNat + 1) / cum 256 - 1 := by
      rw [h.low, h.high]; rfl
    rw [hnlo] at hlo hw
    rw [hnhi] at hhi hw
    have hlow_iff := scaled_le_iff (c := cum b.toNat) (D := d.code - d.low) htot
      (Nat.succ_pos (d.high - d.low))
    have hhigh_iff := scaled_le_iff (c := cum (b.toNat + 1)) (D := d.code - d.low) htot
      (Nat.succ_pos (d.high - d.low))
    rw [Nat.succ_eq_add_one] at hlow_iff hhigh_iff
    rw [symTarget, hlow_iff, ← Nat.not_le, hhigh_iff]
    generalize (d.high - d.low + 1) * cum b.toNat / cum 256 = x at *
    generalize (d.high - d.low + 1) * cum (b.toNat + 1) / cum 256 = y at *
    omega
  obtain ⟨b', hnarD, hb', hin⟩ := cecDecNarrow_spec hd hc
  obtain rfl := (hc.byte_unique hb').1 hb
  refine ⟨_, hnarD, Tracks.renorm ⟨?_, ?_, ?_, ?_, ⟨hd.curBits_lt, hd.inPos_le⟩⟩ ho hw (by omega) hB⟩
  · simp only [narrowed, h.low, h.high]
  · simp only [narrowed, h.low, h.high]
  · exact h.code
  · exact h.rest

/-- Two models that hand out the same codable tables as long as they are fed the same
symbols; `pre` and `post` translate between the bytes of the message and the symbols. -/
structure Lockstep {σ τ : Type} (btE : CecBT σ) (btD : CecBT τ) (pre : σ → UInt8 → Outcome UInt8)
    (post : τ → UInt8 → UInt8) (R : σ → τ → Prop) : Prop where
  step : ∀ {s s1 s2 : σ} {t : τ} {b sym : UInt8} {cum : Cum}, R s t → pre s b = .ok sym →
    btE.distribution rcScale s = .ok (cum, s1) → btE.train sym s1 = .ok s2 →
    cum.Codable ∧ ∃ t1 t2, btD.distribution rcScale t = .ok (cum, t1) ∧
      btD.train sym t1 = .ok t2 ∧ post t2 sym = b ∧ R s2 t2

namespace Lockstep

variable {σ τ : Type} {btE : CecBT σ} {btD : CecBT τ} {pre : σ → UInt8 → Outcome UInt8}
  {post : τ → UInt8 → UInt8} {R : σ → τ → Prop}

theorem encByte (L : Lockstep btE btD pre post R) {n : Nat} {s s2 : σ} {t : τ} {b sym : UInt8}
    {e2 : CecEncoder} (hR : R s t) (he : e.Between n) (hn : n + 1 < 2 ^ 28)
    (hpre : pre s b = .ok sym) (henc : cecEncByte btE e s sym = .ok (e2, s2)) :
    e2.Between (n + 1) ∧ e2.interval.seqs ⊆ e.interval.seqs ∧
      ∃ t2, R s2 t2 ∧ post t2 sym = b ∧ ∀ d B, Tracks B e d → B ∈ e2.interval.seqs →
        ∃ d2, cecDecByte btD d t = .ok (sym, d2, t2) ∧ Tracks B e2 d2 := by
  simp only [cecEncByte, bind_eq_ok] at henc
  obtain ⟨⟨cum, s1⟩, hdist, e1, hsym, s2', htrain, hret⟩ := henc
  obtain ⟨rfl, rfl⟩ := Prod.mk.inj (Except.ok.inj hret)
  obtain ⟨hc, t1, t2, hdistD, htrainD, hpost, hR2⟩ := L.step hR hpre hdist htrain
  obtain ⟨e1', hsym', hbet, hseqs, hsub⟩ := cecEncSym_spec he hn hc.increasing sym.toNat_lt
  obtain ⟨hsym'', -⟩ := cecEncSym_narrowed he hc.increasing sym.toNat_lt
  obtain rfl := Except.ok.inj (hsym.symm.trans hsym')
  refine ⟨hbet, hsub, t2, hR2, hpost, fun d B htr hB => ?_⟩
  rw [hseqs] at hB
  obtain ⟨d1, hnar, htr1⟩ := htr.symbol he hn hc hB
  rw [← Except.ok.inj (hsym.symm.trans hsym'')] at htr1
  refine ⟨cecRenormDec d1, ?_, htr1⟩
  rw [cecDecByte_of_narrow hdistD hnar, htrainD]
  rfl

theorem encLoop (L : Lockstep btE btD pre post R) (msg : List UInt8) {n : Nat} {s s' : σ} {t : τ}
    {e e' : CecEncoder} (hR : R s t) (he : e.Between n) (hn : n + msg.length < 2 ^ 28)
    (henc : cecEncLoop btE pre msg e s = .ok (e', s')) :
    e'.Between (n + msg.length) ∧ e'.interval.seqs ⊆ e.interval.seqs ∧
      ∃ t', R s' t' ∧ ∀ d B, Tracks B e d → B ∈ e'.interval.seqs →
        ∃ d', cecDecLoop btD post msg.length d t = .ok (msg, d', t') := by
  induction msg generalizing n s t e with
  | nil =>
    obtain ⟨rfl, rfl⟩ := Prod.mk.inj (Except.ok.inj henc)
    exact ⟨he, le_rfl, t, hR, fun d B _ _ => ⟨d, rfl⟩⟩
  | cons b msg ih =>
    rw [List.length_cons] at hn
    simp only [cecEncLoop, bind_eq_ok] at henc
    obtain ⟨sym, hpre, ⟨e2, s2⟩, hbyte, hloop⟩ := henc
    obtain ⟨hbet2, hsub2, t2, hR2, hpost, hdec2⟩ := L.encByte hR he (by omega) hpre hbyte
    obtain ⟨hbet, hsub, t', hR', hdec⟩ := ih hR2 hbet2 (by omega) hloop
    refine ⟨?_, hsub.trans hsub2, t', hR', fun d B htr hB => ?_⟩
    · rwa [List.length_cons, Nat.add_comm msg.length, ← Nat.add_assoc]
    · obtain ⟨d2, hbyteD, htr2⟩ := hdec2 d B htr (hsub hB)
      obtain ⟨d', hloopD⟩ := hdec d2 B htr2 hB
      refine ⟨d', ?_⟩
      rw [List.length_cons]
      simp only [cecDecLoop, hbyteD, hloopD, ok_bind, hpost]
      rfl

theorem roundTrip (L : Lockstep btE btD pre post R) {msg : List UInt8} {s s' : σ} {t : τ}
    {e : CecEncoder} (hR : R s t) (hmsg : msg.length < 2 ^ 28)
    (henc : cecEncLoop btE pre msg cecEncNew s = .ok (e, s')) :
    (cecEncFinish e).length ≤ 2 * msg.length + 1 ∧
      ∃ t', R s' t' ∧ ∀ extra, ∃ d',
        cecDecLoop btD post msg.length (cecDecNew (cecEncFinish e ++ extra)) t =
          .ok (msg, d', t') := by
  obtain ⟨hbet, -, t', hR', hdec⟩ := L.encLoop msg hR cecEncNew_between (by omega) henc
  obtain ⟨hfin, hlen⟩ := cecEncFinish_spec hbet (by omega)
  have hturns := hbet.turns_le
  refine ⟨by omega, t', hR', fun extra => ?_⟩
  exact hdec _ _ (Tracks.new _) (hfin extra)

end Lockstep

variable {σ : Type}

theorem ByteModel.lockstep (M : ByteModel σ) :
    Lockstep M.toCecBT M.toCecBT (fun _ b => .ok b) (fun _ b => b) Eq where
  step := by
    rintro s s1 s2 _ b sym cum rfl hpre hdist htrain
    obtain rfl := Except.ok.inj hpre
    obtain ⟨rfl, rfl⟩ := Prod.mk.inj (Except.ok.inj hdist)
    exact ⟨M.codable s, s, s2, rfl, htrain, rfl, rfl⟩

theorem ByteModel.cecEncByte_ok (M : ByteModel σ) {n : Nat} (he : e.Between n)
    (hn : n + 1 < 2 ^ 28) (s : σ) (b : UInt8) :
    ∃ e', cecEncByte M.toCecBT e s b = .ok (e', M.train b s) ∧ e'.Between (n + 1) := by
  obtain ⟨e', hsym, hbet, -⟩ := cecEncSym_spec he hn (M.codable s).increasing b.toNat_lt
  refine ⟨e', ?_, hbet⟩
  simp only [cecEncByte, toCecBT, ok_bind, hsym]
  rfl

theorem ByteModel.cecEncLoop_ok (M : ByteModel σ) (msg : List UInt8) {n : Nat} {e : CecEncoder}
    (he : e.Between n) (hn : n + msg.length < 2 ^ 28) (s : σ) :
    ∃ e' s', cecEncLoop M.toCecBT (fun _ b => .ok b) msg e s = .ok (e', s') := by
  induction msg generalizing n e s with
  | nil => exact ⟨e, s, rfl⟩
  | cons b msg ih =>
    rw [List.length_cons] at hn
    obtain ⟨e1, hbyte, hbet⟩ := M.cecEncByte_ok he (by omega) s b
    obtain ⟨e', s', hloop⟩ := ih hbet (by omega) (M.train b s)
    refine ⟨e', s', ?_⟩
    simp only [cecEncLoop, ok_bind, hbyte, hloop]

/-- The range coder is lossless for every adaptive byte model. -/
theorem cecDecompress_cecCompress (M : ByteModel σ) (s : σ) (msg extra : List UInt8)
    (hmsg : msg.length < 2 ^ 28) :
    ∃ payload s', cecCompress M.toCecBT s msg = .ok (payload, s') ∧
      cecDecompress M.toCecBT s (payload ++ extra) msg.length = .ok (msg, s') := by
  obtain ⟨e, s', henc⟩ := M.cecEncLoop_ok msg cecEncNew_between (by omega) s
  obtain ⟨-, _, rfl, hdec⟩ := M.lockstep.roundTrip rfl hmsg henc
  obtain ⟨d, hloop⟩ := hdec extra
  refine ⟨cecEncFinish e, s', ?_, ?_⟩
  · exact bind_eq_ok.2 ⟨(e, s'), henc, rfl⟩
  · exact bind_eq_ok.2 ⟨(msg, d, s'), hloop, rfl⟩

/-- Equal widths of 64, whatever has been coded. -/
def uniformModel : ByteModel Unit where
  dist _ b := 64 * b
  train _ s := s
  codable _ := ⟨rfl, fun _ _ => by omega, by norm_num⟩

theorem cecDecompress_cecCompress_uniform :
    ∃ payload s', cecCompress uniformModel.toCecBT () [7, 255, 0] = .ok (payload, s') ∧
      cecDecompress uniformModel.toCecBT () (payload ++ [1, 2]) 3 = .ok ([7, 255, 0], s') :=
  cecDecompress_cecCompress uniformModel () [7, 255, 0] [1, 2] (by decide)

end Bcb.RangeCoder
