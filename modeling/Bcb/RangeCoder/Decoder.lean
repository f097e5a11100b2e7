import Bcb.Lib.CodeInterval
import Bcb.RangeCoder.Encoder

/-! The decoder on any payload: its code stays inside its interval, and the byte it
returns is the one whose share of the table the code falls in. -/

namespace Bcb.RangeCoder

open Lib

namespace CecDecoder

/-- The bits still to be read, with zeros after the end of the input. -/
def rest (d : CecDecoder) : BitSeq := fun i =>
  if i < d.curBits then d.curByte.testBit (7 - i)
  else byteSeq (d.inp.drop d.inPos) (i - d.curBits)

structure Reading (d : CecDecoder) : Prop where
  curBits_lt : d.curBits < 8
  inPos_le : d.inPos ≤ d.inp.length

structure Inside (d : CecDecoder) : Prop extends Reading d where
  low_le : d.low ≤ d.code
  code_le : d.code ≤ d.high
  high_lt : d.high < 2 ^ 32

/-- What holds between calls. -/
structure Between (d : CecDecoder) : Prop extends Inside d where
  settled : renormShift d.low d.high = none

theorem Between.gap {d : CecDecoder} (h : d.Between) : 2 ^ 30 ≤ d.high - d.low :=
  (renormShift_none h.settled).1

end CecDecoder

open CecDecoder

variable {d d' : CecDecoder}

theorem cecReadBit_loaded (h : d.Reading) :
    ∃ byte bits pos, cecReadBit d =
        (byte.testBit 7, { d with curByte := 2 * byte % 256, curBits := bits, inPos := pos }) ∧
      bits < 8 ∧ d.inPos ≤ pos ∧ pos ≤ d.inp.length ∧
      d.rest = fun i => if i < bits + 1 then byte.testBit (7 - i)
        else byteSeq (d.inp.drop pos) (i - (bits + 1)) := by
  obtain ⟨hlt, h⟩ := h
  by_cases h0 : d.curBits = 0
  · by_cases hpos : d.inPos < d.inp.length
    · refine ⟨(d.inp.getD d.inPos 0).toNat, 7, d.inPos + 1, ?_, by omega, by omega, hpos, ?_⟩
      · simp [cecReadBit, h0, hpos]
      · funext i
        have hd : d.inp.drop (d.inPos + 1) = (d.inp.drop d.inPos).drop 1 := by
          rw [List.drop_drop]
        simp only [rest, h0, Nat.not_lt_zero, if_false, Nat.sub_zero]
        split_ifs with hi
        · rw [byteSeq_of_lt _ hi]
          simp
        · rw [hd, ← byteSeq_drop_byte, BitSeq.drop_apply]
          congr 1
          omega
    · refine ⟨0, 7, d.inPos, ?_, by omega, le_rfl, h, ?_⟩
      · simp [cecReadBit, h0, hpos]
      · funext i
        have hnil : d.inp.drop d.inPos = [] := List.drop_eq_nil_of_le (by omega)
        simp [rest, h0, hnil, byteSeq]
  · refine ⟨d.curByte, d.curBits - 1, d.inPos, ?_, by omega, le_rfl, h, ?_⟩
    · simp [cecReadBit, h0]
    · have hb : d.curBits - 1 + 1 = d.curBits := by omega
      funext i
      simp only [rest, hb]

theorem cecReadBit_spec (h : d.Reading) :
    ∃ curByte curBits pos, cecReadBit d =
        (d.rest 0, { d with curByte := curByte, curBits := curBits, inPos := pos }) ∧
      curBits < 8 ∧ d.inPos ≤ pos ∧ pos ≤ d.inp.length ∧
      ({ d with curByte := curByte, curBits := curBits, inPos := pos } : CecDecoder).rest =
        d.rest.drop 1 := by
  obtain ⟨byte, bits, pos, hread, hlt, hpos, hle, hrest⟩ := cecReadBit_loaded h
  refine ⟨2 * byte % 256, bits, pos, ?_, hlt, hpos, hle, ?_⟩
  · rw [hread, hrest]
    simp
  · funext i
    rw [BitSeq.drop_apply, hrest]
    simp only [rest]
    by_cases hi : i < bits
    · have hi' : 1 + i < bits + 1 := by omega
      simp only [hi, hi', if_true]
      exact testBit_shift_byte (by omega)
    · have hi' : ¬ 1 + i < bits + 1 := by omega
      have hsub : 1 + i - (bits + 1) = i - bits := by omega
      simp only [hi, hi', if_false, hsub]

theorem cecShiftCode_spec (h : d.Reading) :
    (cecShiftCode d).Reading ∧ (cecShiftCode d).inp = d.inp ∧
      (cecShiftCode d).code = (2 * d.code + (d.rest 0).toNat) % 2 ^ 32 ∧
      (cecShiftCode d).rest = d.rest.drop 1 := by
  obtain ⟨curByte, curBits, pos, hread, hlt, -, hle, hrest⟩ := cecReadBit_spec h
  have heq : cecShiftCode d = { d with
      curByte := curByte, curBits := curBits, inPos := pos,
      code := (2 * d.code + (d.rest 0).toNat) % 2 ^ 32 } := by rw [cecShiftCode, hread]
  rw [heq]
  exact ⟨⟨hlt, hle⟩, rfl, rfl, hrest⟩

theorem cecRenormDecTurn_spec (h : d.Inside) (ht : cecRenormDecTurn d = some d') :
    ∃ c, renormShift d.low d.high = some c ∧ d'.Inside ∧ d'.inp = d.inp ∧
      d'.low = 2 * (d.low - c) ∧ d'.high = 2 * (d.high - c) + 1 ∧
      d'.code = 2 * (d.code - c) + (d.rest 0).toNat ∧ d'.rest = d.rest.drop 1 := by
  obtain ⟨c, hc, rfl⟩ := cecRenormDecTurn_some ht
  have hcs := renormShift_cases hc
  have hlow := h.low_le
  have hcode := h.code_le
  have hhigh := h.high_lt
  have hbit := Bool.toNat_lt (d.rest 0)
  have hsub : (if c = 0 then d.code else sub32 d.code c) = d.code - c := by
    split_ifs with h0
    · omega
    · exact sub32_of_le (by omega) (by omega)
  rw [hsub]
  let d1 : CecDecoder := { d with
    code := d.code - c, low := 2 * (d.low - c) % 2 ^ 32, high := (2 * (d.high - c) + 1) % 2 ^ 32 }
  have heq : cecShiftDec { d with code := d.code - c, low := d.low - c, high := d.high - c } =
      cecShiftCode d1 := rfl
  obtain ⟨hread, hinp, hcode', hrest⟩ :=
    cecShiftCode_spec (d := d1) ⟨h.curBits_lt, h.inPos_le⟩
  have hrest1 : d1.rest = d.rest := rfl
  rw [hrest1] at hcode' hrest
  have hlow1 : (cecShiftCode d1).low = 2 * (d.low - c) := by
    rw [cecShiftCode_low]
    exact Nat.mod_eq_of_lt (by omega)
  have hhigh1 : (cecShiftCode d1).high = 2 * (d.high - c) + 1 := by
    rw [cecShiftCode_high]
    exact Nat.mod_eq_of_lt (by omega)
  have hcode1 : (cecShiftCode d1).code = 2 * (d.code - c) + (d.rest 0).toNat := by
    rw [hcode']
    change (2 * (d.code - c) + (d.rest 0).toNat) % 2 ^ 32 = _
    exact Nat.mod_eq_of_lt (by omega)
  rw [heq]
  exact ⟨c, hc, ⟨hread, by omega, by omega, by omega⟩, hinp, hlow1, hhigh1, hcode1, hrest⟩

theorem cecRenormDec_between (h : d.Inside) :
    (cecRenormDec d).Between ∧ (cecRenormDec d).inp = d.inp := by
  have hinv : (cecRenormDec d).Inside ∧ (cecRenormDec d).inp = d.inp := by
    refine Loop.run_inv (P := fun a : CecDecoder => a.Inside ∧ a.inp = d.inp) ?_ 32 ⟨h, rfl⟩
    rintro a b ⟨ha, hinp⟩ hab
    obtain ⟨c, -, hb, hinp', -⟩ := cecRenormDecTurn_spec ha hab
    exact ⟨hb, hinp'.trans hinp⟩
  have hdone := cecRenormDec_done
    (lt_of_le_of_lt (h.low_le.trans h.code_le) h.high_lt) h.high_lt
  exact ⟨⟨hinv.1, cecRenormDecTurn_none.1 hdone⟩, hinv.2⟩

theorem cecDecNew_spec (data : List UInt8) :
    (cecDecNew data).Between ∧ (cecDecNew data).inp = data ∧ (cecDecNew data).low = 0 ∧
      (cecDecNew data).high = 2 ^ 32 - 1 ∧ (cecDecNew data).code = (byteSeq data).prefixVal 32 ∧
      (cecDecNew data).rest = (byteSeq data).drop 32 := by
  let d0 : CecDecoder := ⟨0, 0xFFFFFFFF, 0, data, 0, 0, 0⟩
  have hrun : ∀ n ≤ 32, (cecShiftCode^[n] d0).Reading ∧ (cecShiftCode^[n] d0).inp = data ∧
      (cecShiftCode^[n] d0).low = 0 ∧ (cecShiftCode^[n] d0).high = 2 ^ 32 - 1 ∧
      (cecShiftCode^[n] d0).code = (byteSeq data).prefixVal n ∧
      (cecShiftCode^[n] d0).rest = (byteSeq data).drop n := by
    intro n hn
    induction n with
    | zero =>
      refine ⟨⟨by norm_num [d0], Nat.zero_le _⟩, rfl, rfl, rfl, rfl, ?_⟩
      funext i
      simp [rest, d0]
    | succ n ih =>
      obtain ⟨hread, hinp, hlow, hhigh, hcode, hrest⟩ := ih (by omega)
      obtain ⟨hread', hinp', hcode', hrest'⟩ := cecShiftCode_spec hread
      rw [Function.iterate_succ_apply']
      refine ⟨hread', hinp'.trans hinp, (cecShiftCode_low _).trans hlow,
        (cecShiftCode_high _).trans hhigh, ?_, ?_⟩
      · have hlt := (byteSeq data).prefixVal_lt (n + 1)
        have hpow : 2 ^ (n + 1) ≤ 2 ^ 32 := Nat.pow_le_pow_right (by norm_num) hn
        rw [hcode', hcode, hrest, BitSeq.drop_apply, Nat.add_zero, ← BitSeq.prefixVal_succ]
        exact Nat.mod_eq_of_lt (by omega)
      · rw [hrest', hrest]
        funext i
        simp [Nat.add_assoc]
  obtain ⟨hread, hinp, hlow, hhigh, hcode, hrest⟩ := hrun 32 le_rfl
  have hlt := (byteSeq data).prefixVal_lt 32
  have hin : (cecDecNew data).Inside := by
    refine ⟨hread, ?_, ?_, ?_⟩
    · exact hlow ▸ Nat.zero_le _
    · change (cecShiftCode^[32] d0).code ≤ (cecShiftCode^[32] d0).high
      rw [hcode, hhigh]
      omega
    · change (cecShiftCode^[32] d0).high < 2 ^ 32
      rw [hhigh]
      norm_num
  refine ⟨⟨hin, ?_⟩, hinp, hlow, hhigh, hcode, hrest⟩
  change renormShift (cecShiftCode^[32] d0).low (cecShiftCode^[32] d0).high = none
  rw [hlow, hhigh]
  rfl

theorem cecSearchTurn_some {cum : Cum} {t : Nat} {a b : Nat × Nat}
    (h : cecSearchTurn cum t a = some b) :
    a.1 + 1 < a.2 ∧ (cum ((a.1 + a.2) / 2) ≤ t ∧ b = ((a.1 + a.2) / 2, a.2) ∨
      t < cum ((a.1 + a.2) / 2) ∧ b = (a.1, (a.1 + a.2) / 2)) := by
  unfold cecSearchTurn at h
  simp only at h
  split_ifs at h with h1 h2
  · exact ⟨h1, .inl ⟨h2, (Option.some.inj h).symm⟩⟩
  · exact ⟨h1, .inr ⟨Nat.lt_of_not_le h2, (Option.some.inj h).symm⟩⟩

/-- The bytes left shrink to one: the search ends on neighbours. -/
theorem cecSearch_run (cum : Cum) (t : Nat) :
    ∃ lo, Loop.run (cecSearchTurn cum t) 8 (0, 256) = (lo, lo + 1) ∧ lo < 256 ∧
      (cum 0 ≤ t → cum lo ≤ t) ∧ (t < cum 256 → t < cum (lo + 1)) := by
  let P : Nat × Nat → Prop := fun p => p.1 < p.2 ∧ p.2 ≤ 256 ∧ (cum 0 ≤ t → cum p.1 ≤ t) ∧
    (t < cum 256 → t < cum p.2)
  have hinv : P (Loop.run (cecSearchTurn cum t) 8 (0, 256)) := by
    refine Loop.run_inv (P := P) ?_ 8 ⟨by norm_num, le_rfl, id, id⟩
    rintro ⟨alo, ahi⟩ b ⟨hlt, hle, hlo, hhi⟩ hab
    obtain ⟨hgap, ⟨hm, rfl⟩ | ⟨hm, rfl⟩⟩ := cecSearchTurn_some hab
    · exact ⟨by simp only at hgap ⊢; omega, hle, fun _ => hm, hhi⟩
    · exact ⟨by simp only at hgap ⊢; omega, by simp only at hgap hle ⊢; omega, hlo, fun _ => hm⟩
  have hdone : cecSearchTurn cum t (Loop.run (cecSearchTurn cum t) 8 (0, 256)) = none := by
    refine Loop.run_done (P := fun k p => p.1 < p.2 ∧ p.2 - p.1 = 2 ^ (8 - k) ∨ p.2 = p.1 + 1)
      (m := 8) ?_ ?_ (Nat.zero_add 8) (.inl ⟨by norm_num, rfl⟩)
    · rintro k ⟨alo, ahi⟩ b ha hab
      obtain ⟨hgap, hb⟩ := cecSearchTurn_some hab
      simp only at hgap ha hb
      obtain ⟨hlt, hpow⟩ | hnext := ha
      · have hk : k < 8 := by
          by_contra hk
          rw [Nat.sub_eq_zero_of_le (Nat.le_of_not_lt hk), pow_zero] at hpow
          omega
        have hsucc : 2 ^ (8 - k) = 2 * 2 ^ (8 - (k + 1)) := by
          rw [← pow_succ']
          congr 1
          omega
        left
        obtain ⟨-, rfl⟩ | ⟨-, rfl⟩ := hb <;> exact ⟨by simp only; omega, by simp only; omega⟩
      · omega
    · rintro ⟨alo, ahi⟩ ha
      have hle : ¬ alo + 1 < ahi := by
        simp only [Nat.sub_self, pow_zero] at ha
        omega
      simp [cecSearchTurn, hle]
  generalize Loop.run (cecSearchTurn cum t) 8 (0, 256) = p at hinv hdone
  obtain ⟨lo, hi⟩ := p
  obtain ⟨hlt, hle, hlo, hhi⟩ := hinv
  have hnext : hi = lo + 1 := by
    by_contra hne
    have hgap : lo + 1 < hi := by
      simp only at hlt
      omega
    simp [cecSearchTurn, hgap] at hdone
  subst hnext
  exact ⟨lo, rfl, by simp only at hle; omega, hlo, hhi⟩

theorem cecSearch_spec {cum : Cum} {t : Nat} (h0 : cum 0 ≤ t) (h256 : t < cum 256) :
    cum (cecSearch cum t).toNat ≤ t ∧ t < cum ((cecSearch cum t).toNat + 1) := by
  obtain ⟨lo, hrun, hlt, hlo, hhi⟩ := cecSearch_run cum t
  have hbyte : (cecSearch cum t).toNat = lo := by
    rw [cecSearch, hrun]
    exact Nat.mod_eq_of_lt hlt
  rw [hbyte]
  exact ⟨hlo h0, hhi h256⟩

theorem cecSearch_congr {cum : Cum} {t t' : Nat} (h : ∀ m < 256, cum m ≤ t ↔ cum m ≤ t') :
    cecSearch cum t = cecSearch cum t' := by
  have hrel := Loop.run_rel (f := cecSearchTurn cum t) (g := cecSearchTurn cum t')
    (R := fun p q => p = q ∧ p.2 ≤ 256) ?_ ?_ 8 (a := (0, 256)) (b := (0, 256)) ⟨rfl, le_rfl⟩
  · rw [cecSearch, cecSearch, hrel.1]
  · rintro ⟨lo, hi⟩ _ ⟨rfl, hle⟩ hnone
    unfold cecSearchTurn at hnone ⊢
    simp only at hnone ⊢
    split_ifs at hnone ⊢
    rfl
  · rintro ⟨lo, hi⟩ _ p ⟨rfl, hle⟩ hsome
    obtain ⟨hgap, hb⟩ := cecSearchTurn_some hsome
    simp only at hgap hle hb
    have hm := h ((lo + hi) / 2) (by omega)
    refine ⟨p, ?_, rfl, ?_⟩
    · rw [← hsome]
      simp only [cecSearchTurn, hgap, if_true, hm]
    · obtain ⟨-, rfl⟩ | ⟨-, rfl⟩ := hb
      · exact hle
      · simp only
        omega

theorem Cum.Codable.byte_unique {cum : Cum} (h : cum.Codable) {t : Nat} {b v : UInt8}
    (hb : cum b.toNat ≤ t ∧ t < cum (b.toNat + 1)) :
    (cum v.toNat ≤ t ∧ t < cum (v.toNat + 1)) ↔ v = b := by
  constructor
  · rintro ⟨hv1, hv2⟩
    have hb256 := b.toNat_lt
    have hv256 := v.toNat_lt
    rw [← UInt8.toNat_inj]
    rcases Nat.lt_trichotomy v.toNat b.toNat with hlt | heq | hgt
    · have := h.increasing.mono (i := v.toNat + 1) (j := b.toNat) hlt (by omega)
      omega
    · exact heq
    · have := h.increasing.mono (i := b.toNat + 1) (j := v.toNat) hgt (by omega)
      omega
  · rintro rfl
    exact hb

/-- The target of `cec_dec_byte` over unbounded integers. -/
def symTarget (d : CecDecoder) (tot : Nat) : Nat :=
  ((d.code - d.low + 1) * tot - 1) / (d.high - d.low + 1)

theorem symTarget_lt (h : d.Inside) {tot : Nat} (ht : 0 < tot) : symTarget d tot < tot := by
  have hlow := h.low_le
  have hcode := h.code_le
  have hmul : (d.code - d.low + 1) * tot ≤ (d.high - d.low + 1) * tot :=
    Nat.mul_le_mul_right tot (by omega)
  have hpos : 0 < (d.code - d.low + 1) * tot := Nat.mul_pos (Nat.succ_pos _) ht
  rw [symTarget, Nat.div_lt_iff_lt_mul (Nat.succ_pos _), Nat.mul_comm tot, Nat.succ_eq_add_one]
  omega

/-- `code - low + 1` only wraps on the last code point of the full range, where the
search ends on byte 255 all the same. -/
theorem cecTarget_spec (h : d.Inside) {tot : Nat} (ht : 0 < tot) (ht14 : tot ≤ 2 ^ 14) :
    cecTarget d tot = symTarget d tot ∨
      cecTarget d tot = 2 ^ 32 - 1 ∧ symTarget d tot = tot - 1 := by
  have hlow := h.low_le
  have hcode := h.code_le
  have hhigh := h.high_lt
  have hlt := symTarget_lt h ht
  have hr : sub32 d.high d.low + 1 = d.high - d.low + 1 := by
    rw [sub32_of_le (by omega) hhigh]
  have hD : sub32 d.code d.low = d.code - d.low := sub32_of_le hlow (by omega)
  by_cases hfull : d.code - d.low + 1 = 2 ^ 32
  · have hhi : d.high - d.low + 1 = 2 ^ 32 := by omega
    right
    constructor
    · simp only [cecTarget, hD, hr, hfull, hhi]
      norm_num
    · rw [symTarget, hfull, hhi]
      omega
  · left
    have hmod : (d.code - d.low + 1) % 2 ^ 32 = d.code - d.low + 1 := Nat.mod_eq_of_lt (by omega)
    have hpos : 0 < (d.code - d.low + 1) * tot := Nat.mul_pos (Nat.succ_pos _) ht
    have hprod : (d.code - d.low + 1) * tot ≤ 2 ^ 32 * 2 ^ 14 :=
      Nat.mul_le_mul (by omega) ht14
    have hwrap : ((d.code - d.low + 1) * tot + 2 ^ 64 - 1) % 2 ^ 64 =
        (d.code - d.low + 1) * tot - 1 := by omega
    rw [symTarget] at hlt ⊢
    simp only [cecTarget, hD, hr, hmod, hwrap]
    exact Nat.mod_eq_of_lt (by omega)

/-- The byte a call returns is the one its code points at, and the code stays inside
the part of the interval that this byte keeps. -/
theorem cecDecNarrow_spec (h : d.Between) {cum : Cum} (hc : cum.Codable) :
    ∃ b : UInt8, cecDecNarrow d cum = .ok (b, { d with
        low := d.low + (d.high - d.low + 1) * cum b.toNat / cum 256,
        high := d.low + (d.high - d.low + 1) * cum (b.toNat + 1) / cum 256 - 1 }) ∧
      (cum b.toNat ≤ symTarget d (cum 256) ∧ symTarget d (cum 256) < cum (b.toNat + 1)) ∧
      ({ d with
        low := d.low + (d.high - d.low + 1) * cum b.toNat / cum 256,
        high := d.low + (d.high - d.low + 1) * cum (b.toNat + 1) / cum 256 - 1 } :
          CecDecoder).Inside := by
  have hlow := h.low_le
  have hcode := h.code_le
  have hhigh := h.high_lt
  have htot := hc.increasing.tot_pos
  have hlt := symTarget_lt h.toInside htot
  have hsearch : cecSearch cum (cecTarget d (cum 256)) = cecSearch cum (symTarget d (cum 256)) := by
    rcases cecTarget_spec h.toInside htot hc.total with heq | ⟨hmax, htop⟩
    · rw [heq]
    · refine cecSearch_congr fun m hm => ?_
      have hm1 := hc.strict m hm
      have hm2 := hc.increasing.mono (i := m + 1) hm le_rfl
      have hm3 := hc.total
      omega
  let b := cecSearch cum (symTarget d (cum 256))
  have hb : cum b.toNat ≤ symTarget d (cum 256) ∧ symTarget d (cum 256) < cum (b.toNat + 1) :=
    cecSearch_spec (by rw [hc.zero]; exact Nat.zero_le _) hlt
  have hb256 := b.toNat_lt
  obtain ⟨hnar, hkeep, htop⟩ := cecNarrow_spec (hlow.trans hcode) hhigh h.gap
    (hc.strict b.toNat hb256) (hc.increasing.mono (by omega) le_rfl) hc.total
  have hD1 := (scaled_le_iff (D := d.code - d.low) htot (Nat.succ_pos (d.high - d.low))).1 hb.1
  have hD2 := (scaled_le_iff (D := d.code - d.low) htot (Nat.succ_pos (d.high - d.low))).not.1
    (Nat.not_le_of_lt hb.2)
  rw [Nat.succ_eq_add_one] at hD1 hD2
  refine ⟨b, ?_, hb, ⟨⟨h.curBits_lt, h.inPos_le⟩, ?_, ?_, ?_⟩⟩
  · simp only [cecDecNarrow, if_neg htot.ne', hsearch]
    change pure (b, _) = _
    rw [hnar]
    rfl
  all_goals
    simp only
    generalize (d.high - d.low + 1) * cum b.toNat / cum 256 = x at *
    generalize (d.high - d.low + 1) * cum (b.toNat + 1) / cum 256 = y at *
    omega

variable {σ : Type}

theorem cecDecByte_of_narrow {bt : CecBT σ} {s s1 : σ} {cum : Cum} {b : UInt8} {d1 : CecDecoder}
    (hdist : bt.distribution rcScale s = .ok (cum, s1))
    (hnar : cecDecNarrow d cum = .ok (b, d1)) :
    cecDecByte bt d s = (bt.train b s1).map fun s2 => (b, cecRenormDec d1, s2) := by
  simp only [cecDecByte, hdist, hnar, ok_bind]
  cases bt.train b s1 <;> rfl

theorem ByteModel.cecDecByte_spec (M : ByteModel σ) (h : d.Between) (s : σ) :
    ∃ b d1, cecDecNarrow d (M.dist s) = .ok (b, d1) ∧
      cecDecByte M.toCecBT d s = .ok (b, cecRenormDec d1, M.train b s) ∧
      cecRenormDecTurn (cecRenormDec d1) = none ∧
      (∀ v : UInt8, (M.dist s v.toNat ≤ symTarget d (M.dist s 256) ∧
        symTarget d (M.dist s 256) < M.dist s (v.toNat + 1)) ↔ v = b) ∧
      (cecRenormDec d1).Between ∧ (cecRenormDec d1).inp = d.inp := by
  obtain ⟨b, hnar, hb, hin⟩ := cecDecNarrow_spec h (M.codable s)
  obtain ⟨hbet, hinp⟩ := cecRenormDec_between hin
  have hdist : M.toCecBT.distribution rcScale s = .ok (M.dist s, s) := rfl
  refine ⟨b, _, hnar, ?_, ?_, fun v => (M.codable s).byte_unique hb, hbet, hinp⟩
  · rw [cecDecByte_of_narrow hdist hnar]
    rfl
  · exact cecRenormDecTurn_none.2 hbet.settled

theorem ByteModel.cecDecLoop_between (M : ByteModel σ) (n : Nat) (h : d.Between) (s : σ) :
    ∃ out d' s', cecDecLoop M.toCecBT (fun _ b => b) n d s = .ok (out, d', s') ∧
      out.length = n ∧ d'.Between ∧ d'.inp = d.inp := by
  induction n generalizing d s with
  | zero => exact ⟨[], d, s, rfl, rfl, h, rfl⟩
  | succ n ih =>
    obtain ⟨b, d1, -, hcall, -, -, hbet, hinp⟩ := M.cecDecByte_spec h s
    obtain ⟨out, d', s', hloop, hlen, hbet', hinp'⟩ := ih hbet (M.train b s)
    refine ⟨b :: out, d', s', ?_, by rw [List.length_cons, hlen], hbet', hinp'.trans hinp⟩
    simp only [cecDecLoop, hcall, hloop, ok_bind]
    rfl

/-- On any payload and after any number of calls the decoder is inside its interval and
its input; the next call leaves its loop at the break and returns the one byte whose
share of the table holds the target. -/
theorem cecDecByte_total (M : ByteModel σ) (data : List UInt8) (s : σ) (n : Nat) :
    ∃ out d s', cecDecLoop M.toCecBT (fun _ b => b) n (cecDecNew data) s = .ok (out, d, s') ∧
      out.length = n ∧
      d.low ≤ d.code ∧ d.code ≤ d.high ∧ 2 ^ 30 ≤ d.high - d.low ∧ d.inPos ≤ data.length ∧
      ∃ b d1, cecDecNarrow d (M.dist s') = .ok (b, d1) ∧
        cecDecByte M.toCecBT d s' = .ok (b, cecRenormDec d1, M.train b s') ∧
        cecRenormDecTurn (cecRenormDec d1) = none ∧
        ∀ v : UInt8, (M.dist s' v.toNat ≤ symTarget d (M.dist s' 256) ∧
          symTarget d (M.dist s' 256) < M.dist s' (v.toNat + 1)) ↔ v = b := by
  obtain ⟨hnew, hinp, -⟩ := cecDecNew_spec data
  obtain ⟨out, d, s', hloop, hlen, hbet, hinp'⟩ := M.cecDecLoop_between n hnew s
  obtain ⟨b, d1, hnar, hcall, hdone, huniq, -⟩ := M.cecDecByte_spec hbet s'
  refine ⟨out, d, s', hloop, hlen, hbet.low_le, hbet.code_le, hbet.gap, ?_,
    b, d1, hnar, hcall, hdone, huniq⟩
  rw [← hinp, ← hinp']
  exact hbet.inPos_le

section Loop

variable {bt : CecBT σ} {post : σ → UInt8 → UInt8} {n : Nat} {d' : CecDecoder} {s s' : σ}
  {out : List UInt8}

theorem cecDecLoop_length (h : cecDecLoop bt post n d s = .ok (out, d', s')) : out.length = n := by
  induction n generalizing d s out with
  | zero =>
    cases h
    rfl
  | succ n ih =>
    obtain ⟨⟨b, d1, s1⟩, -, h⟩ := bind_eq_ok.1 h
    obtain ⟨⟨rest, d2, s2⟩, hrest, h⟩ := bind_eq_ok.1 h
    cases h
    rw [List.length_cons, ih hrest]

theorem cecDecLoop_post (h : cecDecLoop bt post n d s = .ok (out, d', s'))
    (post' : σ → UInt8 → UInt8) : ∃ out', cecDecLoop bt post' n d s = .ok (out', d', s') := by
  induction n generalizing d s out with
  | zero =>
    cases h
    exact ⟨[], rfl⟩
  | succ n ih =>
    obtain ⟨⟨b, d1, s1⟩, hbyte, h⟩ := bind_eq_ok.1 h
    obtain ⟨⟨rest, d2, s2⟩, hrest, h⟩ := bind_eq_ok.1 h
    cases h
    obtain ⟨rest', hrest'⟩ := ih hrest
    refine ⟨post' s1 b :: rest', ?_⟩
    simp only [cecDecLoop, hbyte, hrest', ok_bind]
    rfl

end Loop

end Bcb.RangeCoder
