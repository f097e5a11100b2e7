import Bcb.Lib.LongDivision
import Bcb.RangeCoder.Defs

/-! The range coder under `BCB_MCU_NO_DIV`, which divides with shifts and subtractions. -/

namespace Bcb.RangeCoder.NoDiv

open Lib

/-- `q` and `rem` in `bcb_divq64`. -/
structure Divq64 where
  q : UInt64
  rem : UInt64

/-- `(rem << 1) | ((num >> i) & 1)`. -/
def shiftRem (num rem : UInt64) (i : Nat) : UInt64 :=
  rem <<< 1 ||| (num >>> UInt64.ofNat i &&& 1)

def bcbDivq64Turn (num den : UInt64) (i : Nat) (d : Divq64) : Divq64 :=
  let rem := shiftRem num d.rem i
  if den ≤ rem then ⟨d.q ||| 1 <<< UInt64.ofNat i, rem - den⟩ else ⟨d.q, rem⟩

/-- The first `k` turns of `for (i = 63; i >= 0; --i)`. -/
def bcbDivq64Turns (num den : UInt64) : Nat → Divq64
  | 0 => ⟨0, 0⟩
  | k + 1 => bcbDivq64Turn num den (63 - k) (bcbDivq64Turns num den k)

/-- The bound on the quotient is not used. -/
def bcbDivq64 (num den : UInt64) (_qbits : UInt32) : UInt64 :=
  if den = 0 then 0 else (bcbDivq64Turns num den 64).q

/-- One turn of `while (d > 1) { d >>= 1; s++; }`. -/
def bcbLog2Turn : Nat × Nat → Option (Nat × Nat)
  | (d, s) => if 1 < d then some (d / 2, s + 1) else none

/-- An `uint32_t` is halved at most 31 times. -/
def bcbLog2Pow2 (d : Nat) : Nat := (Loop.run bcbLog2Turn 32 (d, 0)).2

/-- `qh` and `ql`, as `cum[byte+1]` or `cum[byte]` is given. -/
def cecQuotient (r c tot : Nat) : Nat :=
  if tot ≠ 0 ∧ tot &&& (tot - 1) = 0 then (r * c % 2 ^ 64) >>> bcbLog2Pow2 tot % 2 ^ 32
  else (bcbDivq64 (UInt64.ofNat (r * c)) (UInt64.ofNat tot) 32).toNat % 2 ^ 32

def cecNarrow (low high cl ch tot : Nat) : Nat × Nat :=
  let r := sub32 high low + 1
  let qh := cecQuotient r ch tot
  let ql := cecQuotient r cl tot
  ((low + ql) % 2 ^ 32, sub32 ((low + qh) % 2 ^ 32) 1)

def cecEncSym (e : CecEncoder) (cl ch tot : Nat) : CecEncoder :=
  let (low, high) := cecNarrow e.low e.high cl ch tot
  cecRenormEnc { e with low := low, high := high }

def cecTarget (d : CecDecoder) (tot : Nat) : Nat :=
  let r := sub32 d.high d.low + 1
  let dividend := ((sub32 d.code d.low + 1) % 2 ^ 32 * tot + 2 ^ 64 - 1) % 2 ^ 64
  (bcbDivq64 (UInt64.ofNat dividend) (UInt64.ofNat r) 16).toNat % 2 ^ 32

def cecDecNarrow (d : CecDecoder) (cum : Cum) : UInt8 × CecDecoder :=
  let tot := cum 256
  let byte := cecSearch cum (cecTarget d tot)
  let (low, high) := cecNarrow d.low d.high (cum byte.toNat) (cum (byte.toNat + 1)) tot
  (byte, { d with low := low, high := high })

variable {σ : Type}

def cecEncByte (bt : CecBT σ) (e : CecEncoder) (s : σ) (byte : UInt8) :
    Outcome (CecEncoder × σ) := do
  let (cum, s) ← bt.distribution rcScale s
  let e := cecEncSym e (cum byte.toNat) (cum (byte.toNat + 1)) (cum 256)
  let s ← bt.train byte s
  return (e, s)

def cecDecByte (bt : CecBT σ) (d : CecDecoder) (s : σ) : Outcome (UInt8 × CecDecoder × σ) := do
  let (cum, s) ← bt.distribution rcScale s
  let (byte, d) := cecDecNarrow d cum
  let d := cecRenormDec d
  let s ← bt.train byte s
  return (byte, d, s)

def cecEncLoop (bt : CecBT σ) (pre : σ → UInt8 → Outcome UInt8) :
    List UInt8 → CecEncoder → σ → Outcome (CecEncoder × σ)
  | [], e, s => pure (e, s)
  | b :: data, e, s => do
    let sym ← pre s b
    let (e, s) ← cecEncByte bt e s sym
    cecEncLoop bt pre data e s

def cecDecLoop (bt : CecBT σ) (post : σ → UInt8 → UInt8) :
    Nat → CecDecoder → σ → Outcome (List UInt8 × CecDecoder × σ)
  | 0, d, s => pure ([], d, s)
  | n + 1, d, s => do
    let (byte, d, s) ← cecDecByte bt d s
    let (out, d', s') ← cecDecLoop bt post n d s
    return (post s byte :: out, d', s')

def cecCompress (bt : CecBT σ) (s : σ) (data : List UInt8) : Outcome (List UInt8 × σ) := do
  let (e, s) ← cecEncLoop bt (fun _ b => pure b) data cecEncNew s
  return (cecEncFinish e, s)

def cecDecompress (bt : CecBT σ) (s : σ) (data : List UInt8) (origLen : Nat) :
    Outcome (List UInt8 × σ) := do
  let (out, _, s) ← cecDecLoop bt (fun _ b => b) origLen (cecDecNew data) s
  return (out, s)

/-! ## The division -/

/-- The digits that the first `k` turns draw. -/
def drawn (num : UInt64) (k : Nat) : List Bool := (bitsOf 64 num.toNat).take k

theorem drawn_length {num : UInt64} {k : Nat} (h : k ≤ 64) : (drawn num k).length = k := by
  rw [drawn, List.length_take, bitsOf_length, Nat.min_eq_left h]

theorem drawn_succ {num : UInt64} {k : Nat} (h : k < 64) :
    drawn num (k + 1) = drawn num k ++ [num.toNat.testBit (63 - k)] := by
  have hlen : k < (bitsOf 64 num.toNat).length := by
    rw [bitsOf_length]
    exact h
  rw [drawn, List.take_succ_eq_append_getElem hlen, bitsOf_getElem, drawn]

/-- What the first `k` turns leave, by the long division of the digits drawn. -/
structure Simulates (num den : UInt64) (k : Nat) (d : Divq64) : Prop where
  quot : d.q.toNat = 2 ^ (64 - k) * (LongDivision.run den.toNat (drawn num k)).quot
  rem : d.rem.toNat = (LongDivision.run den.toNat (drawn num k)).rem

theorem bit_toNat (num : UInt64) {i : Nat} (h : i < 64) :
    (num >>> UInt64.ofNat i &&& 1).toNat = (num.toNat.testBit i).toNat := by
  rw [UInt64.toNat_and, UInt64.toNat_shiftRight, UInt64.toNat_ofNat', UInt64.toNat_one,
    Nat.and_one_is_mod, Nat.mod_eq_of_lt (show i < 2 ^ 64 by omega), Nat.mod_eq_of_lt h,
    Nat.testBit_eq_decide_div_mod_eq, Nat.shiftRight_eq_div_pow]
  rcases Nat.mod_two_eq_zero_or_one (num.toNat / 2 ^ i) with h | h <;> rw [h] <;> rfl

/-- No bit of a remainder below `2^63` is shifted out. -/
theorem shiftRem_toNat (num : UInt64) {rem : UInt64} {i : Nat} (hi : i < 64)
    (hrem : rem.toNat < 2 ^ 63) :
    (shiftRem num rem i).toNat = 2 * rem.toNat + (num.toNat.testBit i).toNat := by
  have hbit := Bool.toNat_lt (num.toNat.testBit i)
  rw [shiftRem, UInt64.toNat_or, bit_toNat num hi, UInt64.toNat_shiftLeft, UInt64.toNat_one,
    Nat.shiftLeft_eq, Nat.mod_eq_of_lt (by norm_num; omega), Nat.mul_comm]
  exact (Nat.two_pow_add_eq_or_of_lt (i := 1) hbit rem.toNat).symm

theorem orBit_toNat {q : UInt64} {n quot : Nat} (hn : n < 64)
    (h : q.toNat = 2 ^ (n + 1) * quot) :
    (q ||| 1 <<< UInt64.ofNat n).toNat = 2 ^ n * (2 * quot + 1) := by
  have hlt : 2 ^ n < 2 ^ 64 := Nat.pow_lt_pow_right (by norm_num) hn
  have hlt' : 2 ^ n < 2 ^ (n + 1) := Nat.pow_lt_pow_right (by norm_num) (by omega)
  rw [UInt64.toNat_or, UInt64.toNat_shiftLeft, UInt64.toNat_one, UInt64.toNat_ofNat',
    Nat.mod_eq_of_lt (show n < 2 ^ 64 by omega), Nat.mod_eq_of_lt hn, Nat.one_shiftLeft,
    Nat.mod_eq_of_lt hlt, h, ← Nat.two_pow_add_eq_or_of_lt hlt', pow_succ]
  ring

theorem Simulates.rem_lt {num den : UInt64} {k : Nat} {d : Divq64} (h : Simulates num den k d)
    (hden : 0 < den.toNat) (hk : k < 64) : d.rem.toNat < 2 ^ 63 := by
  have hlt := (LongDivision.run_lt hden (drawn num k)).2
  rw [drawn_length hk.le] at hlt
  rw [h.rem]
  exact hlt.trans_le (Nat.pow_le_pow_right (by norm_num) (by omega))

theorem Simulates.turn {num den : UInt64} {k : Nat} {d : Divq64} (h : Simulates num den k d)
    (hden : 0 < den.toNat) (hk : k < 64) :
    Simulates num den (k + 1) (bcbDivq64Turn num den (63 - k) d) := by
  have hrem := shiftRem_toNat num (i := 63 - k) (by omega) (h.rem_lt hden hk)
  have hle : den ≤ shiftRem num d.rem (63 - k) ↔
      den.toNat ≤ 2 * d.rem.toNat + (num.toNat.testBit (63 - k)).toNat := by
    rw [UInt64.le_iff_toNat_le, hrem]
  have hquot : d.q.toNat = 2 ^ (63 - k + 1) * (LongDivision.run den.toNat (drawn num k)).quot := by
    rw [h.quot]
    congr 2
    omega
  have hexp : 64 - (k + 1) = 63 - k := by omega
  constructor
  · rw [drawn_succ hk, LongDivision.run_snoc, hexp, bcbDivq64Turn, LongDivision.turn, ← h.rem]
    simp only [hle]
    split_ifs
    · exact orBit_toNat (by omega) hquot
    · rw [hquot, pow_succ, Nat.mul_assoc]
  · rw [drawn_succ hk, LongDivision.run_snoc, bcbDivq64Turn, LongDivision.turn, ← h.rem]
    simp only [hle]
    split_ifs with hle'
    · rw [UInt64.toNat_sub_of_le _ _ (hle.2 hle'), hrem]
    · exact hrem

theorem bcbDivq64Turns_simulates (num : UInt64) {den : UInt64} (hden : 0 < den.toNat) {k : Nat}
    (hk : k ≤ 64) : Simulates num den k (bcbDivq64Turns num den k) := by
  induction k with
  | zero => exact ⟨rfl, rfl⟩
  | succ k ih => exact (ih (by omega)).turn hden hk

theorem bcbDivq64_eq (num : UInt64) {den : UInt64} (hden : 0 < den.toNat) (qbits : UInt32) :
    (bcbDivq64 num den qbits).toNat = num.toNat / den.toNat := by
  have hne : den ≠ 0 := by
    rintro rfl
    exact absurd hden (lt_irrefl 0)
  have hdrawn : ofBits (drawn num 64) = num.toNat := by
    rw [drawn, List.take_of_length_le (bitsOf_length _ _).le, ofBits_bitsOf,
      Nat.mod_eq_of_lt num.toNat_lt]
  rw [bcbDivq64, if_neg hne, (bcbDivq64Turns_simulates num hden le_rfl).quot,
    LongDivision.run_eq hden, hdrawn, Nat.sub_self, pow_zero, Nat.one_mul]

/-! ## The coder -/

theorem bcbLog2_run {k n : Nat} (h : k < n) (s : Nat) :
    (Loop.run bcbLog2Turn n (2 ^ k, s)).2 = s + k := by
  induction k generalizing n s with
  | zero => rw [Loop.run_none rfl, Nat.add_zero]
  | succ k ih =>
    obtain ⟨n, rfl⟩ := Nat.exists_eq_succ_of_ne_zero (Nat.ne_zero_of_lt h)
    have hturn : bcbLog2Turn (2 ^ (k + 1), s) = some (2 ^ k, s + 1) := by
      have hpos := Nat.two_pow_pos k
      rw [bcbLog2Turn, if_pos (by rw [pow_succ]; omega), pow_succ, Nat.mul_div_cancel _ two_pos]
    rw [Loop.run_some hturn, ih (by omega), Nat.add_right_comm, Nat.add_assoc]

theorem bcbLog2Pow2_two_pow {k : Nat} (h : k < 32) : bcbLog2Pow2 (2 ^ k) = k := by
  rw [bcbLog2Pow2, bcbLog2_run h, Nat.zero_add]

theorem cecQuotient_eq {r c tot : Nat} (hr : r ≤ 2 ^ 32) (hc : c < 2 ^ 32) (htot : 0 < tot)
    (htot' : tot < 2 ^ 32) : cecQuotient r c tot = r * c / tot % 2 ^ 32 := by
  have hprod : r * c < 2 ^ 64 := by
    calc r * c ≤ 2 ^ 32 * c := Nat.mul_le_mul_right c hr
      _ < 2 ^ 32 * 2 ^ 32 := Nat.mul_lt_mul_of_pos_left hc (by norm_num)
      _ = 2 ^ 64 := by norm_num
  unfold cecQuotient
  split_ifs with hpow
  · obtain ⟨k, rfl⟩ := (Nat.and_sub_one_eq_zero_iff_isPowerOfTwo hpow.1).1 hpow.2
    have hk : k < 32 := (Nat.pow_lt_pow_iff_right (by norm_num)).1 htot'
    rw [bcbLog2Pow2_two_pow hk, Nat.shiftRight_eq_div_pow, Nat.mod_eq_of_lt hprod]
  · have htotNat : (UInt64.ofNat tot).toNat = tot := by
      rw [UInt64.toNat_ofNat', Nat.mod_eq_of_lt (by omega)]
    rw [bcbDivq64_eq _ (htotNat.symm ▸ htot), htotNat, UInt64.toNat_ofNat', Nat.mod_eq_of_lt hprod]

theorem sub32_lt (a b : Nat) : sub32 a b < 2 ^ 32 := Nat.mod_lt _ (by norm_num)

theorem cecNarrow_eq (low high : Nat) {cl ch tot : Nat} (hcl : cl < 2 ^ 32) (hch : ch < 2 ^ 32)
    (htot : 0 < tot) (htot' : tot < 2 ^ 32) :
    cecNarrow low high cl ch tot = RangeCoder.cecNarrow low high cl ch tot := by
  have hr : sub32 high low + 1 ≤ 2 ^ 32 := sub32_lt high low
  simp only [cecNarrow, RangeCoder.cecNarrow, cecQuotient_eq hr hcl htot htot',
    cecQuotient_eq hr hch htot htot']

theorem cecTarget_eq (d : CecDecoder) (tot : Nat) :
    cecTarget d tot = RangeCoder.cecTarget d tot := by
  have hr : sub32 d.high d.low + 1 ≤ 2 ^ 32 := sub32_lt d.high d.low
  have hrNat : (UInt64.ofNat (sub32 d.high d.low + 1)).toNat = sub32 d.high d.low + 1 := by
    rw [UInt64.toNat_ofNat', Nat.mod_eq_of_lt (by omega)]
  have hpos : 0 < (UInt64.ofNat (sub32 d.high d.low + 1)).toNat := hrNat.symm ▸ Nat.succ_pos _
  rw [cecTarget, RangeCoder.cecTarget, bcbDivq64_eq _ hpos, hrNat, UInt64.toNat_ofNat',
    Nat.mod_mod]

/-- The tables are of type `uint32_t[257]`, and none has the total 0. -/
structure PositiveTotals (bt : CecBT σ) : Prop where
  word : ∀ {s cum s'}, bt.distribution rcScale s = .ok (cum, s') → ∀ i ≤ 256, cum i < 2 ^ 32
  total : ∀ {s cum s'}, bt.distribution rcScale s = .ok (cum, s') → 0 < cum 256

namespace PositiveTotals

variable {bt : CecBT σ}

theorem encByte (h : PositiveTotals bt) (e : CecEncoder) (s : σ) (byte : UInt8) :
    cecEncByte bt e s byte = RangeCoder.cecEncByte bt e s byte := by
  rw [cecEncByte, RangeCoder.cecEncByte]
  cases hdist : bt.distribution rcScale s with
  | error x => rfl
  | ok x =>
    obtain ⟨cum, s1⟩ := x
    have hbyte := byte.toNat_lt
    have htot := h.total hdist
    have hnarrow := cecNarrow_eq e.low e.high (h.word hdist byte.toNat (by omega))
      (h.word hdist (byte.toNat + 1) (by omega)) htot (h.word hdist 256 le_rfl)
    simp only [ok_bind, cecEncSym, RangeCoder.cecEncSym, hnarrow, if_neg htot.ne']
    rfl

theorem decByte (h : PositiveTotals bt) (d : CecDecoder) (s : σ) :
    cecDecByte bt d s = RangeCoder.cecDecByte bt d s := by
  rw [cecDecByte, RangeCoder.cecDecByte]
  cases hdist : bt.distribution rcScale s with
  | error x => rfl
  | ok x =>
    obtain ⟨cum, s1⟩ := x
    have htot := h.total hdist
    have hnarrow : ∀ byte : UInt8, cecNarrow d.low d.high (cum byte.toNat) (cum (byte.toNat + 1))
        (cum 256) = RangeCoder.cecNarrow d.low d.high (cum byte.toNat) (cum (byte.toNat + 1))
        (cum 256) := by
      intro byte
      have hbyte := byte.toNat_lt
      exact cecNarrow_eq d.low d.high (h.word hdist byte.toNat (by omega))
        (h.word hdist (byte.toNat + 1) (by omega)) htot (h.word hdist 256 le_rfl)
    simp only [ok_bind, cecDecNarrow, RangeCoder.cecDecNarrow, cecTarget_eq, hnarrow,
      if_neg htot.ne']
    rfl

theorem encLoop (h : PositiveTotals bt) (pre : σ → UInt8 → Outcome UInt8) (data : List UInt8)
    (e : CecEncoder) (s : σ) :
    cecEncLoop bt pre data e s = RangeCoder.cecEncLoop bt pre data e s := by
  induction data generalizing e s with
  | nil => rfl
  | cons b data ih =>
    rw [cecEncLoop, RangeCoder.cecEncLoop]
    simp only [h.encByte, ih]

theorem decLoop (h : PositiveTotals bt) (post : σ → UInt8 → UInt8) (n : Nat) (d : CecDecoder)
    (s : σ) : cecDecLoop bt post n d s = RangeCoder.cecDecLoop bt post n d s := by
  induction n generalizing d s with
  | zero => rfl
  | succ n ih =>
    rw [cecDecLoop, RangeCoder.cecDecLoop]
    simp only [h.decByte, ih]

end PositiveTotals

/-- The build without divisions computes what the one with them computes. -/
theorem noDiv_identical :
    (∀ num den : UInt64, 0 < den → ∀ qbits, bcbDivq64 num den qbits = num / den ∧
      ∀ k < 64, (shiftRem num (bcbDivq64Turns num den k).rem (63 - k)).toNat =
        2 * (bcbDivq64Turns num den k).rem.toNat + (num.toNat.testBit (63 - k)).toNat) ∧
    ∀ {σ : Type} {bt : CecBT σ}, PositiveTotals bt →
      (∀ pre data e s, cecEncLoop bt pre data e s = RangeCoder.cecEncLoop bt pre data e s) ∧
      (∀ post n d s, cecDecLoop bt post n d s = RangeCoder.cecDecLoop bt post n d s) ∧
      (∀ s data, cecCompress bt s data = RangeCoder.cecCompress bt s data) ∧
      ∀ s payload origLen,
        cecDecompress bt s payload origLen = RangeCoder.cecDecompress bt s payload origLen := by
  constructor
  · intro num den hden qbits
    have hden' : 0 < den.toNat := UInt64.lt_iff_toNat_lt.1 hden
    constructor
    · apply UInt64.toNat_inj.1
      rw [bcbDivq64_eq num hden', UInt64.toNat_div]
    · intro k hk
      have hsim := bcbDivq64Turns_simulates num hden' hk.le
      exact shiftRem_toNat num (by omega) (hsim.rem_lt hden' hk)
  · intro σ bt h
    refine ⟨h.encLoop, h.decLoop, fun s data => ?_, fun s payload origLen => ?_⟩
    · rw [cecCompress, RangeCoder.cecCompress, h.encLoop]
    · rw [cecDecompress, RangeCoder.cecDecompress, h.decLoop]

/-- Every byte three wide, so that the total is no power of two. -/
def threes : CecBT Unit := ⟨fun _ s => pure (fun i => 3 * i, s), fun _ s => pure s⟩

theorem noDiv_identical_threes :
    bcbDivq64 0xFFFFFFFFFFFFFFFF 0xFFFFFFFFFFFFFFFE 16 = 1 ∧
    (∀ data, cecCompress threes () data = RangeCoder.cecCompress threes () data) ∧
    ∀ payload origLen, cecDecompress threes () payload origLen =
      RangeCoder.cecDecompress threes () payload origLen := by
  have hthrees : PositiveTotals threes := by
    constructor
    · rintro s cum s' h i hi
      obtain ⟨rfl, -⟩ := Prod.mk.inj (Except.ok.inj h)
      dsimp only
      omega
    · rintro s cum s' h
      obtain ⟨rfl, -⟩ := Prod.mk.inj (Except.ok.inj h)
      norm_num
  obtain ⟨-, -, hcompress, hdecompress⟩ := noDiv_identical.2 hthrees
  refine ⟨?_, hcompress (), hdecompress ()⟩
  rw [(noDiv_identical.1 0xFFFFFFFFFFFFFFFF 0xFFFFFFFFFFFFFFFE (by decide) 16).1]
  decide

end Bcb.RangeCoder.NoDiv
