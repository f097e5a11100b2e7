import Bcb.RangeCoder.RoundTrip
import Mathlib.Algebra.BigOperators.Group.List.Basic
import Mathlib.Algebra.Order.BigOperators.GroupWithZero.List
import Mathlib.Algebra.Order.Field.Rat
import Mathlib.Tactic.FieldSimp
import Mathlib.Tactic.GCongr
import Mathlib.Tactic.Positivity

namespace Bcb.RangeCoder

open Lib CecEncoder

variable {σ : Type}

/-- The table and the symbol at each place of a message. -/
def coded (bt : CecBT σ) (pre : σ → UInt8 → Outcome UInt8) :
    List UInt8 → σ → Outcome (List (Cum × UInt8))
  | [], _ => pure []
  | b :: data, s => do
    let sym ← pre s b
    let (cum, s) ← bt.distribution rcScale s
    let s ← bt.train sym s
    return (cum, sym) :: (← coded bt pre data s)

/-- What is left of the range for a byte, as a part of the total. -/
def Cum.width (cum : Cum) (b : UInt8) : Nat := cum (b.toNat + 1) - cum b.toNat

/-- `2` to the ideal code length. -/
def ideal (places : List (Cum × UInt8)) : ℚ :=
  (places.map fun p => (p.1 256 : ℚ) / p.1.width p.2).prod

/-- What the divisions of a symbol can lose. -/
def loss : ℚ := 65536 / 65535

/-- The turns so far are paid for by what has been coded, of cost `c`. -/
def Priced (e : CecEncoder) (c : ℚ) : Prop := 2 ^ (e.turns + 32) ≤ (e.interval.width : ℚ) * c

theorem interval_width {e : CecEncoder} (h : e.Ordered) :
    e.interval.width = e.high - e.low + 1 := by
  have hle := h.low_le
  simp only [interval, CodeInterval.width]
  omega

theorem cecEncNew_priced : Priced cecEncNew 1 := by
  rw [Priced, interval_width cecEncNew_between.toOrdered]
  norm_num [cecEncNew, turns, bits]

theorem Cum.Increasing.width_pos {cum : Cum} (h : cum.Increasing) (b : UInt8) :
    0 < cum.width b := Nat.sub_pos_of_lt (h.strict b.toNat b.toNat_lt)

variable {e : CecEncoder} {n : Nat}

theorem narrowed_width {cum : Cum} {b : UInt8} (h : e.Between n) (hc : cum.Increasing) :
    (e.interval.width : ℚ) ≤
      (narrowed e cum b.toNat).interval.width * (cum 256 / cum.width b * loss) := by
  have hle := h.low_le
  have hgap := h.gap
  obtain ⟨-, ho, -, hw, -⟩ := cecEncSym_narrowed h hc b.toNat_lt
  have hpos := hc.width_pos b
  have htot := hc.tot_pos
  have hstrict := hc.strict b.toNat b.toNat_lt
  have hwidth : (narrowed e cum b.toNat).interval.width =
      (e.high - e.low + 1) * cum (b.toNat + 1) / cum 256 -
        (e.high - e.low + 1) * cum b.toNat / cum 256 := by
    have hle' := ho.low_le
    rw [interval_width ho]
    simp only [narrowed] at hle' hw ⊢
    omega
  have hshare := scaled_share (m := 65536) (r := e.high - e.low + 1) hstrict.le htot (by
    calc 65536 * cum 256 ≤ 65536 * 2 ^ 14 := Nat.mul_le_mul_left _ hc.total
      _ ≤ (e.high - e.low + 1) * 1 := by omega
      _ ≤ (e.high - e.low + 1) * cum.width b := Nat.mul_le_mul_left _ hpos)
  rw [← hwidth, ← interval_width h.toOrdered] at hshare
  change 65535 * (e.interval.width * cum.width b) ≤ _ at hshare
  have hcast : (65535 : ℚ) * (e.interval.width * cum.width b) ≤
      65536 * ((narrowed e cum b.toNat).interval.width * cum 256) := by exact_mod_cast hshare
  have hposQ : (0 : ℚ) < cum.width b := by exact_mod_cast hpos
  calc (e.interval.width : ℚ)
      = 65535 * (e.interval.width * cum.width b) / (65535 * cum.width b) := by field_simp
    _ ≤ 65536 * ((narrowed e cum b.toNat).interval.width * cum 256) / (65535 * cum.width b) := by
        gcongr
    _ = (narrowed e cum b.toNat).interval.width * (cum 256 / cum.width b * loss) := by
        rw [loss]
        field_simp

theorem Priced.symbol {cum : Cum} {b : UInt8} {c : ℚ} (hp : Priced e c) (hcost : 0 ≤ c)
    (h : e.Between n) (hn : n + 1 < 2 ^ 28) (hc : cum.Increasing) :
    Priced (cecRenormEnc (narrowed e cum b.toNat)) (c * (cum 256 / cum.width b * loss)) := by
  obtain ⟨-, j, hint, hturns⟩ := cecEncSym_turned h hn hc b.toNat_lt
  have hwidth : (cecRenormEnc (narrowed e cum b.toNat)).interval.width =
      2 ^ j * (narrowed e cum b.toNat).interval.width := by
    rw [hint, CodeInterval.width_double_iterate]
  rw [Priced, hturns, hwidth, Nat.cast_mul, Nat.cast_pow, Nat.cast_ofNat]
  calc (2 : ℚ) ^ (e.turns + j + 32) = 2 ^ j * 2 ^ (e.turns + 32) := by
        rw [← pow_add]
        congr 1
        omega
    _ ≤ 2 ^ j * (e.interval.width * c) := by
        gcongr
        exact hp
    _ ≤ 2 ^ j * ((narrowed e cum b.toNat).interval.width *
          (cum 256 / cum.width b * loss) * c) := by
        gcongr
        exact narrowed_width h hc
    _ = _ := by ring

@[simp] theorem ideal_cons (p : Cum × UInt8) (places : List (Cum × UInt8)) :
    ideal (p :: places) = (p.1 256 : ℚ) / p.1.width p.2 * ideal places := by
  rw [ideal, List.map_cons, List.prod_cons, ideal]

theorem ideal_nonneg (places : List (Cum × UInt8)) : 0 ≤ ideal places := by
  apply List.prod_nonneg
  intro x hx
  obtain ⟨p, -, rfl⟩ := List.mem_map.1 hx
  positivity

theorem loss_nonneg : 0 ≤ loss := by norm_num [loss]

/-- What a symbol multiplies by its cost and `k`, a run multiplies by the costs of its symbols. -/
theorem cecEncLoop_weighed {P : CecEncoder → ℚ → Prop} {k : ℚ} (hk : 0 ≤ k)
    (hsymbol : ∀ {e : CecEncoder} {n : Nat} {c : ℚ} {cum : Cum} {b : UInt8}, P e c → 0 ≤ c →
      e.Between n → n + 1 < 2 ^ 28 → cum.Increasing →
        P (cecRenormEnc (narrowed e cum b.toNat)) (c * (cum 256 / cum.width b * k)))
    {bt : CecBT σ} {pre : σ → UInt8 → Outcome UInt8} {data : List UInt8} {s : σ}
    {places : List (Cum × UInt8)} {c : ℚ} (h : e.Between n) (hn : n + data.length < 2 ^ 28)
    (hcoded : coded bt pre data s = .ok places) (hinc : ∀ p ∈ places, p.1.Increasing) (hp : P e c)
    (hcost : 0 ≤ c) :
    ∃ e' s', cecEncLoop bt pre data e s = .ok (e', s') ∧ e'.Between (n + data.length) ∧
      P e' (c * (ideal places * k ^ data.length)) := by
  induction data generalizing n e s places c with
  | nil =>
    obtain rfl := Except.ok.inj hcoded
    refine ⟨e, s, rfl, h, ?_⟩
    simpa [ideal] using hp
  | cons b data ih =>
    rw [List.length_cons] at hn
    obtain ⟨sym, hpre, hcoded⟩ := bind_eq_ok.1 hcoded
    obtain ⟨⟨cum, s1⟩, hdist, hcoded⟩ := bind_eq_ok.1 hcoded
    obtain ⟨s2, htrain, hcoded⟩ := bind_eq_ok.1 hcoded
    obtain ⟨rest, hrest, hcoded⟩ := bind_eq_ok.1 hcoded
    obtain rfl := Except.ok.inj hcoded
    have hc := hinc (cum, sym) List.mem_cons_self
    obtain ⟨hsym, -⟩ := cecEncSym_narrowed h hc sym.toNat_lt
    obtain ⟨hbet, -⟩ := cecEncSym_turned h (by omega) hc sym.toNat_lt
    have hstep := hsymbol (b := sym) hp hcost h (by omega) hc
    have hratio : (0 : ℚ) ≤ cum 256 / cum.width sym * k := mul_nonneg (by positivity) hk
    obtain ⟨e', s', hloop, hbet', hp'⟩ := ih hbet (by omega) hrest
      (fun p hmem => hinc p (List.mem_cons_of_mem _ hmem)) hstep (mul_nonneg hcost hratio)
    refine ⟨e', s', ?_, ?_, ?_⟩
    · simp only [cecEncLoop, hpre, cecEncByte, hdist, hsym, htrain, ok_bind]
      exact hloop
    · rwa [List.length_cons, Nat.add_comm data.length, ← Nat.add_assoc]
    · rw [ideal_cons, List.length_cons, pow_succ]
      convert hp' using 1
      ring

/-- A payload is at most nine bits longer than what has been paid for. -/
theorem cecEncFinish_length {c : ℚ} (h : e.Between n) (hn : n < 2 ^ 28) (hp : Priced e c)
    (hcost : 0 ≤ c) : (2 : ℚ) ^ (8 * (cecEncFinish e).length - 9 : ℤ) ≤ c := by
  have hlen := (cecEncFinish_spec h hn).2
  have hwidth : (e.interval.width : ℚ) ≤ 2 ^ 32 := by
    have hlt := h.high_lt
    have hle : e.interval.width ≤ 2 ^ 32 := by
      rw [interval_width h.toOrdered]
      omega
    exact_mod_cast hle
  have hpaid : (2 : ℚ) ^ e.turns * 2 ^ 32 ≤ c * 2 ^ 32 := by
    calc (2 : ℚ) ^ e.turns * 2 ^ 32 = 2 ^ (e.turns + 32) := (pow_add 2 e.turns 32).symm
      _ ≤ e.interval.width * c := hp
      _ ≤ 2 ^ 32 * c := mul_le_mul_of_nonneg_right hwidth hcost
      _ = c * 2 ^ 32 := mul_comm _ _
  calc (2 : ℚ) ^ (8 * (cecEncFinish e).length - 9 : ℤ) ≤ 2 ^ (e.turns : ℤ) :=
        zpow_le_zpow_right₀ one_le_two (by omega)
    _ = 2 ^ e.turns := zpow_natCast 2 e.turns
    _ ≤ c := le_of_mul_le_mul_right hpaid (by positivity)

/-- The payload of a message is within nine bits of its ideal code length, but for the loss. -/
theorem cecCompress_length {bt : CecBT σ} {msg : List UInt8} {s : σ}
    {places : List (Cum × UInt8)} (hn : msg.length < 2 ^ 28)
    (hcoded : coded bt (fun _ b => pure b) msg s = .ok places)
    (hinc : ∀ p ∈ places, p.1.Increasing) :
    ∃ payload s', cecCompress bt s msg = .ok (payload, s') ∧
      (2 : ℚ) ^ (8 * payload.length - 9 : ℤ) ≤
        (places.map fun p => (p.1 256 : ℚ) / p.1.width p.2).prod *
          (65536 / 65535) ^ msg.length := by
  obtain ⟨e, s', hloop, hbet, hprice⟩ := cecEncLoop_weighed loss_nonneg Priced.symbol
    cecEncNew_between (by omega) hcoded hinc cecEncNew_priced zero_le_one
  rw [one_mul] at hprice
  have hcost := mul_nonneg (ideal_nonneg places) (pow_nonneg loss_nonneg msg.length)
  refine ⟨cecEncFinish e, s', ?_, cecEncFinish_length hbet (by omega) hprice hcost⟩
  rw [cecCompress, hloop]
  rfl

theorem cecCompress_length_uniform :
    ∃ payload s', cecCompress uniformModel.toCecBT () [7, 255, 0] = .ok (payload, s') ∧
      (2 : ℚ) ^ (8 * payload.length - 9 : ℤ) ≤ 256 ^ 3 * (65536 / 65535) ^ 3 := by
  have hinc := (uniformModel.codable ()).increasing
  obtain ⟨payload, s', hrun, hle⟩ := cecCompress_length (by decide)
    (show coded uniformModel.toCecBT (fun _ b => pure b) [7, 255, 0] () = .ok _ from rfl) (by
      rintro p hp
      simp only [List.mem_cons, List.not_mem_nil, or_false] at hp
      obtain rfl | rfl | rfl := hp <;> exact hinc)
  have hwidth : ∀ b, (uniformModel.dist ()).width b = 64 := by
    intro b
    simp only [Cum.width, uniformModel]
    omega
  have htot : uniformModel.dist () 256 = 16384 := rfl
  refine ⟨payload, s', hrun, hle.trans_eq ?_⟩
  norm_num [hwidth, htot]

end Bcb.RangeCoder
