import Bcb.Lib.PrefixCode
import Bcb.RangeCoder.Adaptive
import Bcb.RangeCoder.Length
import Mathlib.Data.FinEnum

/-! What the range coder cannot save: a payload is not shorter than its tables say, and the
payloads of all messages of one length are a prefix code. -/

namespace Bcb.RangeCoder

open Lib CecEncoder

variable {σ τ : Type} {e : CecEncoder} {n : Nat}

/-! ## No payload is shorter than its ideal code length -/

/-- What the divisions of a symbol can win. -/
def gain : ℚ := 65537 / 65536

/-- What has been coded, of cost `c`, has been paid for with the turns so far. -/
def Covered (e : CecEncoder) (c : ℚ) : Prop := (e.interval.width : ℚ) * c ≤ 2 ^ (e.turns + 32)

theorem cecEncNew_covered : Covered cecEncNew 1 := by
  rw [Covered, interval_width cecEncNew_between.toOrdered]
  norm_num [cecEncNew, turns, bits]

/-- A symbol keeps no more than its share of a range of `2^30`, but for one part in `2^16`. -/
theorem width_narrowed {cum : Cum} {b : UInt8} (h : e.Between n) (hc : cum.Increasing) :
    ((narrowed e cum b.toNat).interval.width : ℚ) * (cum 256 / cum.width b) ≤
      e.interval.width * gain := by
  have hle := h.low_le
  have hgap := h.gap
  obtain ⟨-, ho, -, hw, -⟩ := cecEncSym_narrowed h hc b.toNat_lt
  have hpos := hc.width_pos b
  have hwidth : (narrowed e cum b.toNat).interval.width =
      (e.high - e.low + 1) * cum (b.toNat + 1) / cum 256 -
        (e.high - e.low + 1) * cum b.toNat / cum 256 := by
    have hle' := ho.low_le
    rw [interval_width ho]
    simp only [narrowed] at hle' hw ⊢
    omega
  have hroom : 65536 * cum 256 ≤ (e.high - e.low + 1) * cum.width b := by
    calc 65536 * cum 256 ≤ 65536 * 2 ^ 14 := Nat.mul_le_mul_left _ hc.total
      _ ≤ (e.high - e.low + 1) * 1 := by omega
      _ ≤ (e.high - e.low + 1) * cum.width b := Nat.mul_le_mul_left _ hpos
  have hshare := share_scaled hc.tot_pos hroom
  rw [← hwidth, ← interval_width h.toOrdered] at hshare
  have hcast : (65536 : ℚ) * ((narrowed e cum b.toNat).interval.width * cum 256) ≤
      65537 * (e.interval.width * cum.width b) := by exact_mod_cast hshare
  have hposQ : (0 : ℚ) < cum.width b := by exact_mod_cast hpos
  calc ((narrowed e cum b.toNat).interval.width : ℚ) * (cum 256 / cum.width b)
      = 65536 * ((narrowed e cum b.toNat).interval.width * cum 256) /
          (65536 * cum.width b) := by field_simp
    _ ≤ 65537 * (e.interval.width * cum.width b) / (65536 * cum.width b) := by gcongr
    _ = e.interval.width * gain := by
        rw [gain]
        field_simp

theorem Covered.symbol {cum : Cum} {b : UInt8} {c : ℚ} (hp : Covered e c) (hcost : 0 ≤ c)
    (h : e.Between n) (hn : n + 1 < 2 ^ 28) (hc : cum.Increasing) :
    Covered (cecRenormEnc (narrowed e cum b.toNat)) (c * (cum 256 / cum.width b * gain⁻¹)) := by
  obtain ⟨-, j, hint, hturns⟩ := cecEncSym_turned h hn hc b.toNat_lt
  have hwidth : (cecRenormEnc (narrowed e cum b.toNat)).interval.width =
      2 ^ j * (narrowed e cum b.toNat).interval.width := by
    rw [hint, CodeInterval.width_double_iterate]
  have hgain : 0 < gain := by norm_num [gain]
  rw [Covered, hturns, hwidth, Nat.cast_mul, Nat.cast_pow, Nat.cast_ofNat]
  calc (2 : ℚ) ^ j * (narrowed e cum b.toNat).interval.width *
        (c * (cum 256 / cum.width b * gain⁻¹))
      = 2 ^ j * ((narrowed e cum b.toNat).interval.width * (cum 256 / cum.width b) * c /
          gain) := by ring
    _ ≤ 2 ^ j * ((e.interval.width * gain) * c / gain) := by
        have hmul := mul_le_mul_of_nonneg_right (width_narrowed (b := b) h hc) hcost
        exact mul_le_mul_of_nonneg_left (div_le_div_of_nonneg_right hmul hgain.le) (by positivity)
    _ = 2 ^ j * (e.interval.width * c) := by field_simp
    _ ≤ 2 ^ j * 2 ^ (e.turns + 32) := mul_le_mul_of_nonneg_left hp (by positivity)
    _ = 2 ^ (e.turns + j + 32) := by
        rw [← pow_add, Nat.add_left_comm, Nat.add_assoc]

/-- Each turn is a bit of the payload, and two more end it. -/
theorem le_cecEncFinish_length (h : e.Between n) (hn : n < 2 ^ 28) :
    e.turns + 2 ≤ 8 * (cecEncFinish e).length := by
  have hturns := h.turns_le
  have hpend : e.pending ≤ e.turns := Nat.le_add_left _ _
  have hmod : (e.pending + 1) % 2 ^ 32 = e.pending + 1 := Nat.mod_eq_of_lt (by omega)
  let e1 : CecEncoder := { e with pending := e.pending + 1 }
  have hs : SameOutput e e1 := ⟨rfl, rfl, rfl⟩
  obtain ⟨hbuf, -, hbits⟩ := cecFlush_spec (hs.buffered h.toBuffered) (!decide (e.low < 2 ^ 30))
  obtain ⟨k, hk, -⟩ := cecPad_spec hbuf
  have hfin : cecEncFinish e =
      (Loop.run cecPadTurn 8 (cecFlush e1 (!decide (e.low < 2 ^ 30)))).out := by
    rw [cecEncFinish, hmod]
  have hlen := congrArg List.length hk
  rw [← hfin, hbits, hs.bits, bytesBits_length] at hlen
  simp only [List.length_append, List.length_cons, List.length_replicate] at hlen
  have hp1 : e1.pending = e.pending + 1 := rfl
  rw [turns]
  omega

/-- A payload is at least as long as what the tables ask for its message, but for what the
divisions win. -/
theorem le_cecCompress_length {bt : CecBT σ} {msg payload : List UInt8} {s s' : σ}
    {places : List (Cum × UInt8)} (hn : msg.length < 2 ^ 28)
    (hcoded : coded bt (fun _ b => pure b) msg s = .ok places)
    (hinc : ∀ p ∈ places, p.1.Increasing) (hrun : cecCompress bt s msg = .ok (payload, s')) :
    (places.map fun p => (p.1 256 : ℚ) / p.1.width p.2).prod ≤
      2 ^ (8 * payload.length) * (65537 / 65536) ^ msg.length := by
  obtain ⟨⟨e, s1⟩, hloop, hret⟩ := bind_eq_ok.1 hrun
  obtain ⟨rfl, rfl⟩ := Prod.mk.inj (Except.ok.inj hret)
  have hgain0 : 0 ≤ gain⁻¹ := by norm_num [gain]
  obtain ⟨e', s', hloop', hbet, hcovered⟩ := cecEncLoop_weighed hgain0 Covered.symbol
    cecEncNew_between (by omega) hcoded hinc cecEncNew_covered zero_le_one
  obtain ⟨rfl, rfl⟩ := Prod.mk.inj (Except.ok.inj (hloop.symm.trans hloop'))
  have hlen := le_cecEncFinish_length hbet (by omega)
  have hgain : 0 < gain ^ msg.length := pow_pos (by norm_num [gain]) _
  have hgap := hbet.gap
  have hwidth : (2 ^ 30 : ℚ) ≤ e.interval.width := by
    have hle : 2 ^ 30 ≤ e.interval.width := by
      rw [interval_width hbet.toOrdered]
      omega
    exact_mod_cast hle
  rw [Covered, one_mul, inv_pow, ← div_eq_mul_inv] at hcovered
  have hpaid : 2 ^ 30 * (ideal places / gain ^ msg.length) ≤ 2 ^ 30 * 2 ^ (e.turns + 2) := by
    calc 2 ^ 30 * (ideal places / gain ^ msg.length)
        ≤ e.interval.width * (ideal places / gain ^ msg.length) :=
          mul_le_mul_of_nonneg_right hwidth (div_nonneg (ideal_nonneg places) hgain.le)
      _ ≤ 2 ^ (e.turns + 32) := hcovered
      _ = 2 ^ 30 * 2 ^ (e.turns + 2) := by
          rw [show e.turns + 32 = 30 + (e.turns + 2) by omega, pow_add]
  calc ideal places ≤ 2 ^ (e.turns + 2) * gain ^ msg.length :=
        (div_le_iff₀ hgain).1 (le_of_mul_le_mul_left hpaid (by positivity))
    _ ≤ 2 ^ (8 * (cecEncFinish e).length) * gain ^ msg.length :=
        mul_le_mul_of_nonneg_right (pow_le_pow_right₀ one_le_two hlen) hgain.le

theorem le_cecCompress_length_uniform :
    ∃ payload s', cecCompress uniformModel.toCecBT () [7, 255, 0] = .ok (payload, s') ∧
      256 ^ 3 ≤ (2 : ℚ) ^ (8 * payload.length) * (65537 / 65536) ^ 3 := by
  have hinc := (uniformModel.codable ()).increasing
  obtain ⟨e, s', hloop⟩ := uniformModel.cecEncLoop_ok [7, 255, 0] cecEncNew_between (by decide) ()
  have hrun : cecCompress uniformModel.toCecBT () [7, 255, 0] = .ok (cecEncFinish e, s') :=
    bind_eq_ok.2 ⟨(e, s'), hloop, rfl⟩
  have hle := le_cecCompress_length (by decide)
    (show coded uniformModel.toCecBT (fun _ b => pure b) [7, 255, 0] () = .ok _ from rfl) (by
      rintro p hp
      simp only [List.mem_cons, List.not_mem_nil, or_false] at hp
      obtain rfl | rfl | rfl := hp <;> exact hinc) hrun
  have hwidth : ∀ b, (uniformModel.dist ()).width b = 64 := by
    intro b
    simp only [Cum.width, uniformModel]
    omega
  have htot : uniformModel.dist () 256 = 16384 := rfl
  refine ⟨cecEncFinish e, s', hrun, le_trans (le_of_eq ?_) hle⟩
  norm_num [hwidth, htot]

/-! ## The payloads of all messages of one length -/

namespace Paced

variable {btE : CecBT σ} {btD : CecBT τ} {R : List UInt8 → σ → τ → Prop}
  {msg msg' payload payload' : List UInt8} {s s1 s2 : σ} {t : τ}

theorem payload_ne_nil (P : Paced btE btD R) (hR : R msg s t) (hmsg : msg.length < 2 ^ 28)
    (h : cecCompress btE s msg = .ok (payload, s1)) : payload ≠ [] := by
  obtain ⟨e, s', hplain, hdue⟩ := P.encLoop hR cecEncNew_between (by omega)
  have hrel : (msg, s).1 = (msg, t).1 ∧ R (msg, s).1 (msg, s).2 (msg, t).2 := ⟨rfl, hR⟩
  obtain ⟨hbet, -⟩ := P.lockstep.encLoop msg hrel cecEncNew_between (by omega) hdue
  have hlen := le_cecEncFinish_length hbet (by omega)
  obtain ⟨rfl, -⟩ := Prod.mk.inj (Except.ok.inj (h.symm.trans (bind_eq_ok.2 ⟨_, hplain, rfl⟩)))
  exact List.ne_nil_of_length_pos (by omega)

/-- A payload that another one begins with is of the same message. -/
theorem eq_of_begins (P : Paced btE btD R) (hR : R msg s t) (hR' : R msg' s t)
    (hlen : msg.length = msg'.length) (hmsg : msg.length < 2 ^ 28)
    (h : cecCompress btE s msg = .ok (payload, s1))
    (h' : cecCompress btE s msg' = .ok (payload', s2)) (hbegin : payload <+: payload') :
    msg = msg' := by
  obtain ⟨extra, rfl⟩ := hbegin
  obtain ⟨p, x, y, hcomp, -, -, hdec⟩ := P.roundTrip hR hmsg
  obtain ⟨p', x', y', hcomp', -, -, hdec'⟩ := P.roundTrip hR' (hlen ▸ hmsg)
  obtain ⟨rfl, -⟩ := Prod.mk.inj (Except.ok.inj (h.symm.trans hcomp))
  obtain ⟨rfl, -⟩ := Prod.mk.inj (Except.ok.inj (h'.symm.trans hcomp'))
  have hboth := hdec' []
  rw [List.append_nil, ← hlen] at hboth
  exact (Prod.mk.inj (Except.ok.inj ((hdec extra).symm.trans hboth))).1

theorem kraft (P : Paced btE btD R) {n : Nat} (hn : n < 2 ^ 28)
    (hR : ∀ msg, msg.length = n → R msg s t) :
    ∃ payload : (Fin n → UInt8) → List UInt8,
      (∀ m, ∃ s', cecCompress btE s (List.ofFn m) = .ok (payload m, s')) ∧
      (∀ m m', payload m <+: payload m' → m = m') ∧
      ∑ m, (1 / 256 : ℝ) ^ (payload m).length ≤ 1 ∧ ∃ m, n ≤ (payload m).length := by
  have hcard : Fintype.card UInt8 = 256 := FinEnum.card_eq_fintypeCard.symm
  have hready : ∀ m : Fin n → UInt8, R (List.ofFn m) s t := fun m => hR _ List.length_ofFn
  have hshort : ∀ m : Fin n → UInt8, (List.ofFn m).length < 2 ^ 28 := fun m => by
    rwa [List.length_ofFn]
  have hrun : ∀ m : Fin n → UInt8, ∃ payload s',
      cecCompress btE s (List.ofFn m) = .ok (payload, s') := by
    intro m
    obtain ⟨payload, s', -, hcomp, -⟩ := P.roundTrip (hready m) (hshort m)
    exact ⟨payload, s', hcomp⟩
  choose payload s' hcomp using hrun
  have hbegin : ∀ m m', payload m <+: payload m' → m = m' := by
    intro m m' h
    refine List.ofFn_injective (P.eq_of_begins (hready m) (hready m') ?_ (hshort m) (hcomp m)
      (hcomp m') h)
    rw [List.length_ofFn, List.length_ofFn]
  have hne : ∀ m, payload m ≠ [] := fun m => P.payload_ne_nil (hready m) (hshort m) (hcomp m)
  refine ⟨payload, fun m => ⟨s' m, hcomp m⟩, hbegin, ?_, exists_long hbegin hne ?_ ?_⟩
  · have hkraft := sum_length_le_one hbegin hne
    rwa [hcard] at hkraft
  · rw [Fintype.card_fun, Fintype.card_fin]
  · rw [hcard]
    norm_num

end Paced

end Bcb.RangeCoder
