import Bcb.Lib.CodeInterval
import Bcb.RangeCoder.Renorm

/-! The encoder refines a code interval: the bits it has written, those it owes and
`low`, `high` together stand for an interval that a turn doubles and a symbol narrows. -/

namespace Bcb.RangeCoder

open Lib

namespace CecEncoder

/-- Everything written, the bits still in `cur_byte` included. -/
def bits (e : CecEncoder) : List Bool := bytesBits e.out ++ bitsOf e.curBits e.curByte

/-- How often the range has been doubled. -/
def turns (e : CecEncoder) : Nat := e.bits.length + e.pending

/-- Where the window of `low` and `high` starts: the written bits, then `pending`
times a straddle of the middle. -/
def base (e : CecEncoder) : Nat :=
  2 ^ 32 * (ofBits e.bits * 2 ^ e.pending) + 2 ^ 31 * (2 ^ e.pending - 1)

def interval (e : CecEncoder) : CodeInterval :=
  ⟨32 + e.turns, e.base + e.low, e.base + e.high⟩

structure Buffered (e : CecEncoder) : Prop where
  bits_lt : e.curBits < 8
  byte_lt : e.curByte < 2 ^ e.curBits

structure Ordered (e : CecEncoder) : Prop extends Buffered e where
  low_le : e.low ≤ e.high
  high_lt : e.high < 2 ^ 32

/-- What holds between symbols, after `n` of them. -/
structure Between (n : Nat) (e : CecEncoder) : Prop extends Ordered e where
  settled : renormShift e.low e.high = none
  turns_le : e.turns ≤ 16 * n

theorem Between.gap {n : Nat} {e : CecEncoder} (h : e.Between n) : 2 ^ 30 ≤ e.high - e.low :=
  (renormShift_none h.settled).1

end CecEncoder

open CecEncoder

variable {e e' : CecEncoder}

@[simp] theorem cecEmitBit_pending (e : CecEncoder) (b : Bool) :
    (cecEmitBit e b).pending = e.pending := by
  simp only [cecEmitBit]
  split_ifs <;> rfl

theorem cecEmitBit_buffered (h : e.Buffered) (b : Bool) : (cecEmitBit e b).Buffered := by
  obtain ⟨hlt, hby⟩ := h
  have hb := Bool.toNat_lt b
  simp only [cecEmitBit]
  split_ifs with h8
  · exact ⟨by simp, by simp⟩
  · refine ⟨by simp only; omega, ?_⟩
    simp only [pow_succ]
    exact lt_of_le_of_lt (Nat.mod_le _ _) (by omega)

theorem cecEmitBit_bits (h : e.Buffered) (b : Bool) : (cecEmitBit e b).bits = e.bits ++ [b] := by
  obtain ⟨hlt, hby⟩ := h
  have hb := Bool.toNat_lt b
  have hpow : 2 ^ (e.curBits + 1) ≤ 2 ^ 8 := Nat.pow_le_pow_right (by norm_num) (by omega)
  have hmod : (2 * e.curByte + b.toNat) % 256 = 2 * e.curByte + b.toNat := by
    rw [pow_succ] at hpow
    exact Nat.mod_eq_of_lt (by omega)
  simp only [cecEmitBit, hmod]
  split_ifs with h8
  · have h7 : e.curBits = 7 := by omega
    have hbyte : (UInt8.ofNat (2 * e.curByte + b.toNat)).toNat = 2 * e.curByte + b.toNat := by
      simpa using hmod
    simp only [bits, bytesBits_snoc, hbyte, bitsOf_zero, List.append_nil, h7, List.append_assoc]
    rw [← bitsOf_snoc]
  · simp only [bits, bitsOf_snoc, List.append_assoc]

theorem cecFlushPending_bits (b : Bool) (n : Nat) {e : CecEncoder} (h : e.Buffered) :
    (cecFlushPending b n e).Buffered ∧
      (cecFlushPending b n e).bits = e.bits ++ List.replicate n (!b) := by
  induction n generalizing e with
  | zero => exact ⟨h, by simp [cecFlushPending]⟩
  | succ n ih =>
    have he := cecEmitBit_buffered h (!b)
    obtain ⟨h1, h2⟩ := ih (e := { cecEmitBit e (!b) with pending := n }) ⟨he.1, he.2⟩
    refine ⟨h1, ?_⟩
    rw [cecFlushPending, h2]
    have hbits : ({ cecEmitBit e (!b) with pending := n } : CecEncoder).bits =
        e.bits ++ [!b] := cecEmitBit_bits h (!b)
    rw [hbits, List.append_assoc, List.replicate_succ, List.singleton_append]

theorem cecFlushPending_pending (b : Bool) (n : Nat) {e : CecEncoder} (h : e.pending = n) :
    (cecFlushPending b n e).pending = 0 := by
  induction n generalizing e with
  | zero => exact h
  | succ n ih => exact ih rfl

theorem cecFlush_spec (h : e.Buffered) (b : Bool) :
    (cecFlush e b).Buffered ∧ (cecFlush e b).pending = 0 ∧
      (cecFlush e b).bits = e.bits ++ b :: List.replicate e.pending (!b) := by
  have he := cecEmitBit_buffered h b
  obtain ⟨h1, h2⟩ := cecFlushPending_bits b e.pending he
  refine ⟨h1, cecFlushPending_pending b e.pending (cecEmitBit_pending e b), ?_⟩
  rw [cecFlush, h2, cecEmitBit_bits h, List.append_assoc, List.singleton_append]

theorem turns_flush (h : e.Buffered) (b : Bool) :
    (cecFlush e b).turns = e.turns + 1 := by
  obtain ⟨-, hp, hb⟩ := cecFlush_spec h b
  rw [turns, hp, hb, turns]
  simp
  omega

theorem base_flush (h : e.Buffered) (b : Bool) :
    (cecFlush e b).base = 2 * (e.base + 2 ^ 31 * b.toNat) := by
  obtain ⟨-, hp, hb⟩ := cecFlush_spec h b
  have hpow := Nat.two_pow_pos e.pending
  rw [base, hp, hb, base]
  simp only [ofBits_append, ofBits_cons, List.length_cons, List.length_replicate, pow_succ, pow_zero,
    ← Nat.mul_assoc (ofBits e.bits)]
  cases b with
  | false =>
    have ht := ofBits_replicate_true e.pending
    simp only [Bool.not_false, Bool.toNat_false]
    omega
  | true =>
    simp only [Bool.not_true, ofBits_replicate_false, Bool.toNat_true]
    omega

/-- The ends of the range are no part of what has been written. -/
structure SameOutput (e e' : CecEncoder) : Prop where
  out : e'.out = e.out
  curByte : e'.curByte = e.curByte
  curBits : e'.curBits = e.curBits

theorem SameOutput.buffered (h : SameOutput e e') (he : e.Buffered) : e'.Buffered :=
  ⟨h.curBits ▸ he.bits_lt, h.curByte ▸ h.curBits ▸ he.byte_lt⟩

theorem SameOutput.bits (h : SameOutput e e') : e'.bits = e.bits := by
  rw [CecEncoder.bits, h.out, h.curByte, h.curBits, CecEncoder.bits]

theorem SameOutput.turns (h : SameOutput e e') (hp : e'.pending = e.pending) :
    e'.turns = e.turns := by
  rw [CecEncoder.turns, h.bits, hp, CecEncoder.turns]

theorem SameOutput.base (h : SameOutput e e') (hp : e'.pending = e.pending) :
    e'.base = e.base := by
  rw [CecEncoder.base, h.bits, hp, CecEncoder.base]

theorem sameOutput_shift (e : CecEncoder) (p lo hi : Nat) :
    SameOutput e (cecShiftEnc { e with pending := p, low := lo, high := hi }) := ⟨rfl, rfl, rfl⟩

theorem pending_shift (e : CecEncoder) (p lo hi : Nat) :
    (cecShiftEnc { e with pending := p, low := lo, high := hi }).pending = p := rfl

theorem cecRenormEncTurn_interval (h : e.Ordered) (hp : e.pending + 1 < 2 ^ 32)
    (ht : cecRenormEncTurn e = some e') :
    e'.Ordered ∧ e'.interval = e.interval.double ∧
      ∃ c, renormShift e.low e.high = some c ∧ c ≤ e.low ∧
        e'.low = 2 * (e.low - c) ∧ e'.high = 2 * (e.high - c) + 1 ∧ e'.base = 2 * (e.base + c) := by
  obtain ⟨c, hc, hlow, hhigh⟩ := cecRenormEncTurn_ends ht
  have hle := h.low_le
  have hlt := h.high_lt
  have hcs := renormShift_cases hc
  have hlow' : e'.low = 2 * (e.low - c) := by omega
  have hhigh' : e'.high = 2 * (e.high - c) + 1 := by omega
  have hmain : e'.Buffered ∧ e'.base = 2 * (e.base + c) ∧ e'.turns = e.turns + 1 := by
    unfold cecRenormEncTurn at ht
    unfold renormShift at hc
    split_ifs at ht hc <;> obtain rfl := Option.some.inj ht <;> obtain rfl := Option.some.inj hc
    · have hs := sameOutput_shift (cecFlush e false) (cecFlush e false).pending
        (cecFlush e false).low (cecFlush e false).high
      refine ⟨hs.buffered (cecFlush_spec h.toBuffered false).1, ?_, ?_⟩
      · rw [hs.base (pending_shift ..), base_flush h.toBuffered]
        simp
      · rw [hs.turns (pending_shift ..), turns_flush h.toBuffered]
    · have hs := sameOutput_shift (cecFlush e true) (cecFlush e true).pending
        (e.low - 2 ^ 31) (e.high - 2 ^ 31)
      refine ⟨hs.buffered (cecFlush_spec h.toBuffered true).1, ?_, ?_⟩
      · rw [hs.base (pending_shift ..), base_flush h.toBuffered]
        simp
      · rw [hs.turns (pending_shift ..), turns_flush h.toBuffered]
    · have hmod : (e.pending + 1) % 2 ^ 32 = e.pending + 1 := Nat.mod_eq_of_lt hp
      have hpow := Nat.two_pow_pos e.pending
      rw [hmod]
      have hs := sameOutput_shift e (e.pending + 1) (e.low - 2 ^ 30) (e.high - 2 ^ 30)
      refine ⟨hs.buffered h.toBuffered, ?_, ?_⟩
      · rw [base, hs.bits, base]
        rw [pending_shift]
        simp only [pow_succ, ← Nat.mul_assoc (ofBits _)]
        omega
      · rw [turns, hs.bits, turns]
        rw [pending_shift]
        omega
  obtain ⟨hbuf, hbase, hturns⟩ := hmain
  refine ⟨⟨hbuf, by omega, by omega⟩, ?_, c, hc, by omega, hlow', hhigh', hbase⟩
  simp only [interval, CodeInterval.double, hturns, hlow', hhigh', hbase, CodeInterval.mk.injEq]
  omega

/-- `e'` is `e` after some turns. -/
structure Turned (e e' : CecEncoder) : Prop extends Ordered e' where
  doubled : ∃ j, e'.interval = CodeInterval.double^[j] e.interval

theorem Turned.turns_le (h : Turned e e') (hw : 2 ^ 16 ≤ e.high - e.low + 1) (hle : e.low ≤ e.high) :
    ∃ j ≤ 16, e'.interval = CodeInterval.double^[j] e.interval ∧ e'.turns = e.turns + j := by
  obtain ⟨j, hj⟩ := h.doubled
  have hle' := h.low_le
  have hlt' := h.high_lt
  have hscale : 32 + e'.turns = 32 + e.turns + j :=
    (congrArg CodeInterval.scale hj).trans (CodeInterval.scale_double_iterate j e.interval)
  have hwidth : e'.interval.width = 2 ^ j * e.interval.width := by
    rw [hj, CodeInterval.width_double_iterate]
  refine ⟨j, ?_, hj, by omega⟩
  by_contra hcon
  have h17 : 2 ^ 17 ≤ 2 ^ j := Nat.pow_le_pow_right (by norm_num) (by omega)
  have hw' : 2 ^ 16 ≤ e.interval.width := by
    simp only [interval, CodeInterval.width]
    omega
  have hmul := Nat.mul_le_mul h17 hw'
  simp only [interval, CodeInterval.width] at hwidth hmul
  omega

theorem Turned.turn {e1 e2 : CecEncoder} (h : Turned e e1) (hw : 2 ^ 16 ≤ e.high - e.low + 1)
    (hle : e.low ≤ e.high) (ht : e.turns + 17 < 2 ^ 32) (h12 : cecRenormEncTurn e1 = some e2) :
    Turned e e2 ∧ e2.interval = e1.interval.double ∧
      ∃ c, renormShift e1.low e1.high = some c ∧ c ≤ e1.low ∧
        e2.low = 2 * (e1.low - c) ∧ e2.high = 2 * (e1.high - c) + 1 ∧
        e2.base = 2 * (e1.base + c) := by
  obtain ⟨j, hj16, hj, hturns⟩ := h.turns_le hw hle
  have hpend : e1.pending ≤ e1.turns := Nat.le_add_left _ _
  obtain ⟨ho, hint, hc⟩ := cecRenormEncTurn_interval h.toOrdered (by omega) h12
  exact ⟨⟨ho, j + 1, by rw [hint, hj, Function.iterate_succ_apply']⟩, hint, hc⟩

theorem cecRenormEnc_turned (h : e.Ordered) (hw : 2 ^ 16 ≤ e.high - e.low + 1)
    (ht : e.turns + 17 < 2 ^ 32) : Turned e (cecRenormEnc e) :=
  Loop.run_inv (P := Turned e) (fun _ _ ha hab => (ha.turn hw h.low_le ht hab).1) 32
    ⟨h, 0, rfl⟩

/-- Every byte has a width, and a range of `2^30` holds all of them. -/
structure Cum.Increasing (cum : Cum) : Prop where
  strict : ∀ i < 256, cum i < cum (i + 1)
  total : cum 256 ≤ 2 ^ 14

theorem Cum.Increasing.mono {cum : Cum} (h : cum.Increasing) {i j : Nat} (hij : i ≤ j)
    (hj : j ≤ 256) : cum i ≤ cum j := by
  induction j, hij using Nat.le_induction with
  | base => rfl
  | succ j _ ih => exact (ih (by omega)).trans (h.strict j (by omega)).le

theorem Cum.Increasing.tot_pos {cum : Cum} (h : cum.Increasing) : 0 < cum 256 :=
  lt_of_le_of_lt (Nat.zero_le _) (h.strict 255 (by norm_num))

/-- What the coder asks of a table. -/
structure Cum.Codable (cum : Cum) : Prop where
  zero : cum 0 = 0
  strict : ∀ i < 256, cum i < cum (i + 1)
  total : cum 256 ≤ 2 ^ 14

theorem Cum.Codable.increasing {cum : Cum} (h : cum.Codable) : cum.Increasing :=
  ⟨h.strict, h.total⟩

/-- An adaptive byte model: a table for each state, and a step for each byte. -/
structure ByteModel (σ : Type) where
  dist : σ → Cum
  train : UInt8 → σ → σ
  codable : ∀ s, (dist s).Codable

def ByteModel.toCecBT {σ : Type} (M : ByteModel σ) : CecBT σ where
  distribution _ s := .ok (M.dist s, s)
  train b s := .ok (M.train b s)

/-- On a range of at least `2^30` the 32-bit arithmetic of a symbol is exact. -/
theorem cecNarrow_spec {low high cl ch tot : Nat} (hle : low ≤ high) (hlt : high < 2 ^ 32)
    (hgap : 2 ^ 30 ≤ high - low) (hc : cl < ch) (hct : ch ≤ tot) (ht : tot ≤ 2 ^ 14) :
    cecNarrow low high cl ch tot =
        (low + (high - low + 1) * cl / tot, low + (high - low + 1) * ch / tot - 1) ∧
      (high - low + 1) * cl / tot + 2 ^ 16 ≤ (high - low + 1) * ch / tot ∧
      (high - low + 1) * ch / tot ≤ high - low + 1 := by
  have htot : 0 < tot := by omega
  have hwidth := scaled_width (r := high - low + 1) htot hc
  have hr : 2 ^ 16 ≤ (high - low + 1) / tot := by
    rw [Nat.le_div_iff_mul_le htot]
    calc 2 ^ 16 * tot ≤ 2 ^ 16 * 2 ^ 14 := Nat.mul_le_mul_left _ ht
      _ ≤ high - low + 1 := by omega
  have hch : (high - low + 1) * ch / tot ≤ high - low + 1 := by
    refine Nat.div_le_of_le_mul ?_
    rw [Nat.mul_comm tot]
    exact Nat.mul_le_mul_left _ hct
  refine ⟨?_, by omega, hch⟩
  simp only [cecNarrow, sub32_of_le hle hlt, Prod.mk.injEq]
  generalize (high - low + 1) * cl / tot = a at *
  generalize (high - low + 1) * ch / tot = b at *
  unfold sub32
  omega

/-- The encoder once byte `b` has narrowed the range. -/
def narrowed (e : CecEncoder) (cum : Cum) (b : Nat) : CecEncoder :=
  { e with
    low := e.low + (e.high - e.low + 1) * cum b / cum 256
    high := e.low + (e.high - e.low + 1) * cum (b + 1) / cum 256 - 1 }

theorem cecEncSym_narrowed {n : Nat} {cum : Cum} {b : Nat} (h : e.Between n)
    (hc : cum.Increasing) (hb : b < 256) :
    cecEncSym e (cum b) (cum (b + 1)) (cum 256) = .ok (cecRenormEnc (narrowed e cum b)) ∧
      (narrowed e cum b).Ordered ∧ (narrowed e cum b).turns = e.turns ∧
      2 ^ 16 ≤ (narrowed e cum b).high - (narrowed e cum b).low + 1 ∧
      e.interval.Narrows (narrowed e cum b).interval := by
  have hlow := h.low_le
  have hhigh := h.high_lt
  obtain ⟨hnar, hkeep, htop⟩ := cecNarrow_spec h.low_le h.high_lt h.gap (hc.strict b hb)
    (hc.mono (by omega) le_rfl) hc.total
  have hs : SameOutput e (narrowed e cum b) := ⟨rfl, rfl, rfl⟩
  have ht : (narrowed e cum b).turns = e.turns := hs.turns rfl
  have hbase : (narrowed e cum b).base = e.base := hs.base rfl
  refine ⟨?_, ⟨hs.buffered h.toBuffered, ?_, ?_⟩, ht, ?_, ⟨?_, ?_, ?_⟩⟩
  · simp only [cecEncSym, if_neg hc.tot_pos.ne', hnar]
    rfl
  · simp only [narrowed]
    omega
  · simp only [narrowed]
    omega
  · simp only [narrowed]
    omega
  · rw [interval, interval, ht]
  · change e.base + e.low ≤ (narrowed e cum b).base + (e.low + _)
    rw [hbase]
    exact Nat.add_le_add_left (Nat.le_add_right _ _) _
  · change (narrowed e cum b).base + (e.low + _ - 1) ≤ e.base + e.high
    rw [hbase]
    omega

/-- The renormalisation after a symbol takes up to 16 turns. -/
theorem cecEncSym_turned {n : Nat} {cum : Cum} {b : Nat} (h : e.Between n) (hn : n + 1 < 2 ^ 28)
    (hc : cum.Increasing) (hb : b < 256) :
    (cecRenormEnc (narrowed e cum b)).Between (n + 1) ∧ ∃ j,
      (cecRenormEnc (narrowed e cum b)).interval =
        CodeInterval.double^[j] (narrowed e cum b).interval ∧
      (cecRenormEnc (narrowed e cum b)).turns = e.turns + j := by
  have hturns := h.turns_le
  obtain ⟨-, ho, ht, hw, -⟩ := cecEncSym_narrowed h hc hb
  have htd := cecRenormEnc_turned ho hw (by omega)
  obtain ⟨j, hj16, hj, htj⟩ := htd.turns_le hw ho.low_le
  have hdone := cecRenormEncTurn_none.1
    (cecRenormEnc_done (lt_of_le_of_lt ho.low_le ho.high_lt) ho.high_lt)
  exact ⟨⟨htd.toOrdered, hdone, by omega⟩, j, hj, by omega⟩

theorem cecEncSym_spec {n : Nat} {cum : Cum} {b : Nat} (h : e.Between n) (hn : n + 1 < 2 ^ 28)
    (hc : cum.Increasing) (hb : b < 256) :
    ∃ e', cecEncSym e (cum b) (cum (b + 1)) (cum 256) = .ok e' ∧ e'.Between (n + 1) ∧
      e'.interval.seqs = (narrowed e cum b).interval.seqs ∧ e'.interval.seqs ⊆ e.interval.seqs := by
  obtain ⟨hsym, -, -, -, hnar⟩ := cecEncSym_narrowed h hc hb
  obtain ⟨hbet, j, hj, -⟩ := cecEncSym_turned h hn hc hb
  have hseqs : (cecRenormEnc (narrowed e cum b)).interval.seqs =
      (narrowed e cum b).interval.seqs := by rw [hj, CodeInterval.seqs_double_iterate]
  refine ⟨_, hsym, hbet, hseqs, ?_⟩
  rw [hseqs]
  exact hnar.seqs_subset

@[simp] theorem bits_length (e : CecEncoder) : e.bits.length = 8 * e.out.length + e.curBits := by
  simp [bits]

theorem cecPadTurn_curBits {a b : CecEncoder} (h : cecPadTurn a = some b) :
    0 < a.curBits ∧ b = cecEmitBit a false ∧ (b.curBits = 0 ∨ b.curBits = a.curBits + 1) := by
  unfold cecPadTurn at h
  split_ifs at h with hpos
  obtain rfl := Option.some.inj h
  refine ⟨hpos, rfl, ?_⟩
  simp only [cecEmitBit]
  split_ifs
  · exact .inl rfl
  · exact .inr rfl

theorem cecPad_spec (h : e.Buffered) :
    ∃ k, bytesBits (Loop.run cecPadTurn 8 e).out = e.bits ++ List.replicate k false ∧
      8 * (Loop.run cecPadTurn 8 e).out.length ≤ e.bits.length + 7 := by
  have hinv : (Loop.run cecPadTurn 8 e).Buffered ∧
      (∃ k, (Loop.run cecPadTurn 8 e).bits = e.bits ++ List.replicate k false) ∧
      (Loop.run cecPadTurn 8 e).bits.length ≤ (e.bits.length + 7) / 8 * 8 := by
    refine Loop.run_inv (P := fun a : CecEncoder => a.Buffered ∧
      (∃ k, a.bits = e.bits ++ List.replicate k false) ∧
      a.bits.length ≤ (e.bits.length + 7) / 8 * 8) ?_ 8 ⟨h, ⟨0, by simp⟩, by omega⟩
    rintro a b ⟨ha, ⟨k, hk⟩, hlen⟩ hab
    obtain ⟨hpos, rfl, -⟩ := cecPadTurn_curBits hab
    have ha8 := ha.bits_lt
    have halen := bits_length a
    refine ⟨cecEmitBit_buffered ha false, ⟨k + 1, ?_⟩, ?_⟩
    · rw [cecEmitBit_bits ha, hk, List.append_assoc, List.replicate_succ']
    · rw [cecEmitBit_bits ha, List.length_append, List.length_singleton]
      omega
  have hdone : cecPadTurn (Loop.run cecPadTurn 8 e) = none := by
    refine Loop.run_done (P := fun k a => a.curBits = 0 ∨ k ≤ a.curBits ∧ a.curBits < 8) (m := 8)
      ?_ ?_ (Nat.zero_add 8) (.inr ⟨Nat.zero_le _, h.bits_lt⟩)
    · intro k a b ha hab
      obtain ⟨hpos, rfl, hz | hs⟩ := cecPadTurn_curBits hab
      · exact .inl hz
      · have h8 : (cecEmitBit a false).curBits < 8 := by
          simp only [cecEmitBit]
          split_ifs
          · norm_num
          · simp only
            omega
        exact .inr ⟨by omega, h8⟩
    · intro a ha
      have h0 : a.curBits = 0 := by omega
      simp [cecPadTurn, h0]
  obtain ⟨-, ⟨k, hk⟩, hlen⟩ := hinv
  have hzero : (Loop.run cecPadTurn 8 e).curBits = 0 := by
    by_contra hpos
    simp [cecPadTurn, Nat.pos_of_ne_zero hpos] at hdone
  refine ⟨k, ?_, ?_⟩
  · rw [← hk, bits, hzero, bitsOf_zero, List.append_nil]
  · rw [bits_length, hzero] at hlen
    omega

/-- The payload of a finished encoder, whatever bytes follow it, is a code point of
its interval; it is at most 9 bits longer than the range was doubled. -/
theorem cecEncFinish_spec {n : Nat} (h : e.Between n) (hn : n < 2 ^ 28) :
    (∀ extra, byteSeq (cecEncFinish e ++ extra) ∈ e.interval.seqs) ∧
      8 * (cecEncFinish e).length ≤ e.turns + 9 := by
  have hturns := h.turns_le
  have hpend : e.pending ≤ e.turns := Nat.le_add_left _ _
  have hmod : (e.pending + 1) % 2 ^ 32 = e.pending + 1 := Nat.mod_eq_of_lt (by omega)
  let e1 : CecEncoder := { e with pending := e.pending + 1 }
  have hs : SameOutput e e1 := ⟨rfl, rfl, rfl⟩
  obtain ⟨hbuf, -, hbits⟩ := cecFlush_spec (hs.buffered h.toBuffered) (!decide (e.low < 2 ^ 30))
  have hp1 : e1.pending = e.pending + 1 := rfl
  rw [hs.bits, hp1] at hbits
  obtain ⟨k, hk, hlen⟩ := cecPad_spec hbuf
  have hfin : cecEncFinish e =
      (Loop.run cecPadTurn 8 (cecFlush e1 (!decide (e.low < 2 ^ 30)))).out := by
    rw [cecEncFinish, hmod]
  rw [← hfin] at hk hlen
  rw [hbits] at hk hlen
  refine ⟨fun extra => ?_, ?_⟩
  · have hstart := byteSeq_startsWith (cecEncFinish e) extra
    rw [hk] at hstart
    obtain ⟨-, hlow2, hhigh2, hquart⟩ := renormShift_none h.settled
    have hpow := Nat.two_pow_pos e.pending
    -- the last written bit and its complements put the window at `2^30` or at `2^31`
    have hval : ofBits (e.bits ++ (!decide (e.low < 2 ^ 30)) ::
        List.replicate (e.pending + 1) (!!decide (e.low < 2 ^ 30))) * 2 ^ 30 =
          e.base + if e.low < 2 ^ 30 then 2 ^ 30 else 2 ^ 31 := by
      have ht := ofBits_replicate_true (e.pending + 1)
      simp only [base, ofBits_append, ofBits_cons, List.length_cons, List.length_replicate]
      simp only [pow_succ, ← Nat.mul_assoc (ofBits e.bits)] at ht ⊢
      split_ifs with hlow
      · simp only [hlow, decide_true, Bool.not_true, Bool.not_false, Bool.toNat_false]
        omega
      · simp only [hlow, decide_false, Bool.not_true, Bool.not_false, Bool.toNat_true,
          ofBits_replicate_false]
        omega
    refine CodeInterval.mem_seqs_of_startsWith hstart.append_left (k := 30) ?_ ?_ ?_
    · simp only [interval, turns, List.length_append, List.length_cons, List.length_replicate]
      omega
    · rw [hval]
      clear hval
      simp only [interval]
      split_ifs <;> omega
    · rw [hval]
      clear hval
      simp only [interval]
      split_ifs <;> omega
  · simp only [List.length_append, List.length_cons, List.length_replicate] at hlen
    rw [turns]
    omega

end Bcb.RangeCoder
