import Bcb.Codec.Rotation
import Bcb.Lib.Lag

namespace Bcb.Codec

open Lib RangeCoder Bt Prior

/-- The symbol of byte `i` of a message, for records of `R` bytes with these modes. -/
def lagSymbol (modes : Nat → UInt8) (R : Nat) (m : List UInt8) (i : Nat) : UInt8 :=
  if modes (i % R) ≠ 0 then m.getD i 0 - (if R ≤ i then m.getD (i - R) 0 else 0) else m.getD i 0

/-- A byte fed to the coder with its table. -/
def feed (e : CecEncoder) (x : Cum × UInt8) : Outcome CecEncoder :=
  cecEncSym e (x.1 x.2.toNat) (x.1 (x.2.toNat + 1)) (x.1 256)

/-- What the tables of a structural prior hold. -/
structure Schema (p : BcbPrior) (modes : Nat → UInt8) (rows : Nat → UInt8 → Nat) : Prop where
  readable : SchemaReadable p
  mode : ∀ pos < p.schemaRec, p.schemaModes pos = .ok (modes pos)
  row : ∀ pos < p.schemaRec, p.schemaCum pos = .ok (rows pos)

/-- A codec in sdelta mode that has been trained with the message `m`. -/
structure Recorded (B : Build) (p : BcbPrior) (m : List UInt8) (c : BcbCodec) : Prop where
  coherent : Coherent B p c
  sdelta : c.sdelta = true
  holds : Lag.Holds 0 p.schemaRec m c.scPos c.scPrev c.scCur

variable {B : Build} {im : Image} {p : BcbPrior} {c c1 c2 d : BcbCodec} {modes : Nat → UInt8}
  {rows : Nat → UInt8 → Nat} {m m' : List UInt8} {b sym : UInt8} {R i n : Nat}

theorem cecEncByte_feed {σ : Type} {bt : CecBT σ} {s s' s'' : σ} {cum : Cum}
    (hdist : bt.distribution rcScale s = .ok (cum, s')) (htrain : bt.train b s' = .ok s'')
    (e : CecEncoder) : cecEncByte bt e s b = (feed e (cum, b)).map (·, s'') := by
  rw [cecEncByte, hdist, ok_bind]
  dsimp only
  rw [htrain, feed]
  cases cecEncSym e (cum b.toNat) (cum (b.toNat + 1)) (cum 256) with
  | error f => rfl
  | ok e1 => rfl

theorem lagSymbol_eq (modes : Nat → UInt8) (R : Nat) (m : List UInt8) (i : Nat) :
    lagSymbol modes R m i =
      if modes (i % R) ≠ 0 then m.getD i 0 - Lag.before 0 R m i else m.getD i 0 := rfl

theorem lagSymbol_append (hR : 0 < R) (l : List UInt8) (hi : i < m.length) :
    lagSymbol modes R (m ++ l) i = lagSymbol modes R m i := by
  rw [lagSymbol_eq, lagSymbol_eq, Lag.before_append hR hi.le, List.getD_append _ _ _ _ hi]

theorem lagSymbol_next (hR : 0 < R) (m l : List UInt8) (b : UInt8) :
    lagSymbol modes R (m ++ b :: l) m.length =
      if modes (m.length % R) ≠ 0 then b - Lag.before 0 R m m.length else b := by
  rw [lagSymbol_eq, Lag.before_append hR le_rfl, List.getD_append_right _ _ _ _ le_rfl,
    Nat.sub_self]
  rfl

theorem Schema.exists (hp : SchemaReadable p) : ∃ modes rows, Schema p modes rows := by
  refine ⟨fun i => if h : i < p.schemaPos then (hp.mode i h).choose else 0,
    fun i => if h : i < p.schemaPos then (hp.row i h).choose else fun _ => 0, hp,
    fun i hi => ?_, fun i hi => ?_⟩
  · have h : i < p.schemaPos := hp.pos ▸ hi
    rw [dif_pos h]
    exact (hp.mode i h).choose_spec
  · have h : i < p.schemaPos := hp.pos ▸ hi
    rw [dif_pos h]
    exact (hp.row i h).choose_spec.1

theorem codecDist_structural (hs : structural p = true) {luts : Bool} {scale : Nat} {cum : Cum}
    (h : codecDist B luts p scale c = .ok (cum, c1)) : c1 = c := by
  rw [codecDist, if_pos hs] at h
  obtain ⟨_, -, h⟩ := bind_eq_ok.1 h
  cases h
  rfl

section Step

variable (hs : structural p = true) (hp : Schema p modes rows)

include hs hp

theorem Recorded.dist (h : Recorded B p m c) : codecDist B true p rcScale c =
    .ok (rowCum rcScale (rows (m.length % p.schemaRec)), c) := by
  have hrow := hp.row _ (h.coherent.pos hs)
  obtain ⟨c', hdist, -⟩ := codecDist_sdelta hs hp.readable h.coherent h.sdelta hrow
  rw [h.holds.pos_eq] at hdist
  obtain rfl := codecDist_structural hs hdist
  exact hdist

theorem Recorded.encXform (h : Recorded B p m c) (b : UInt8) (l : List UInt8) :
    bcbCodecEncXform p c b = .ok (lagSymbol modes p.schemaRec (m ++ b :: l) m.length) := by
  have hR := (structural_rec_pos hs).1
  obtain ⟨hsym, -⟩ := encXform_sdelta hs hp.readable h.coherent h.sdelta
    (hp.mode _ (h.coherent.pos hs)) b
  rw [hsym, lagSymbol_next hR, h.holds.prev_pos hR, h.holds.pos_eq]

theorem Recorded.train (h : Recorded B p m c) (htrain : codecTrain p sym c = .ok c1) :
    Recorded B p (m ++ [c1.scLast]) c1 ∧
      sym = lagSymbol modes p.schemaRec (m ++ [c1.scLast]) m.length := by
  have hR := (structural_rec_pos hs).1
  have hpos := h.coherent.pos hs
  have hmode := hp.mode _ hpos
  have hact := codecTrain_scLast hs htrain
  constructor
  · refine ⟨h.coherent.train htrain, ?_, ?_⟩
    · rcases codecTrain_ok htrain with ⟨-, actual, -, rfl⟩ | ⟨-, rfl⟩
      · exact h.sdelta
      · exact h.sdelta
    · obtain ⟨c', htrain', hcur, hnext, hprev, -⟩ := codecTrain_structural hs hact
      obtain rfl := Except.ok.inj (htrain.symm.trans htrain')
      rw [hcur, hprev, hnext, advance_eq hR.ne' hpos]
      by_cases hend : p.schemaRec ≤ c.scPos + 1
      · rw [if_pos hend, if_pos rfl]
        exact h.holds.wrap (Nat.le_antisymm hpos hend) fun j hj => if_pos hj
      · rw [if_neg hend, if_neg (Nat.succ_ne_zero _)]
        exact h.holds.push (Nat.lt_of_not_le hend) _
  · rw [lagSymbol_next hR, ← h.holds.prev_pos hR, ← h.holds.pos_eq]
    simp only [actualByte, h.sdelta, if_true, hmode, ok_bind] at hact
    split_ifs at hact ⊢ with hdelta
    · rw [← Except.ok.inj hact, UInt8.add_sub_cancel]
    · exact Except.ok.inj hact

theorem Recorded.encByte (h : Recorded B p m c) (b : UInt8) (l : List UInt8) :
    ∃ c', Recorded B p (m ++ [b]) c' ∧
      bcbCodecEncXform p c b = .ok (lagSymbol modes p.schemaRec (m ++ b :: l) m.length) ∧
      ∀ e, cecEncByte (bcbCodecCecBt B true p) e c
          (lagSymbol modes p.schemaRec (m ++ b :: l) m.length) =
        (feed e (rowCum rcScale (rows (m.length % p.schemaRec)),
          lagSymbol modes p.schemaRec (m ++ b :: l) m.length)).map (·, c') := by
  have hsym := h.encXform hs hp b l
  have hpos : c.scPos < p.schemaPos := hp.readable.pos ▸ h.coherent.pos hs
  have hact := actualByte_encXform hs h.sdelta hpos hsym
  obtain ⟨c', htrain, -⟩ := codecTrain_structural hs hact
  have hlast := codecTrain_scLast hs htrain
  rw [hact] at hlast
  obtain ⟨hrec, -⟩ := h.train hs hp htrain
  rw [← Except.ok.inj hlast] at hrec
  exact ⟨c', hrec, hsym, cecEncByte_feed (h.dist hs hp) htrain⟩

theorem Recorded.encLoop (h : Recorded B p m c) (l : List UInt8) :
    ∃ c', Recorded B p (m ++ l) c' ∧ ∀ e,
      cecEncLoop (bcbCodecCecBt B true p) (bcbCodecEncXform p) l e c =
        (((List.range' m.length l.length).map fun i =>
          (rowCum rcScale (rows (i % p.schemaRec)),
            lagSymbol modes p.schemaRec (m ++ l) i)).foldlM feed e).map (·, c') := by
  induction l generalizing m c with
  | nil => exact ⟨c, by rwa [List.append_nil], fun e => rfl⟩
  | cons b l ih =>
    obtain ⟨c1, h1, hsym, hbyte⟩ := h.encByte hs hp b l
    obtain ⟨c', h', hloop⟩ := ih h1
    rw [List.append_assoc, List.singleton_append] at h' hloop
    rw [List.length_append, List.length_singleton] at hloop
    refine ⟨c', h', fun e => ?_⟩
    rw [cecEncLoop, hsym, ok_bind, hbyte, List.length_cons, List.range'_succ, List.map_cons,
      List.foldlM_cons]
    cases hfeed : feed e (rowCum rcScale (rows (m.length % p.schemaRec)),
        lagSymbol modes p.schemaRec (m ++ b :: l) m.length) with
    | error f => rfl
    | ok e1 => exact hloop e1

/-- The symbols that a decoder reads are those of the bytes it delivers. -/
theorem Recorded.decLoop (h : Recorded B p m c) (n : Nat) {e e' : CecDecoder} {out : List UInt8}
    (hloop : cecDecLoop (bcbCodecCecBt B true p) (fun c _ => c.scLast) n e c = .ok (out, e', c2)) :
    cecDecLoop (bcbCodecCecBt B true p) (fun _ b => b) n e c =
      .ok ((List.range' m.length n).map (lagSymbol modes p.schemaRec (m ++ out)), e', c2) := by
  have hR := (structural_rec_pos hs).1
  induction n generalizing m c e out with
  | zero =>
    cases hloop
    rfl
  | succ n ih =>
    obtain ⟨⟨sym, e1, c1⟩, hbyte, hloop⟩ := bind_eq_ok.1 hloop
    obtain ⟨⟨rest, e2, c3⟩, hrest, hret⟩ := bind_eq_ok.1 hloop
    cases hret
    have hdec := hbyte
    simp only [cecDecByte, bcbCodecCecBt, h.dist hs hp, ok_bind] at hdec
    obtain ⟨⟨sym', e3⟩, -, hdec⟩ := bind_eq_ok.1 hdec
    obtain ⟨c4, htrain, hdec⟩ := bind_eq_ok.1 hdec
    cases hdec
    obtain ⟨h1, hsym⟩ := h.train hs hp htrain
    have hih := ih h1 hrest
    rw [List.append_assoc, List.singleton_append, List.length_append, List.length_singleton] at hih
    rw [cecDecLoop, hbyte, ok_bind]
    simp only [hih, ok_bind, List.range'_succ, List.map_cons]
    rw [← List.singleton_append (l := rest), ← List.append_assoc, lagSymbol_append hR, ← hsym]
    · rfl
    · simp

end Step

theorem lagSymbol_inj (hR : 0 < R) (hlen : m.length = m'.length)
    (h : ∀ i < m.length, lagSymbol modes R m i = lagSymbol modes R m' i) : m = m' := by
  have hget : ∀ i < m.length, m.getD i 0 = m'.getD i 0 := by
    intro i
    induction i using Nat.strong_induction_on with
    | _ i ih =>
      intro hi
      have heq := h i hi
      rw [lagSymbol_eq, lagSymbol_eq] at heq
      have hbefore : Lag.before 0 R m i = Lag.before 0 R m' i := by
        unfold Lag.before
        split_ifs with hle
        · exact ih (i - R) (by omega) (by omega)
        · rfl
      rw [hbefore] at heq
      split_ifs at heq
      · exact (UInt8.sub_left_inj _).1 heq
      · exact heq
  apply List.ext_getElem hlen
  intro i hi hi'
  have hi0 := hget i hi
  rwa [List.getD_eq_getElem _ _ hi, List.getD_eq_getElem _ _ hi'] at hi0

theorem Recorded.start (hs : structural p = true) {al : Bool} (hc : Reachable B p c)
    (h : bcbCodecSetSdelta B p al true (bcbCodecBegin B p c) = .ok c1) : Recorded B p [] c1 := by
  have hstart := bare_start hc.coherent h
  obtain ⟨⟨hpos, hprev, -⟩, hsd⟩ := bare_record (d := Codec.start p true) hstart
  refine ⟨(hc.begin.setSdelta h).coherent, ?_, ?_⟩
  · rw [hsd, Codec.start, hs]
    rfl
  · rw [hpos, hprev]
    exact .nil 0 _ _

/-- Encoding in sdelta mode is differencing with the record size as lag, each symbol coded with
the table of its place; a decoder that reads these symbols delivers the message. -/
theorem sdelta_lagR (hp : priorParse B im = .ok (some p)) (hs : structural p = true)
    (hc : Reachable B p c) (hd : Reachable B p d) (al al' : Bool) (msg : List UInt8) :
    ∃ modes rows c1 d1 c', Schema p modes rows ∧
      bcbCodecSetSdelta B p al true (bcbCodecBegin B p c) = .ok c1 ∧
      bcbCodecSetSdelta B p al' true (bcbCodecBegin B p d) = .ok d1 ∧
      (∀ e, cecEncLoop (bcbCodecCecBt B true p) (bcbCodecEncXform p) msg e c1 =
        (((List.range msg.length).map fun i => (rowCum rcScale (rows (i % p.schemaRec)),
          lagSymbol modes p.schemaRec msg i)).foldlM feed e).map (·, c')) ∧
      ∀ e e' d', cecDecLoop (bcbCodecCecBt B true p) (fun _ b => b) msg.length e d1 =
          .ok ((List.range msg.length).map (lagSymbol modes p.schemaRec msg), e', d') →
        cecDecLoop (bcbCodecCecBt B true p) (fun c _ => c.scLast) msg.length e d1 =
          .ok (msg, e', d') := by
  have hread := priorParse_schema hp (structural_rec_pos hs).1.ne'
  have hR := (structural_rec_pos hs).1
  obtain ⟨modes, rows, hschema⟩ := Schema.exists hread
  obtain ⟨c1, hc1⟩ :=
    bcbCodecSetSdelta_total (B := B) (fun _ => hread) al true (bcbCodecBegin B p c)
  obtain ⟨d1, hd1⟩ :=
    bcbCodecSetSdelta_total (B := B) (fun _ => hread) al' true (bcbCodecBegin B p d)
  obtain ⟨c', -, henc⟩ := (Recorded.start hs hc hc1).encLoop hs hschema msg
  refine ⟨modes, rows, c1, d1, c', hschema, hc1, hd1, ?_, fun e e' d' hsyms => ?_⟩
  · rw [List.range_eq_range']
    exact henc
  · obtain ⟨out, hout⟩ := cecDecLoop_post hsyms fun c _ => c.scLast
    have hlag := (Recorded.start hs hd hd1).decLoop hs hschema msg.length hout
    have hlen := cecDecLoop_length hout
    have heq : (List.range msg.length).map (lagSymbol modes p.schemaRec msg) =
        (List.range msg.length).map (lagSymbol modes p.schemaRec out) := by
      rw [hsyms] at hlag
      exact (Prod.mk.inj (Except.ok.inj hlag)).1.trans (congrArg _ List.range_eq_range'.symm)
    have hmsg : msg = out := lagSymbol_inj hR hlen.symm fun i hi =>
      List.map_inj_left.1 heq i (List.mem_range.2 hi)
    rwa [← hmsg] at hout

theorem sdelta_lagR_delta : ∃ modes rows c1 d1 c', Schema (schemaPrior 1 fun _ => 64) modes rows ∧
    bcbCodecSetSdelta .plain (schemaPrior 1 fun _ => 64) true true (bcbCodecBegin .plain
      (schemaPrior 1 fun _ => 64) (bcbCodecNew .plain (schemaPrior 1 fun _ => 64) true)) = .ok c1 ∧
    bcbCodecSetSdelta .plain (schemaPrior 1 fun _ => 64) false true (bcbCodecBegin .plain
      (schemaPrior 1 fun _ => 64) (bcbCodecNew .plain (schemaPrior 1 fun _ => 64) true)) = .ok d1 ∧
    (∀ e, cecEncLoop (bcbCodecCecBt .plain true (schemaPrior 1 fun _ => 64))
        (bcbCodecEncXform (schemaPrior 1 fun _ => 64)) [5, 9, 9] e c1 =
      (((List.range 3).map fun i => (rowCum rcScale (rows (i % 1)),
        lagSymbol modes 1 [5, 9, 9] i)).foldlM feed e).map (·, c')) ∧
    ∀ e e' d', cecDecLoop (bcbCodecCecBt .plain true (schemaPrior 1 fun _ => 64)) (fun _ b => b) 3
          e d1 = .ok ((List.range 3).map (lagSymbol modes 1 [5, 9, 9]), e', d') →
        cecDecLoop (bcbCodecCecBt .plain true (schemaPrior 1 fun _ => 64)) (fun c _ => c.scLast) 3
          e d1 = .ok ([5, 9, 9], e', d') :=
  sdelta_lagR (priorParse_schemaImage 1 _) (structural_schemaPrior 1 _) (.new true) (.new true)
    true false [5, 9, 9]

end Bcb.Codec
