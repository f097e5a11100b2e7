import Bcb.RangeCoder.RoundTrip
import Bcb.RangeCoder.Simulation

/-! Models that give the same tables along one message: the bytes that are still to come are kept
beside the state of the model. -/

namespace Bcb.RangeCoder

variable {σ τ : Type} {btE : CecBT σ} {btD : CecBT τ} {R : List UInt8 → σ → τ → Prop}
  {msg : List UInt8} {s : σ} {t : τ}

/-- The model with what is left of the message. -/
def CecBT.due (bt : CecBT σ) : CecBT (List UInt8 × σ) where
  distribution scale x := (fun y => (y.1, x.1, y.2)) <$> bt.distribution scale x.2
  train b x := (fun s => (x.1.tail, s)) <$> bt.train b x.2

/-- The next byte of the message, and no other. -/
def nextDue (x : List UInt8 × σ) (b : UInt8) : Outcome UInt8 :=
  if x.1.head? = some b then pure b else throw .oob

theorem CecBT.due_alongside (bt : CecBT σ) : Alongside bt.due bt fun x s => x.2 = s where
  distribution := by
    rintro ⟨m, s⟩ _ rfl
    change Alike _ ((fun y => (y.1, m, y.2)) <$> bt.distribution rcScale s) _
    cases bt.distribution rcScale s with
    | error f => exact .error f
    | ok y => exact .ok ⟨rfl, rfl⟩
  train := by
    rintro ⟨m, s⟩ _ b rfl
    change Alike _ ((fun s => (m.tail, s)) <$> bt.train b s) _
    cases bt.train b s with
    | error f => exact .error f
    | ok s1 => exact .ok rfl

theorem cecEncByte_of {bt : CecBT σ} {s1 s2 : σ} {cum : Cum} {b : UInt8} {e e1 : CecEncoder}
    (hdist : bt.distribution rcScale s = .ok (cum, s1))
    (hsym : cecEncSym e (cum b.toNat) (cum (b.toNat + 1)) (cum 256) = .ok e1)
    (htrain : bt.train b s1 = .ok s2) : cecEncByte bt e s b = .ok (e1, s2) := by
  rw [cecEncByte, hdist, ok_bind]
  dsimp only
  rw [hsym, ok_bind, htrain]
  rfl

/-- Two models that are ready for the same message, `R` being told what is left of it. -/
structure Paced (btE : CecBT σ) (btD : CecBT τ) (R : List UInt8 → σ → τ → Prop) : Prop where
  step : ∀ {b : UInt8} {msg : List UInt8} {s : σ} {t : τ}, R (b :: msg) s t →
    ∃ cum s1 s2 t1 t2, cum.Codable ∧ btE.distribution rcScale s = .ok (cum, s1) ∧
      btE.train b s1 = .ok s2 ∧ btD.distribution rcScale t = .ok (cum, t1) ∧
      btD.train b t1 = .ok t2 ∧ R msg s2 t2

namespace Paced

theorem lockstep (P : Paced btE btD R) : Lockstep btE.due btD.due nextDue (fun _ b => b)
    fun x y => x.1 = y.1 ∧ R x.1 x.2 y.2 where
  step := by
    rintro ⟨m, s⟩ x1 x2 ⟨m', t⟩ b sym cum ⟨hm, hR⟩ hpre hdist htrain
    obtain rfl : m = m' := hm
    cases m with
    | nil => cases hpre
    | cons c m =>
      rw [nextDue] at hpre
      split_ifs at hpre with hc
      obtain rfl := Except.ok.inj hpre
      obtain rfl := Option.some.inj hc
      obtain ⟨cum', s1, s2, t1, t2, hcod, hdistE, htrainE, hdistD, htrainD, hR2⟩ := P.step hR
      obtain ⟨y, hy, hx1⟩ := map_eq_ok.1 hdist
      obtain rfl := Except.ok.inj (hdistE.symm.trans hy)
      obtain ⟨rfl, rfl⟩ := Prod.mk.inj hx1
      obtain ⟨s2', hs2, rfl⟩ := map_eq_ok.1 htrain
      obtain rfl := Except.ok.inj (htrainE.symm.trans hs2)
      refine ⟨hcod, (c :: m, t1), (m, t2), ?_, ?_, rfl, rfl, hR2⟩
      · exact map_eq_ok.2 ⟨_, hdistD, rfl⟩
      · exact map_eq_ok.2 ⟨_, htrainD, rfl⟩

theorem encLoop (P : Paced btE btD R) {n : Nat} {e : CecEncoder} (hR : R msg s t)
    (he : e.Between n) (hn : n + msg.length < 2 ^ 28) :
    ∃ e' s', cecEncLoop btE (fun _ b => pure b) msg e s = .ok (e', s') ∧
      cecEncLoop btE.due nextDue msg e (msg, s) = .ok (e', [], s') := by
  induction msg generalizing n e s t with
  | nil => exact ⟨e, s, rfl, rfl⟩
  | cons b msg ih =>
    rw [List.length_cons] at hn
    obtain ⟨cum, s1, s2, t1, t2, hcod, hdist, htrain, -, -, hR2⟩ := P.step hR
    obtain ⟨e1, hsym, hbet, -⟩ := cecEncSym_spec he (by omega) hcod.increasing b.toNat_lt
    obtain ⟨e', s', hplain, hdue⟩ := ih hR2 hbet (by omega)
    have hbyte : cecEncByte btE e s b = .ok (e1, s2) := cecEncByte_of hdist hsym htrain
    have hbyteDue : cecEncByte btE.due e (b :: msg, s) b = .ok (e1, msg, s2) :=
      cecEncByte_of (map_eq_ok.2 ⟨_, hdist, rfl⟩) hsym (map_eq_ok.2 ⟨_, htrain, rfl⟩)
    have hnext : nextDue (b :: msg, s) b = .ok b := if_pos rfl
    refine ⟨e', s', ?_, ?_⟩
    · rw [cecEncLoop]
      exact bind_eq_ok.2 ⟨b, rfl, bind_eq_ok.2 ⟨_, hbyte, hplain⟩⟩
    · rw [cecEncLoop]
      exact bind_eq_ok.2 ⟨b, hnext, bind_eq_ok.2 ⟨_, hbyteDue, hdue⟩⟩

theorem roundTrip (P : Paced btE btD R) (hR : R msg s t) (hmsg : msg.length < 2 ^ 28) :
    ∃ payload s' t', cecCompress btE s msg = .ok (payload, s') ∧
      payload.length ≤ 2 * msg.length + 1 ∧ R [] s' t' ∧
      ∀ extra, cecDecompress btD t (payload ++ extra) msg.length = .ok (msg, t') := by
  obtain ⟨e, s', hplain, hdue⟩ := P.encLoop hR cecEncNew_between (by omega)
  have hrel : (msg, s).1 = (msg, t).1 ∧ R (msg, s).1 (msg, s).2 (msg, t).2 := ⟨rfl, hR⟩
  obtain ⟨hlen, ⟨rest, t'⟩, ⟨hrest, hR'⟩, hdec⟩ := P.lockstep.roundTrip hrel hmsg hdue
  refine ⟨cecEncFinish e, s', t', bind_eq_ok.2 ⟨_, hplain, rfl⟩, hlen, hR', fun extra => ?_⟩
  obtain ⟨d, hloop⟩ := hdec extra
  have halong : Alike (fun x y => x.1 = y.1 ∧ x.2.2.2 = y.2.2)
      (cecDecLoop btD.due (fun _ b => b) msg.length (cecDecNew (cecEncFinish e ++ extra)) (msg, t))
      (cecDecLoop btD (fun _ b => b) msg.length (cecDecNew (cecEncFinish e ++ extra)) t) :=
    btD.due_alongside.decLoop (fun _ b => b) (fun _ _ _ => rfl) msg.length _ rfl
  obtain ⟨⟨out, d', t1⟩, hloop', hout, ht⟩ := halong.ok_left hloop
  obtain rfl : msg = out := hout
  obtain rfl : t' = t1 := ht
  exact bind_eq_ok.2 ⟨_, hloop', rfl⟩

end Paced

/-- Two models that go through a text together, `L` being told what they have learnt of it. -/
structure Learns (btE : CecBT σ) (btD : CecBT τ) (L : List UInt8 → σ → τ → Prop)
    (text : List UInt8) : Prop where
  step : ∀ {past : List UInt8} {b : UInt8} {s : σ} {t : τ}, past ++ [b] <+: text → L past s t →
    ∃ cum s1 s2 t1 t2, cum.Codable ∧ btE.distribution rcScale s = .ok (cum, s1) ∧
      btE.train b s1 = .ok s2 ∧ btD.distribution rcScale t = .ok (cum, t1) ∧
      btD.train b t1 = .ok t2 ∧ L (past ++ [b]) s2 t2

namespace Learns

variable {L : List UInt8 → σ → τ → Prop} {text corpus : List UInt8}

theorem paced (h : Learns btE btD L text) :
    Paced btE btD fun msg s t => ∃ past, past ++ msg = text ∧ L past s t where
  step := by
    rintro b msg s t ⟨past, rfl, hL⟩
    have hsplit : past ++ b :: msg = past ++ [b] ++ msg := List.append_cons _ _ _
    obtain ⟨cum, s1, s2, t1, t2, hcod, hdist, htrain, hdist', htrain', hL'⟩ :=
      h.step ⟨msg, hsplit.symm⟩ hL
    exact ⟨cum, s1, s2, t1, t2, hcod, hdist, htrain, hdist', htrain', past ++ [b], hsplit.symm, hL'⟩

theorem roundTrip (h : Learns btE btD L (corpus ++ msg)) (hL : L corpus s t)
    (hmsg : msg.length < 2 ^ 28) :
    ∃ payload s' t', cecCompress btE s msg = .ok (payload, s') ∧
      payload.length ≤ 2 * msg.length + 1 ∧ L (corpus ++ msg) s' t' ∧
      ∀ extra, cecDecompress btD t (payload ++ extra) msg.length = .ok (msg, t') := by
  obtain ⟨payload, s', t', hcomp, hlen, ⟨past, hpast, hL'⟩, hdec⟩ :=
    h.paced.roundTrip ⟨corpus, rfl, hL⟩ hmsg
  rw [List.append_nil] at hpast
  exact ⟨payload, s', t', hcomp, hlen, hpast ▸ hL', hdec⟩

end Learns

end Bcb.RangeCoder
