import Bcb.RangeCoder.Defs

namespace Bcb.RangeCoder

variable {σ τ : Type}

/-- Related states give the same table, and stay related. -/
structure Alongside (bt : CecBT σ) (bt' : CecBT τ) (R : σ → τ → Prop) : Prop where
  distribution : ∀ {s : σ} {t : τ}, R s t → Alike (fun x y => x.1 = y.1 ∧ R x.2 y.2)
    (bt.distribution rcScale s) (bt'.distribution rcScale t)
  train : ∀ {s : σ} {t : τ} (b : UInt8), R s t → Alike R (bt.train b s) (bt'.train b t)

namespace Alongside

variable {bt : CecBT σ} {bt' : CecBT τ} {R : σ → τ → Prop} {s : σ} {t : τ}

theorem encByte (h : Alongside bt bt' R) (e : CecEncoder) (hst : R s t) (b : UInt8) :
    Alike (fun x y => x.1 = y.1 ∧ R x.2 y.2) (cecEncByte bt e s b) (cecEncByte bt' e t b) := by
  apply (h.distribution hst).bind
  rintro ⟨cum, s1⟩ ⟨cum', t1⟩ ⟨rfl, h1⟩
  apply (Alike.of_eq rfl).bind
  rintro e1 e1' rfl
  apply (h.train b h1).bind
  intro s2 t2 h2
  exact .ok ⟨rfl, h2⟩

theorem encLoop (h : Alongside bt bt' R) {pre : σ → UInt8 → Outcome UInt8}
    (pre' : τ → UInt8 → Outcome UInt8) (hpre : ∀ {s t} (b : UInt8), R s t → pre s b = pre' t b)
    (data : List UInt8) (e : CecEncoder) (hst : R s t) :
    Alike (fun x y => x.1 = y.1 ∧ R x.2 y.2) (cecEncLoop bt pre data e s)
      (cecEncLoop bt' pre' data e t) := by
  induction data generalizing e s t with
  | nil => exact .ok ⟨rfl, hst⟩
  | cons b data ih =>
    apply (Alike.of_eq (hpre b hst)).bind
    rintro sym _ rfl
    apply (h.encByte e hst sym).bind
    rintro ⟨e1, s1⟩ ⟨e1', t1⟩ ⟨rfl, h1⟩
    exact ih e1 h1

theorem compress (h : Alongside bt bt' R) (data : List UInt8) (hst : R s t) :
    Alike (fun x y => x.1 = y.1 ∧ R x.2 y.2) (cecCompress bt s data) (cecCompress bt' t data) := by
  apply (h.encLoop (fun _ b => pure b) (fun _ _ => rfl) data cecEncNew hst).bind
  rintro ⟨e, s1⟩ ⟨e', t1⟩ ⟨rfl, h1⟩
  exact .ok ⟨rfl, h1⟩

theorem decByte (h : Alongside bt bt' R) (d : CecDecoder) (hst : R s t) :
    Alike (fun x y => x.1 = y.1 ∧ x.2.1 = y.2.1 ∧ R x.2.2 y.2.2 ∧ ∃ s1 t1, R s1 t1 ∧
      bt.train x.1 s1 = .ok x.2.2 ∧ bt'.train y.1 t1 = .ok y.2.2)
      (cecDecByte bt d s) (cecDecByte bt' d t) := by
  apply (h.distribution hst).bind
  rintro ⟨cum, s1⟩ ⟨cum', t1⟩ ⟨rfl, h1⟩
  apply (Alike.of_eq rfl).bind
  rintro ⟨b, d1⟩ _ rfl
  apply (h.train b h1).with_eq.bind
  rintro s2 t2 ⟨h2, hs2, ht2⟩
  exact .ok ⟨rfl, rfl, h2, s1, t1, h1, hs2, ht2⟩

theorem decLoop (h : Alongside bt bt' R) {post : σ → UInt8 → UInt8} (post' : τ → UInt8 → UInt8)
    (hpost : ∀ {s s' t t' b}, R s t → bt.train b s = .ok s' → bt'.train b t = .ok t' →
      post s' b = post' t' b) (n : Nat) (d : CecDecoder) (hst : R s t) :
    Alike (fun x y => x.1 = y.1 ∧ R x.2.2 y.2.2) (cecDecLoop bt post n d s)
      (cecDecLoop bt' post' n d t) := by
  induction n generalizing d s t with
  | zero => exact .ok ⟨rfl, hst⟩
  | succ n ih =>
    apply (h.decByte d hst).bind
    rintro ⟨b, d1, s1⟩ ⟨b', d1', t1⟩ ⟨hb, hd, h1, s0, t0, h0, hs, ht⟩
    obtain rfl : b = b' := hb
    obtain rfl : d1 = d1' := hd
    apply (ih d1 h1).bind
    rintro ⟨out, d2, s2⟩ ⟨out', d2', t2⟩ ⟨hout, h2⟩
    obtain rfl : out = out' := hout
    exact .ok ⟨congrArg (· :: out) (hpost h0 hs ht), h2⟩

theorem decompress (h : Alongside bt bt' R) (data : List UInt8) (origLen : Nat) (hst : R s t) :
    Alike (fun x y => x.1 = y.1 ∧ R x.2 y.2) (cecDecompress bt s data origLen)
      (cecDecompress bt' t data origLen) := by
  apply (h.decLoop (fun _ b => b) (fun _ _ _ => rfl) origLen (cecDecNew data) hst).bind
  rintro ⟨out, d, s1⟩ ⟨out', d', t1⟩ ⟨rfl, h1⟩
  exact .ok ⟨rfl, h1⟩

end Alongside

end Bcb.RangeCoder
