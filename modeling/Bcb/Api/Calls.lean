import Bcb.Api.Lifecycle

namespace Bcb.Api

open Prior Codec Lib

/-- Whether a call leaves the lookup tables built: an opened prior, a new handle, or the codec
of a one-shot call. -/
def rebuilds (x : Call × Reply) : Bool :=
  match x.2 with
  | .done => false
  | .ptr made => made
  | .ret _ _ => x.1.oneShotCodec

/-- No `bcb_prior_close` has come since a call that built the tables. -/
def tablesUp (tr : List (Call × Reply)) : Bool :=
  tr.foldl (fun up x => x.1.closes.isNone && (up || rebuilds x)) false

namespace Process

variable {B : Build} {s s' t : Process} {c : Call} {r : Reply}

/-- What a call can do to the objects of a process. -/
inductive Effect (s : Process) (c : Call) : Process → Prop
  | none : Effect s c s
  | load {p : Nat} {q : BcbPrior} : c.loads = some p → s.priors p = .unused →
      Effect s c { s.ensureLuts with priors := Function.update s.priors p (.live q) }
  | close {p : Nat} : c.closes = some p →
      Effect s c { s.detach with priors := Function.update s.priors p .dead }
  | create {h p : Nat} {hd : Handle} : c.creates = some (h, p) → s.handles h = .unused →
      Effect s c { s.ensureLuts with handles := Function.update s.handles h (.live (p, hd)) }
  | use {h p : Nat} {hd hd' : Handle} : c.uses = some h → s.handles h = .live (p, hd) →
      Effect s c { s with handles := Function.update s.handles h (.live (p, hd')) }
  | oneShot : Effect s c s.ensureLuts
  | free {h : Nat} {x : Nat × Handle} : s.handles h = .live x →
      Effect s c { s with handles := Function.update s.handles h .dead }

theorem loadPrior_ok {p : Nat} {im : Option Image} {alloc : Bool}
    (h : s.loadPrior B p im alloc = .ok (r, t)) : (r = .ptr false ∧ t = s) ∨
      ∃ q, loadImage B im alloc = .ok (some q) ∧ s.priors p = .unused ∧ r = .ptr true ∧
        t = { s.ensureLuts with priors := Function.update s.priors p (.live q) } := by
  obtain ⟨o, hload, h⟩ := bind_eq_ok.1 h
  cases o with
  | none =>
    cases h
    exact .inl ⟨rfl, rfl⟩
  | some q =>
    obtain ⟨slot, hslot, h⟩ := bind_eq_ok.1 h
    obtain ⟨hunused, rfl⟩ := Slot.create_eq_ok hslot
    cases h
    exact .inr ⟨q, hload, hunused, rfl, rfl⟩

theorem bcbPriorClose_ok {p : Nat} (h : s.bcbPriorClose p = .ok (r, t)) :
    r = .done ∧ t = { s.detach with priors := Function.update s.priors p .dead } := by
  obtain ⟨q, -, h⟩ := bind_eq_ok.1 h
  cases h
  exact ⟨rfl, rfl⟩

theorem newHandle_ok {h : Nat} {o : Option Nat} {al : NewAlloc} {make : BcbPrior → Handle}
    (hs : s.newHandle h o al make = .ok (r, t)) : (r = .ptr false ∧ t = s) ∨
      ∃ p q, o = some p ∧ s.priors p = .live q ∧ s.handles h = .unused ∧ r = .ptr true ∧
        (al.handle && al.codec) = true ∧
        t = { s.ensureLuts with
          handles := Function.update s.handles h (.live (p, make q)) } := by
  cases o with
  | none =>
    cases hs
    exact .inl ⟨rfl, rfl⟩
  | some p =>
    obtain ⟨q, hq, hs⟩ := bind_eq_ok.1 hs
    split_ifs at hs with hal
    · cases hs
      exact .inl ⟨rfl, rfl⟩
    · obtain ⟨slot, hslot, hs⟩ := bind_eq_ok.1 hs
      obtain ⟨hunused, rfl⟩ := Slot.create_eq_ok hslot
      cases hs
      exact .inr ⟨p, q, rfl, Slot.get_eq_ok hq, hunused, rfl, by simpa using hal, rfl⟩

theorem onHandle_live {h p : Nat} {hd : Handle} {null : Reply}
    {f : Nat → Handle → Outcome (Reply × Handle)} (hh : s.handles h = .live (p, hd)) :
    s.onHandle (some h) null f = (f p hd).map fun x =>
      (x.1, { s with handles := Function.update s.handles h (.live (p, x.2)) }) := by
  simp only [onHandle, hh, Slot.get]
  change (f p hd >>= fun x => Except.ok
    (x.1, { s with handles := Function.update s.handles h (.live (p, x.2)) })) = _
  cases f p hd with
  | error e => rfl
  | ok x => rfl

theorem onHandle_ok {o : Option Nat} {null : Reply}
    {f : Nat → Handle → Outcome (Reply × Handle)} (hs : s.onHandle o null f = .ok (r, t)) :
    (o = none ∧ r = null ∧ t = s) ∨
      ∃ h p hd hd', o = some h ∧ s.handles h = .live (p, hd) ∧ f p hd = .ok (r, hd') ∧
        t = { s with handles := Function.update s.handles h (.live (p, hd')) } := by
  cases o with
  | none =>
    cases hs
    exact .inl ⟨rfl, rfl, rfl⟩
  | some h =>
    obtain ⟨⟨p, hd⟩, hh, -⟩ := bind_eq_ok.1 hs
    have hh := Slot.get_eq_ok hh
    rw [onHandle_live hh] at hs
    obtain ⟨⟨r', hd'⟩, hf, hs⟩ := map_eq_ok.1 hs
    cases hs
    exact .inr ⟨h, p, hd, hd', rfl, hh, hf, rfl⟩

theorem oneShot_ok {o : Option Nat} {new : NewAlloc} {out : Buffer}
    {f : Bool → BcbPrior → Outcome (Ret × Buffer)} (hs : s.oneShot o new out f = .ok (r, t)) :
    ∃ ret out, r = .ret ret out ∧ t = if o.isSome && new.codec then s.ensureLuts else s := by
  cases o with
  | none =>
    cases hs
    exact ⟨_, _, rfl, rfl⟩
  | some p =>
    obtain ⟨q, -, hs⟩ := bind_eq_ok.1 hs
    cases hcodec : new.codec with
    | false =>
      simp only [hcodec, Bool.not_false, if_true] at hs
      cases hs
      exact ⟨_, _, rfl, rfl⟩
    | true =>
      simp only [hcodec, Bool.not_true, Bool.false_eq_true, if_false] at hs
      obtain ⟨⟨ret, out'⟩, -, hs⟩ := bind_eq_ok.1 hs
      cases hs
      exact ⟨ret, out', rfl, rfl⟩

theorem free_ok {o : Option Nat} {check : Handle → Outcome Unit}
    (hs : s.free o check = .ok (r, t)) : r = .done ∧ (t = s ∨
      ∃ h x, s.handles h = .live x ∧
        t = { s with handles := Function.update s.handles h .dead }) := by
  cases o with
  | none =>
    cases hs
    exact ⟨rfl, .inl rfl⟩
  | some h =>
    obtain ⟨⟨p, hd⟩, hh, hs⟩ := bind_eq_ok.1 hs
    obtain ⟨_, -, hs⟩ := bind_eq_ok.1 hs
    cases hs
    exact ⟨rfl, .inr ⟨h, _, Slot.get_eq_ok hh, rfl⟩⟩

theorem step_effect (hs : s.step B c = .ok (r, t)) : Effect s c t := by
  cases c with
  | priorOpen p file alloc =>
    obtain ⟨-, rfl⟩ | ⟨q, -, hp, -, rfl⟩ := loadPrior_ok hs
    · exact .none
    · exact .load rfl hp
  | priorFromMemory p data alloc =>
    obtain ⟨-, rfl⟩ | ⟨q, -, hp, -, rfl⟩ := loadPrior_ok hs
    · exact .none
    · exact .load rfl hp
  | priorClose o =>
    cases o with
    | none =>
      cases hs
      exact .none
    | some p =>
      obtain ⟨-, rfl⟩ := bcbPriorClose_ok hs
      exact .close rfl
  | encoderNew h o al =>
    obtain ⟨-, rfl⟩ | ⟨p, q, rfl, -, hh, -, -, rfl⟩ := newHandle_ok hs
    · exact .none
    · exact .create rfl hh
  | decoderNew h o al =>
    obtain ⟨-, rfl⟩ | ⟨p, q, rfl, -, hh, -, -, rfl⟩ := newHandle_ok hs
    · exact .none
    · exact .create rfl hh
  | encoderSetChecksum o on =>
    simp only [step] at hs
    obtain ⟨-, -, rfl⟩ | ⟨h, p, hd, hd', rfl, hh, -, rfl⟩ := onHandle_ok hs
    · exact .none
    · exact .use rfl hh
  | encoderSetPriorId o on =>
    simp only [step] at hs
    obtain ⟨-, -, rfl⟩ | ⟨h, p, hd, hd', rfl, hh, -, rfl⟩ := onHandle_ok hs
    · exact .none
    · exact .use rfl hh
  | encode o al input cap out =>
    simp only [step] at hs
    obtain ⟨-, -, rfl⟩ | ⟨h, p, hd, hd', rfl, hh, -, rfl⟩ := onHandle_ok hs
    · exact .none
    · exact .use rfl hh
  | decode o al input cap out =>
    simp only [step] at hs
    obtain ⟨-, -, rfl⟩ | ⟨h, p, hd, hd', rfl, hh, -, rfl⟩ := onHandle_ok hs
    · exact .none
    · exact .use rfl hh
  | compress o new al input cap out =>
    simp only [step] at hs
    obtain ⟨-, -, -, rfl⟩ := oneShot_ok hs
    split_ifs
    · exact .oneShot
    · exact .none
  | decompress o new al input cap out =>
    simp only [step] at hs
    obtain ⟨-, -, -, rfl⟩ := oneShot_ok hs
    split_ifs
    · exact .oneShot
    · exact .none
  | encoderFree o =>
    simp only [step] at hs
    obtain ⟨-, rfl | ⟨h, x, hh, rfl⟩⟩ := free_ok hs
    · exact .none
    · exact .free hh
  | decoderFree o =>
    simp only [step] at hs
    obtain ⟨-, rfl | ⟨h, x, hh, rfl⟩⟩ := free_ok hs
    · exact .none
    · exact .free hh

theorem setEncoder_ok {f : BcbEncoder → BcbEncoder} {hd hd' : Handle}
    (h : setEncoder f hd = .ok (r, hd')) : r = .done := by
  obtain ⟨e, -, h⟩ := bind_eq_ok.1 h
  cases h
  rfl

theorem encodeWith_ok {al : Alloc} {input : List UInt8} {cap p : Nat} {out : Buffer}
    {hd hd' : Handle} (h : s.encodeWith B al input cap out p hd = .ok (r, hd')) :
    ∃ ret out, r = .ret ret out := by
  obtain ⟨e, -, h⟩ := bind_eq_ok.1 h
  obtain ⟨q, -, h⟩ := bind_eq_ok.1 h
  obtain ⟨⟨ret, out', e'⟩, -, h⟩ := bind_eq_ok.1 h
  cases h
  exact ⟨ret, out', rfl⟩

theorem decodeWith_ok {al : Alloc} {input : List UInt8} {cap p : Nat} {out : Buffer}
    {hd hd' : Handle} (h : s.decodeWith B al input cap out p hd = .ok (r, hd')) :
    ∃ ret out, r = .ret ret out := by
  obtain ⟨d, -, h⟩ := bind_eq_ok.1 h
  obtain ⟨q, -, h⟩ := bind_eq_ok.1 h
  obtain ⟨⟨ret, out', d'⟩, -, h⟩ := bind_eq_ok.1 h
  cases h
  exact ⟨ret, out', rfl⟩

theorem step_luts (hs : s.step B c = .ok (r, t)) :
    t.luts = (c.closes.isNone && (s.luts || rebuilds (c, r))) := by
  cases c with
  | priorOpen p file alloc =>
    obtain ⟨rfl, rfl⟩ | ⟨q, -, -, rfl, rfl⟩ := loadPrior_ok hs <;>
      simp [Call.closes, rebuilds, ensureLuts]
  | priorFromMemory p data alloc =>
    obtain ⟨rfl, rfl⟩ | ⟨q, -, -, rfl, rfl⟩ := loadPrior_ok hs <;>
      simp [Call.closes, rebuilds, ensureLuts]
  | priorClose o =>
    cases o with
    | none =>
      cases hs
      simp [Call.closes, rebuilds]
    | some p =>
      obtain ⟨rfl, rfl⟩ := bcbPriorClose_ok hs
      simp [Call.closes, detach]
  | encoderNew h o al =>
    obtain ⟨rfl, rfl⟩ | ⟨p, q, rfl, -, -, rfl, -, rfl⟩ := newHandle_ok hs <;>
      simp [Call.closes, rebuilds, ensureLuts]
  | decoderNew h o al =>
    obtain ⟨rfl, rfl⟩ | ⟨p, q, rfl, -, -, rfl, -, rfl⟩ := newHandle_ok hs <;>
      simp [Call.closes, rebuilds, ensureLuts]
  | encoderSetChecksum o on =>
    simp only [step] at hs
    obtain ⟨-, rfl, rfl⟩ | ⟨h, p, hd, hd', rfl, -, hf, rfl⟩ := onHandle_ok hs
    · simp [Call.closes, rebuilds]
    · simp [Call.closes, rebuilds, setEncoder_ok hf]
  | encoderSetPriorId o on =>
    simp only [step] at hs
    obtain ⟨-, rfl, rfl⟩ | ⟨h, p, hd, hd', rfl, -, hf, rfl⟩ := onHandle_ok hs
    · simp [Call.closes, rebuilds]
    · simp [Call.closes, rebuilds, setEncoder_ok hf]
  | encode o al input cap out =>
    simp only [step] at hs
    obtain ⟨-, rfl, rfl⟩ | ⟨h, p, hd, hd', rfl, -, hf, rfl⟩ := onHandle_ok hs
    · simp [Call.closes, rebuilds, Call.oneShotCodec]
    · obtain ⟨ret, out', rfl⟩ := encodeWith_ok hf
      simp [Call.closes, rebuilds, Call.oneShotCodec]
  | decode o al input cap out =>
    simp only [step] at hs
    obtain ⟨-, rfl, rfl⟩ | ⟨h, p, hd, hd', rfl, -, hf, rfl⟩ := onHandle_ok hs
    · simp [Call.closes, rebuilds, Call.oneShotCodec]
    · obtain ⟨ret, out', rfl⟩ := decodeWith_ok hf
      simp [Call.closes, rebuilds, Call.oneShotCodec]
  | compress o new al input cap out =>
    simp only [step] at hs
    obtain ⟨ret, out', rfl, rfl⟩ := oneShot_ok hs
    split_ifs with hcodec <;> simp [Call.closes, rebuilds, Call.oneShotCodec, hcodec, ensureLuts]
  | decompress o new al input cap out =>
    simp only [step] at hs
    obtain ⟨ret, out', rfl, rfl⟩ := oneShot_ok hs
    split_ifs with hcodec <;> simp [Call.closes, rebuilds, Call.oneShotCodec, hcodec, ensureLuts]
  | encoderFree o =>
    simp only [step] at hs
    obtain ⟨rfl, rfl | ⟨h, x, -, rfl⟩⟩ := free_ok hs <;> simp [Call.closes, rebuilds]
  | decoderFree o =>
    simp only [step] at hs
    obtain ⟨rfl, rfl | ⟨h, x, -, rfl⟩⟩ := free_ok hs <;> simp [Call.closes, rebuilds]

theorem luts_eq_tablesUp {allowed : List (Call × Reply) → Process → Call → Prop}
    {tr : List (Call × Reply)} (hrun : Run (step B) allowed initial tr s) :
    s.luts = tablesUp tr := by
  apply hrun.invariant (I := fun tr s => s.luts = tablesUp tr) rfl
  intro tr s t c r ih hs
  rw [step_luts hs, ih, tablesUp, tablesUp, List.foldl_append]
  rfl

end Process

end Bcb.Api
