import Bcb.Api.Calls
import Bcb.Prior.CountImage

namespace Bcb.Api

open RangeCoder Prior Codec Lib

/-- The calls that make a handle `h` of a prior `p`, and those on it. -/
def Call.concerns (p h : Nat) (c : Call) : Bool :=
  c.loads = some p || c.creates = some (h, p) || c.uses = some h

/-- A call codes bytes over a prior without a schema. -/
def RunsBt (s : Process) (c : Call) : Prop :=
  ∃ h p hd q, c.uses = some h ∧ s.handles h = .live (p, hd) ∧ s.priors p = .live q ∧
    structural q = false ∧ c.codes q = true

def Ordered (tr : List (Call × Reply)) (s : Process) (c : Call) : Prop :=
  RunsBt s c → tablesUp tr = true

namespace Process

variable {B : Build} {s s' t : Process} {c : Call} {r : Reply}

/-- The prior is not closed, and the handle belongs to it from the start. -/
structure Following (p h : Nat) (s : Process) : Prop where
  prior : s.priors p ≠ .dead
  handle : s.handles h = .unused ∨ ∃ hd, s.handles h = .live (p, hd)

/-- What a handle sees of a process. -/
structure View (p h : Nat) (s s' : Process) : Prop where
  prior : s'.priors p = s.priors p
  handle : s'.handles h = s.handles h
  luts : s.priors p ≠ .unused → s'.luts = true

variable {p h : Nat}

theorem Following.back (hs : s.step B c = .ok (r, t)) (ht : Following p h t) :
    Following p h s := by
  obtain ⟨hp, hh⟩ := ht
  cases step_effect hs with
  | none => exact ⟨hp, hh⟩
  | @load p' q hc hunused =>
    refine ⟨?_, hh⟩
    by_cases heq : p = p'
    · rw [heq, hunused]
      exact nofun
    · exact Function.update_of_ne heq _ s.priors ▸ hp
  | @close p' hc =>
    refine ⟨?_, hh⟩
    by_cases heq : p = p'
    · subst heq
      exact absurd (Function.update_self p _ s.priors) hp
    · exact Function.update_of_ne heq _ s.priors ▸ hp
  | @create h' p' hd hc hunused =>
    refine ⟨hp, ?_⟩
    by_cases heq : h = h'
    · exact .inl (heq ▸ hunused)
    · exact Function.update_of_ne heq _ s.handles ▸ hh
  | @use h' p' hd hd' hc hlive =>
    refine ⟨hp, ?_⟩
    by_cases heq : h = h'
    · subst heq
      simp only [Function.update_self] at hh
      obtain hh | ⟨x, hh⟩ := hh
      · cases hh
      · cases hh
        exact .inr ⟨hd, hlive⟩
    · exact Function.update_of_ne heq _ s.handles ▸ hh
  | oneShot => exact ⟨hp, hh⟩
  | @free h' x hlive =>
    refine ⟨hp, ?_⟩
    by_cases heq : h = h'
    · subst heq
      simp only [Function.update_self] at hh
      obtain hh | ⟨x, hh⟩ := hh <;> cases hh
    · exact Function.update_of_ne heq _ s.handles ▸ hh

/-- The calls that do not concern a handle leave its view alone. -/
theorem View.frame (hs : s.step B c = .ok (r, t)) (ht : Following p h t)
    (hc : c.concerns p h = false) (hv : View p h s s') : View p h t s' := by
  simp only [Call.concerns, Bool.or_eq_false_iff, decide_eq_false_iff_not] at hc
  obtain ⟨⟨hload, hcreate⟩, huse⟩ := hc
  obtain ⟨hp, hh⟩ := ht
  obtain ⟨hprior, hhandle⟩ : t.priors p = s.priors p ∧ t.handles h = s.handles h := by
    cases step_effect hs with
    | none => exact ⟨rfl, rfl⟩
    | @load p' q hc hunused =>
      refine ⟨Function.update_of_ne ?_ _ s.priors, rfl⟩
      rintro rfl
      exact hload hc
    | @close p' hc =>
      refine ⟨Function.update_of_ne ?_ _ s.priors, rfl⟩
      rintro rfl
      exact hp (Function.update_self p _ s.priors)
    | @create h' p' hd hc hunused =>
      refine ⟨rfl, Function.update_of_ne ?_ _ s.handles⟩
      rintro rfl
      simp only [Function.update_self] at hh
      obtain hh | ⟨x, hh⟩ := hh
      · cases hh
      · cases hh
        exact hcreate hc
    | @use h' p' hd hd' hc hlive =>
      refine ⟨rfl, Function.update_of_ne ?_ _ s.handles⟩
      rintro rfl
      exact huse hc
    | oneShot => exact ⟨rfl, rfl⟩
    | @free h' x hlive =>
      refine ⟨rfl, Function.update_of_ne ?_ _ s.handles⟩
      rintro rfl
      simp only [Function.update_self] at hh
      obtain hh | ⟨x, hh⟩ := hh <;> cases hh
  exact ⟨hv.prior.trans hprior.symm, hv.handle.trans hhandle.symm,
    fun hne => hv.luts (hprior ▸ hne)⟩

theorem bcbCodecCecBt_structural {q : BcbPrior} (h : structural q = true) (luts : Bool) :
    bcbCodecCecBt B luts q = bcbCodecCecBt B true q := by
  have hdist : codecDist B luts q = codecDist B true q := by
    funext scale c
    simp only [codecDist, h, if_true]
  simp only [bcbCodecCecBt, hdist]

theorem bcbEncode_luts {q : BcbPrior} {al : Alloc} {input : List UInt8} {luts : Bool}
    (h : structural q = false → (al.coder && !input.isEmpty) = true → luts = true)
    (e : BcbEncoder) (cap : Nat) (out : Buffer) :
    bcbEncode B luts q al e input cap out = bcbEncode B true q al e input cap out := by
  have hpayload : encodePayload B luts q al input e.c = encodePayload B true q al input e.c := by
    cases hs : structural q with
    | true => simp only [encodePayload, bcbCodecCecBt_structural hs luts]
    | false =>
      cases hcodes : al.coder && !input.isEmpty with
      | true => rw [h hs hcodes]
      | false =>
        rcases Bool.and_eq_false_iff.1 hcodes with hcoder | hempty
        · simp only [encodePayload, hcoder, Bool.not_false, if_true]
        · obtain rfl : input = [] := by simpa using hempty
          simp only [encodePayload, cecEncLoop]
  simp only [bcbEncode, compressCore, hpayload]

theorem decodePayload_luts {q : BcbPrior} {al : Alloc} {luts : Bool}
    (h : structural q = false → (al.output && al.coder) = true → luts = true) (f : Frame)
    (c : BcbCodec) : decodePayload B luts q al f c = decodePayload B true q al f c := by
  cases hs : structural q with
  | true => simp only [decodePayload, bcbCodecCecBt_structural hs luts]
  | false =>
    cases hal : al.output && al.coder with
    | true => rw [h hs hal]
    | false => simp only [decodePayload, hal, Bool.not_false, if_true]

theorem bcbDecode_luts {q : BcbPrior} {al : Alloc} {input : List UInt8} {luts : Bool} {cap : Nat}
    {o : Option Nat} {out : Buffer}
    (h : structural q = false → (Call.decode o al input cap out).codes q = true → luts = true)
    (d : BcbDecoder) :
    bcbDecode B luts q al d input cap out = bcbDecode B true q al d input cap out := by
  have hcore : decompressCore B luts q al input cap out d.c =
      decompressCore B true q al input cap out d.c := by
    unfold decompressCore
    cases hf : parseFrame q.id input with
    | error x => rfl
    | ok f =>
      dsimp only
      by_cases hcap : cap < f.orig
      · rw [if_pos hcap, if_pos hcap]
      · by_cases horig : f.orig = 0
        · rw [if_pos horig, if_pos horig]
        · rw [decodePayload_luts]
          intro hs hal
          rw [Bool.and_eq_true] at hal
          apply h hs
          simp [Call.codes, hf, hal.1, hal.2, horig, Nat.le_of_not_lt hcap]
  rw [bcbDecode, bcbDecode, hcore]

theorem step_uses (hc : c.uses = some h) :
    ∃ (null : Reply) (f : Process → Nat → Handle → Outcome (Reply × Handle)),
    (∀ s, step B s c = s.onHandle (some h) null (f s)) ∧
    ∀ p s s' hd, View p h s s' → s.handles h = .live (p, hd) → (RunsBt s c → s.luts = true) →
      f s' p hd = f s p hd := by
  cases c with
  | encoderSetChecksum o on =>
    cases hc
    exact ⟨.done, fun _ _ => setEncoder _, fun s => rfl, fun p s s' hd _ _ _ => rfl⟩
  | encoderSetPriorId o on =>
    cases hc
    exact ⟨.done, fun _ _ => setEncoder _, fun s => rfl, fun p s s' hd _ _ _ => rfl⟩
  | encode o al input cap out =>
    cases hc
    refine ⟨.ret (.error .invalidPrior) out, fun s => s.encodeWith B al input cap out,
      fun s => rfl, ?_⟩
    intro p s s' hd hv hh hbt
    simp only [encodeWith, hv.prior]
    cases hd.asEncoder with
    | error x => simp only [error_bind]
    | ok e =>
      cases hq : s.priors p with
      | unused => simp only [Slot.get, ok_bind, throw_bind]
      | dead => simp only [Slot.get, ok_bind, throw_bind]
      | live q =>
        have hluts : s'.luts = true := hv.luts (by simp [hq])
        have hsame : bcbEncode B s.luts q al e input cap out =
            bcbEncode B true q al e input cap out :=
          bcbEncode_luts (fun hs hcodes => hbt ⟨h, p, hd, q, rfl, hh, hq, hs, hcodes⟩) e cap out
        simp only [Slot.get, ok_bind, pure_bind, hluts, hsame]
  | decode o al input cap out =>
    cases hc
    refine ⟨.ret (.error .invalidPrior) out, fun s => s.decodeWith B al input cap out,
      fun s => rfl, ?_⟩
    intro p s s' hd hv hh hbt
    simp only [decodeWith, hv.prior]
    cases hd.asDecoder with
    | error x => simp only [error_bind]
    | ok d =>
      cases hq : s.priors p with
      | unused => simp only [Slot.get, ok_bind, throw_bind]
      | dead => simp only [Slot.get, ok_bind, throw_bind]
      | live q =>
        have hluts : s'.luts = true := hv.luts (by simp [hq])
        have hsame : bcbDecode B s.luts q al d input cap out =
            bcbDecode B true q al d input cap out :=
          bcbDecode_luts (o := some h)
            (fun hs hcodes => hbt ⟨h, p, hd, q, rfl, hh, hq, hs, hcodes⟩) d
        simp only [Slot.get, ok_bind, pure_bind, hluts, hsame]
  | _ => cases hc

/-- A call on a handle sees no more of the process than the handle does. -/
theorem View.use (hv : View p h s s') {hd : Handle} (hh : s.handles h = .live (p, hd))
    (hc : c.uses = some h) (hbt : RunsBt s c → s.luts = true) :
    (s'.step B c).map Prod.fst = (s.step B c).map Prod.fst ∧
      ∀ r t, s.step B c = .ok (r, t) → ∃ t', s'.step B c = .ok (r, t') ∧ View p h t t' := by
  obtain ⟨null, f, hstep, hf⟩ := step_uses (B := B) hc
  have hs := hstep s
  have hs' := hstep s'
  rw [onHandle_live hh] at hs
  rw [onHandle_live (hv.handle.trans hh), hf p s s' hd hv hh hbt] at hs'
  rw [hs, hs']
  cases f s p hd with
  | error x => exact ⟨rfl, fun r t h => nomatch h⟩
  | ok x =>
    refine ⟨rfl, ?_⟩
    intro r t ht
    cases ht
    refine ⟨_, rfl, ⟨hv.prior, ?_, hv.luts⟩⟩
    simp only [Function.update_self]

theorem View.load (hv : View p h s s') {im : Option Image} {alloc : Bool}
    (hs : s.loadPrior B p im alloc = .ok (r, t)) :
    ∃ t', s'.loadPrior B p im alloc = .ok (r, t') ∧ View p h t t' := by
  obtain ⟨o, hload, hs⟩ := bind_eq_ok.1 hs
  rw [loadPrior, hload, ok_bind]
  cases o with
  | none =>
    cases hs
    exact ⟨s', rfl, hv⟩
  | some q =>
    obtain ⟨slot, hslot, hs⟩ := bind_eq_ok.1 hs
    have hslot' : (s'.priors p).create q = .ok slot := hv.prior ▸ hslot
    cases hs
    simp only [hslot', ok_bind]
    refine ⟨_, rfl, ⟨?_, hv.handle, fun _ => rfl⟩⟩
    simp only [Function.update_self]

theorem View.new (hv : View p h s s') {al : NewAlloc} {make : BcbPrior → Handle}
    (hs : s.newHandle h (some p) al make = .ok (r, t)) :
    ∃ t', s'.newHandle h (some p) al make = .ok (r, t') ∧ View p h t t' := by
  obtain ⟨q, hq, hs⟩ := bind_eq_ok.1 hs
  have hq' : (s'.priors p).get = .ok q := hv.prior ▸ hq
  simp only [newHandle, hq', ok_bind]
  split_ifs at hs ⊢ with hal
  · cases hs
    exact ⟨s', rfl, hv⟩
  · obtain ⟨slot, hslot, hs⟩ := bind_eq_ok.1 hs
    have hslot' : (s'.handles h).create (p, make q) = .ok slot := hv.handle ▸ hslot
    cases hs
    rw [hslot']
    refine ⟨_, rfl, ⟨hv.prior, ?_, fun _ => rfl⟩⟩
    simp only [Function.update_self]

theorem View.own (hv : View p h s s') (hfollow : Following p h s) (hc : c.concerns p h = true)
    (hbt : RunsBt s c → s.luts = true) (hs : s.step B c = .ok (r, t)) :
    ∃ t', s'.step B c = .ok (r, t') ∧ View p h t t' := by
  simp only [Call.concerns, Bool.or_eq_true, decide_eq_true_eq] at hc
  rcases hc with (hc | hc) | hc
  · cases c with
    | priorOpen p' file alloc =>
      cases hc
      exact hv.load hs
    | priorFromMemory p' data alloc =>
      cases hc
      exact hv.load hs
    | _ => cases hc
  · cases c with
    | encoderNew h' o al =>
      obtain ⟨p', rfl, hp'⟩ := Option.map_eq_some_iff.1 hc
      cases hp'
      exact hv.new hs
    | decoderNew h' o al =>
      obtain ⟨p', rfl, hp'⟩ := Option.map_eq_some_iff.1 hc
      cases hp'
      exact hv.new hs
    | _ => cases hc
  · obtain ⟨null, f, hstep, -⟩ := step_uses (B := B) hc
    have hon := (hstep s).symm.trans hs
    obtain ⟨hnone, -⟩ | ⟨h', p', hd, hd', heq, hh, -, -⟩ := onHandle_ok hon
    · cases hnone
    · cases heq
      obtain hunused | ⟨x, hlive⟩ := hfollow.handle
      · rw [hunused] at hh
        cases hh
      · exact (hv.use hlive hc hbt).2 r t hs

end Process

open Process

/-- Where every call so far has met the condition, a call on a handle finds the tables it
needs, and answers as if its prior and itself were all there is, just when it meets it too. -/
theorem handle_isolated_iff {B : Build} {tr : List (Call × Reply)} {s : Process} {c : Call}
    {h p : Nat} {hd : Handle} {q : BcbPrior} (hrun : Run (step B) Ordered initial tr s)
    (hc : c.uses = some h) (hh : s.handles h = .live (p, hd)) (hp : s.priors p = .live q) :
    ((RunsBt s c → s.luts = true) ∧
      ∃ s', Run (step B) (fun _ _ _ => True) initial (tr.filter fun x => x.1.concerns p h) s' ∧
        (step B s' c).map Prod.fst = (step B s c).map Prod.fst) ↔
      Ordered tr s c := by
  have hluts := luts_eq_tablesUp hrun
  constructor
  · intro ⟨hup, _⟩ hbt
    rw [← hluts]
    exact hup hbt
  · intro hordered
    have hup : RunsBt s c → s.luts = true := fun hbt => hluts.trans (hordered hbt)
    have hfollow : Following p h s := ⟨by rw [hp]; exact nofun, .inr ⟨hd, hh⟩⟩
    have hview : View p h initial initial := ⟨rfl, rfl, fun hne => absurd rfl hne⟩
    obtain ⟨s', hrun', hv⟩ := hrun.isolate hfollow hview
      (fun hs ht => ht.back hs)
      (fun hrun hallowed hfollow hv hown hs =>
        hv.own hfollow hown (fun hbt => (luts_eq_tablesUp hrun).trans (hallowed hbt)) hs)
      (fun ht hv hother hs => hv.frame hs ht hother)
    exact ⟨hup, s', hrun', (hv.use hh hc hup).1⟩

theorem Ordered.of_uses {tr : List (Call × Reply)} {s : Process} {c : Call}
    (h : c.uses = none) : Ordered tr s c := by
  rintro ⟨_, _, _, _, hc, _⟩
  rw [h] at hc
  cases hc

def openCount (p : Nat) : Call × Reply :=
  (.priorFromMemory p (some (countImage 1 1)) true, .ptr true)

def newEncoder : Call × Reply := (.encoderNew 0 (some 0) ⟨true, true, true⟩, .ptr true)

def closeOther : Call × Reply := (.priorClose (some 1), .done)

/-- The second byte meets the one context of `countPrior`. -/
def encodeAB : Call := .encode (some 0) ⟨true, true, true⟩ [0x41, 0x42] 64 fun _ => 0

theorem step_openCount {s : Process} {p : Nat} (hp : s.priors p = .unused) :
    step .plain s (openCount p).1 = .ok (.ptr true,
      { s.ensureLuts with priors := Function.update s.priors p (.live (countPrior 1 1)) }) := by
  simp only [openCount, step, loadPrior, loadImage, if_true, priorParse_countImage_one, ok_bind, hp,
    Slot.create]
  rfl

theorem handle_isolated_iff_reopened : ∃ s s',
    Run (step .plain) Ordered initial [openCount 1, closeOther, openCount 0, newEncoder] s ∧
    RunsBt s encodeAB ∧ s.luts = true ∧
    Run (step .plain) (fun _ _ _ => True) initial [openCount 0, newEncoder] s' ∧
    (step .plain s' encodeAB).map Prod.fst = (step .plain s encodeAB).map Prod.fst := by
  have hopen : Run (step .plain) Ordered initial [openCount 1] _ :=
    .step .start (.of_uses rfl) (step_openCount rfl)
  have hclose : Run (step .plain) Ordered initial [openCount 1, closeOther] _ :=
    .step hopen (.of_uses rfl) (c := closeOther.1) (r := closeOther.2) rfl
  have hagain : Run (step .plain) Ordered initial [openCount 1, closeOther, openCount 0] _ :=
    .step hclose (.of_uses rfl) (step_openCount rfl)
  have hnew : Run (step .plain) Ordered initial
      [openCount 1, closeOther, openCount 0, newEncoder] _ :=
    .step hagain (.of_uses rfl) (c := newEncoder.1) (r := newEncoder.2) rfl
  obtain ⟨hup, s', hrun', hsame⟩ := (handle_isolated_iff hnew (c := encodeAB) (h := 0) (p := 0)
    rfl rfl rfl).2 fun _ => rfl
  exact ⟨_, s', hnew, ⟨0, 0, _, countPrior 1 1, rfl, rfl, rfl, rfl, rfl⟩,
    hup ⟨0, 0, _, countPrior 1 1, rfl, rfl, rfl, rfl, rfl⟩, hrun', hsame⟩

/-- A handle whose tables another prior took along faults where it would have answered. -/
theorem encode_after_close : ∃ s s',
    Run (step .plain) Ordered initial [openCount 0, openCount 1, newEncoder, closeOther] s ∧
    RunsBt s encodeAB ∧ s.luts = false ∧ step .plain s encodeAB = .error .lutNull ∧
    Run (step .plain) (fun _ _ _ => True) initial
      ([openCount 0, openCount 1, newEncoder, closeOther].filter fun x => x.1.concerns 0 0) s' ∧
    ∃ x, step .plain s' encodeAB = .ok x := by
  have hopen : Run (step .plain) Ordered initial [openCount 0] _ :=
    .step .start (.of_uses rfl) (step_openCount rfl)
  have hother : Run (step .plain) Ordered initial [openCount 0, openCount 1] _ :=
    .step hopen (.of_uses rfl) (step_openCount rfl)
  have hnew : Run (step .plain) Ordered initial [openCount 0, openCount 1, newEncoder] _ :=
    .step hother (.of_uses rfl) (c := newEncoder.1) (r := newEncoder.2) rfl
  have hclose : Run (step .plain) Ordered initial
      [openCount 0, openCount 1, newEncoder, closeOther] _ :=
    .step hnew (.of_uses rfl) (c := closeOther.1) (r := closeOther.2) rfl
  have halone : Run (step .plain) (fun _ _ _ => True) initial [openCount 0] _ :=
    .step .start trivial (step_openCount rfl)
  have hown : Run (step .plain) (fun _ _ _ => True) initial [openCount 0, newEncoder] _ :=
    .step halone trivial (c := newEncoder.1) (r := newEncoder.2) rfl
  refine ⟨_, _, hclose, ⟨0, 0, _, countPrior 1 1, rfl, rfl, rfl, rfl, rfl⟩, rfl, ?_, hown, ?_⟩
  · exact map_eq_error (f := fun _ => ()) (by decide +kernel)
  · exact exists_ok_of_map (f := fun _ => ()) (b := ()) (by decide +kernel)

end Bcb.Api
