import Bcb.Bt.Grams
import Bcb.Prior.Close

/-! What the calls of `btv3.c` are for: a session is the sequence of pairs it has been trained on,
a window, and whether training is off. -/

namespace Bcb.Prior.Shared

open Lib RangeCoder Bt

/-- A call, with what it puts out. -/
def State.call (B : Build) (s : State) : Action → Outcome (Option Output × State)
  | .use u => (fun x => (some x.1, x.2)) <$> s.use B u
  | a => (fun s => (none, s)) <$> s.act B a

/-- What a sequence of calls puts out, and where it ends. -/
def calls (B : Build) : List Action → State → Outcome (List (Option Output) × State)
  | [], s => pure ([], s)
  | a :: as, s => do
    let (o, s) ← s.call B a
    let (os, s) ← calls B as s
    return (o :: os, s)

structure Session where
  log : List (List UInt8 × UInt8)
  window : Window
  frozen : Bool

namespace Session

def new : Session := ⟨[], .empty, false⟩

/-- The last bytes, each number of them, have been met before `b`. -/
def train (S : Session) (b : UInt8) : Session where
  log := if S.frozen then S.log else S.log ++ Ngram.ends S.window.bytes b
  window := S.window.push b
  frozen := S.frozen

def step (S : Session) : Action → Session
  | .init _ _ => new
  | .freeze on => { S with frozen := on }
  | .resetWindow => { S with window := .empty }
  | .setWindow w => { S with window := w }
  | .use (.train _ b) => S.train b
  | _ => S

def reply (B : Build) (S : Session) : Action → Option Output
  | .use (.distribution _) => some (.cum (logTable B S.log S.window))
  | .use (.train _ _) => some .trained
  | _ => none

/-- The calls of a session that has its tables for itself: no growth is missing, no count leaves its
32 bits, and tables are asked for at the scale of the coder. -/
def Allowed (B : Build) (S : Session) : Action → Prop
  | .init _ _ => RoomFor B []
  | .use (.train al b) => al = (fun _ => .succeeds) ∧ RoomFor B (S.train b).log ∧
      (S.train b).log.length < 2 ^ 31
  | .use (.distribution scale) => scale = rcScale
  | .freeze _ | .resetWindow | .setWindow _ => True
  | _ => False

def steps (S : Session) (as : List Action) : Session := as.foldl step S

def replies (B : Build) : Session → List Action → List (Option Output)
  | _, [] => []
  | S, a :: as => S.reply B a :: replies B (S.step a) as

def AllAllowed (B : Build) : Session → List Action → Prop
  | _, [] => True
  | S, a :: as => S.Allowed B a ∧ AllAllowed B (S.step a) as

end Session

/-- The tables count the log of the session, and the rest is the same. -/
structure Held (B : Build) (S : Session) (s : State) : Prop where
  owned : ∃ bt ctx bloom, s.model = .owned bt ctx bloom ∧
    Bt.Counted B S.log ⟨bt, ctx, bloom, s.window, s.frozen⟩
  short : S.log.length < 2 ^ 31
  window : s.window = S.window
  frozen : s.frozen = S.frozen
  luts : s.luts = true

variable {B : Build} {S : Session} {s : State}

section Step

open Session

theorem init_held (hroom : RoomFor B []) (pool : Nat → BtEntry) (ctxPool : Nat → CtxEntry)
    (s : State) : ∃ s', s.call B (.init pool ctxPool) = .ok (none, s') ∧ Held B .new s' := by
  refine ⟨_, rfl, ⟨⟨_, _, _, rfl, ?_⟩, by decide, rfl, rfl, rfl⟩⟩
  exact init_counted hroom.sizing pool ctxPool

theorem Held.distribution (h : Held B S s) :
    s.use B (.distribution rcScale) = .ok (.cum (logTable B S.log S.window), s) := by
  obtain ⟨bt, ctx, bloom, hmodel, hcounted⟩ := h.owned
  obtain ⟨model, window, frozen, luts, priors⟩ := s
  obtain rfl : window = S.window := h.window
  obtain rfl : luts = true := h.luts
  dsimp only at hmodel
  subst hmodel
  rw [State.use]
  change (btV3DistributionR B true (Globals.reader B ⟨bt, ctx, bloom, S.window, frozen⟩ S.window)
    rcScale >>= _) = _
  rw [(hcounted.table h.short S.window).1]
  rfl

theorem Held.train (h : Held B S s) {b : UInt8} (hroom : RoomFor B (S.train b).log)
    (hshort : (S.train b).log.length < 2 ^ 31) :
    ∃ s', s.use B (.train (fun _ => .succeeds) b) = .ok (.trained, s') ∧
      Held B (S.train b) s' := by
  obtain ⟨bt, ctx, bloom, hmodel, hcounted⟩ := h.owned
  obtain ⟨model, window, frozen, luts, priors⟩ := s
  obtain rfl : window = S.window := h.window
  obtain rfl : frozen = S.frozen := h.frozen
  dsimp only at hmodel hcounted
  subst hmodel
  rw [State.use, State.train]
  dsimp only
  cases hfrozen : S.frozen with
  | true =>
    rw [hfrozen] at hcounted
    refine ⟨_, rfl, ⟨⟨bt, ctx, bloom, rfl, ?_⟩, hshort, rfl, hfrozen.symm, h.luts⟩⟩
    rw [Session.train, hfrozen]
    exact hcounted.congr rfl rfl rfl
  | false =>
    rw [Session.train, hfrozen] at hroom hshort
    rw [hfrozen] at hcounted
    obtain ⟨g', hrun, hg', hw, hf⟩ := hcounted.train (b := b) rfl hroom hshort
    rw [hrun]
    refine ⟨_, rfl, ⟨⟨g'.bt, g'.ctx, g'.bloom, rfl, ?_⟩, ?_, hw, hfrozen.symm, h.luts⟩⟩
    · rw [Session.train, hfrozen]
      exact hg'.congr rfl rfl rfl
    · rw [Session.train, hfrozen]
      exact hshort

theorem Held.windowed (h : Held B S s) (w : Window) :
    Held B { S with window := w } { s with window := w } := by
  obtain ⟨bt, ctx, bloom, hmodel, hcounted⟩ := h.owned
  exact ⟨⟨bt, ctx, bloom, hmodel, hcounted.congr rfl rfl rfl⟩, h.short, rfl, h.frozen, h.luts⟩

theorem Held.call (h : Held B S s) {a : Action} (ha : S.Allowed B a) :
    ∃ s', s.call B a = .ok (S.reply B a, s') ∧ Held B (S.step a) s' := by
  cases a with
  | init pool ctxPool => exact init_held ha pool ctxPool s
  | free => exact ha.elim
  | freeze on =>
    obtain ⟨bt, ctx, bloom, hmodel, hcounted⟩ := h.owned
    exact ⟨_, rfl, ⟨⟨bt, ctx, bloom, hmodel, hcounted.congr rfl rfl rfl⟩, h.short, h.window, rfl,
      h.luts⟩⟩
  | resetWindow => exact ⟨_, rfl, h.windowed .empty⟩
  | setWindow w => exact ⟨_, rfl, h.windowed w⟩
  | use u =>
    cases u with
    | distribution scale =>
      obtain rfl : scale = rcScale := ha
      exact ⟨s, by rw [State.call, h.distribution]; rfl, h⟩
    | train al b =>
      obtain ⟨rfl, hroom, hshort⟩ := ha
      obtain ⟨s', hrun, hs'⟩ := h.train hroom hshort
      exact ⟨s', by rw [State.call, hrun]; rfl, hs'⟩
    | save m r => exact ha.elim
  | openPrior q im => exact ha.elim
  | attach q => exact ha.elim
  | detach => exact ha.elim
  | close p => exact ha.elim

theorem Held.calls {as : List Action} (h : Held B S s) (hall : AllAllowed B S as) :
    ∃ s', calls B as s = .ok (replies B S as, s') ∧ Held B (S.steps as) s' := by
  induction as generalizing S s with
  | nil => exact ⟨s, rfl, h⟩
  | cons a as ih =>
    obtain ⟨ha, has⟩ := hall
    obtain ⟨s1, hcall, h1⟩ := h.call ha
    obtain ⟨s2, hrun, h2⟩ := ih h1 has
    refine ⟨s2, ?_, h2⟩
    rw [Shared.calls, hcall, ok_bind]
    dsimp only
    rw [hrun]
    rfl

end Step

/-- Whatever the process has done before `bt_v3_init`, and however training, freezing, windows and
distributions are interleaved after it, the calls return, and every table is the formula over the
pairs that the session has logged by then. -/
theorem calls_session {l : List Action} (hroom : RoomFor B [])
    (hall : Session.AllAllowed B .new l) (pool : Nat → BtEntry) (ctxPool : Nat → CtxEntry)
    (s : State) : ∃ s', calls B (.init pool ctxPool :: l) s =
        .ok (none :: Session.replies B .new l, s') ∧
      s'.window = (Session.new.steps l).window ∧ s'.frozen = (Session.new.steps l).frozen := by
  obtain ⟨s1, hinit, h1⟩ := init_held hroom pool ctxPool s
  obtain ⟨s2, hrun, h2⟩ := h1.calls hall
  refine ⟨s2, ?_, h2.window, h2.frozen⟩
  rw [calls, hinit, ok_bind]
  dsimp only
  rw [hrun]
  rfl

/-- Training goes on after a window that no training has led to. -/
theorem calls_session_window : ∃ s', calls .plain [.init (fun _ => blankBt) fun _ => blankCtx,
      .use (.train (fun _ => .succeeds) 97), .setWindow ⟨[98], by decide⟩,
      .use (.train (fun _ => .succeeds) 99), .freeze true, .use (.train (fun _ => .succeeds) 97),
      .use (.distribution rcScale)] .initial =
    .ok (none :: Session.replies .plain .new [.use (.train (fun _ => .succeeds) 97),
      .setWindow ⟨[98], by decide⟩, .use (.train (fun _ => .succeeds) 99), .freeze true,
      .use (.train (fun _ => .succeeds) 97), .use (.distribution rcScale)], s') ∧
    s'.window = (Session.new.steps [.use (.train (fun _ => .succeeds) 97),
      .setWindow ⟨[98], by decide⟩, .use (.train (fun _ => .succeeds) 99), .freeze true,
      .use (.train (fun _ => .succeeds) 97), .use (.distribution rcScale)]).window ∧
    s'.frozen = (Session.new.steps [.use (.train (fun _ => .succeeds) 97),
      .setWindow ⟨[98], by decide⟩, .use (.train (fun _ => .succeeds) 99), .freeze true,
      .use (.train (fun _ => .succeeds) 97), .use (.distribution rcScale)]).frozen :=
  calls_session (B := .plain) (l := [.use (.train (fun _ => .succeeds) 97),
      .setWindow ⟨[98], by decide⟩, .use (.train (fun _ => .succeeds) 99), .freeze true,
      .use (.train (fun _ => .succeeds) 97), .use (.distribution rcScale)]) (.inl rfl)
    ⟨⟨rfl, .inl rfl, by decide⟩, trivial, ⟨rfl, .inl rfl, by decide⟩, trivial,
      ⟨rfl, .inl rfl, by decide⟩, rfl, trivial⟩ _ _ _

end Bcb.Prior.Shared
