import Bcb.Prior.Tables

namespace Bcb.Prior

open Lib Layout Bt Foremost

/-! ## Files -/

/-- What the C library answers: whether `fopen` opens the file, how much of its bytes the `i`-th
`fwrite` writes, and whether `fclose` is 0. -/
structure Io where
  opened : Bool
  wrote : Nat → Nat → Nat
  closed : Bool

/-- A file that is open, the number of writes so far, and `ok`. -/
structure Writing where
  file : List UInt8
  writes : Nat
  ok : Bool

/-- Whether all of the bytes were written. -/
def fwrite (io : Io) (bytes : List UInt8) (s : Writing) : Bool × Writing :=
  let n := min (io.wrote s.writes bytes.length) bytes.length
  (n = bytes.length, { s with file := s.file ++ bytes.take n, writes := s.writes + 1 })

/-- `while ((uint64_t)cur < target)`, at most once for each byte that is missing. -/
def padZeros (io : Io) (target : Nat) : Nat → Writing → Writing
  | 0, s => s
  | n + 1, s =>
    if s.file.length < target then
      let zeros := List.replicate (min 8 (target - s.file.length)) 0
      let (ok, s) := fwrite io zeros s
      if ok then padZeros io target n s else { s with ok := false }
    else s

/-- `ok &= pad_to(f, target)`. -/
def padFile (io : Io) (target : Nat) (s : Writing) : Writing :=
  padZeros io target (target - s.file.length) s

/-- `ok &= pad_to(f, off); if (bytes) ok &= fwrite(..)`. -/
def writeSection (io : Io) (s : Writing) (x : Nat × List UInt8) : Writing :=
  let s := padFile io x.1 s
  if x.2 = [] then s
  else
    let (ok, s) := fwrite io x.2 s
    { s with ok := s.ok && ok }

/-- A file that was opened, as it is left, and whether the call returns 0. -/
structure Written where
  file : List UInt8
  ok : Bool

def writeImage (B : Build) (io : Io) (m : Memory) (r : Registered) (g : Globals) : Written :=
  let h := saveHeader r (btV3Export B g)
  let (ok, s) := fwrite io (headerBytes h) ⟨[], 0, true⟩
  let s := (imageSections B m r g h).foldl (writeSection io) { s with ok := ok }
  ⟨s.file, s.ok && io.closed⟩

/-! ## Tables that are registered -/

/-- Tables in an allocation of their own. -/
structure Buffer (α : Type) where
  id : Nat
  data : α

/-- `s_lm_n`, `s_lm_k`, `s_lm_ctx` and `s_lm_cum`, then `s_sc_rec`, `s_sc_pos`, `s_sc_modes` and
`s_sc_cum`; the number of allocations so far, and which of them are not freed. -/
structure Process where
  lm : Option (Buffer LmTables)
  sc : Option (Buffer ScTables)
  allocs : Nat
  live : Nat → Bool

/-- Nothing registered. -/
def Process.initial : Process := ⟨none, none, 0, fun _ => false⟩

/-- How a process ends before its calls do. -/
inductive Stop
  /-- a fault while the tables are built -/
  | building (f : Fault)
  /-- a read of a table that is freed -/
  | freed
  deriving DecidableEq

/-- `int lm_n = s_lm_k ? s_lm_n : 0`: without landmarks the tables are not read. -/
def LmTables.kept (t : LmTables) : Option LmTables := if t.lmK = 0 then none else some t

def Process.readLm (s : Process) : Except Stop (Option LmTables) :=
  match s.lm with
  | none => pure none
  | some b =>
    match b.data.kept with
    | none => pure none
    | some t => if s.live b.id then pure (some t) else throw .freed

def Process.readSc (s : Process) : Except Stop (Option ScTables) :=
  match s.sc with
  | none => pure none
  | some b => if s.live b.id then pure (some b.data) else throw .freed

/-- `malloc`, into which the tables are built. -/
def Process.alloc (s : Process) : Nat × Process :=
  (s.allocs, { s with allocs := s.allocs + 1, live := Function.update s.live s.allocs true })

def Process.free (s : Process) (id : Nat) : Process :=
  { s with live := Function.update s.live id false }

def bcbPriorSetLandmarks (b : Buffer LmTables) (s : Process) : Process := { s with lm := some b }

def bcbPriorSetSchema (b : Buffer ScTables) (s : Process) : Process := { s with sc := some b }

/-! ## Calls -/

inductive Entry
  | save
  | withLandmarks (n : Int) (k : UInt32)
  | withSchema (corpus : List UInt8) (rec : Int)

/-- A call: its arguments, the model and the memory that it finds, how its `qsort` leaves equal
contexts, and what becomes of its file. -/
structure Call where
  entry : Entry
  g : Globals
  m : Memory
  qsort : Sorting CtxRef.before
  io : Io

/-- What a call does after its checks. -/
inductive Plan
  | refuse
  | plain
  | landmarks (t : LmTables)
  | schema (t : ScTables)

/-- The checks of an entry point, and the tables it builds. -/
def Entry.plan (B : Build) (luts : Bool) (D : Doubles) (qsort : Sorting CtxRef.before)
    (g : Globals) : Entry → Outcome Plan
  | .save => pure .plain
  | .withLandmarks n k =>
    if h : (1 ≤ n.toNat ∧ n.toNat ≤ btMaxDepth) ∧ k ≠ 0 then
      .landmarks <$> buildLandmarks B luts D qsort g n.toNat h.1 k
    else pure .plain
  | .withSchema corpus rec =>
    if h : 1 ≤ rec.toNat ∧ rec.toNat ≤ schemaMax then
      if corpus.length / rec.toNat < 2 then pure .plain
      else .schema <$> buildSchema D corpus rec.toNat h
    else pure .refuse

def Call.plan (B : Build) (luts : Bool) (D : Doubles) (c : Call) : Except Stop Plan :=
  (c.entry.plan B luts D c.qsort c.g).mapError .building

/-- `bcb_prior_save` with the registered tables, `none` where the file is not opened. -/
def Call.save (B : Build) (c : Call) (s : Process) : Except Stop (Option Written × Process) :=
  if c.io.opened then do
    let lm ← s.readLm
    let sc ← s.readSc
    return (some (writeImage B c.io c.m (registered lm sc) c.g), { s with lm := none, sc := none })
  else pure (none, s)

def Call.perform (B : Build) (c : Call) : Plan → Process → Except Stop (Option Written × Process)
  | .refuse, s => pure (none, s)
  | .plain, s => c.save B s
  | .landmarks t, s => do
    let (id, s) := s.alloc
    let (w, s) ← c.save B (bcbPriorSetLandmarks ⟨id, t⟩ s)
    return (w, s.free id)
  | .schema t, s => do
    let (id, s) := s.alloc
    let (w, s) ← c.save B (bcbPriorSetSchema ⟨id, t⟩ s)
    return (w, s.free id)

def Call.step (B : Build) (luts : Bool) (D : Doubles) (c : Call) (s : Process) :
    Except Stop (Option Written × Process) := do
  let plan ← c.plan B luts D
  c.perform B plan s

/-- A sequence of calls and what they write. -/
def runCalls (B : Build) (luts : Bool) (D : Doubles) :
    List Call → Process → Except Stop (List (Option Written) × Process)
  | [], s => pure ([], s)
  | c :: calls, s => do
    let (w, s) ← c.step B luts D s
    let (ws, s) ← runCalls B luts D calls s
    return (w :: ws, s)

/-! ## What each call is to write -/

/-- The tables that the call has built itself. -/
def Plan.own : Plan → Registered
  | .refuse => registered none none
  | .plain => registered none none
  | .landmarks t => registered t.kept none
  | .schema t => registered none (some t)

def Plan.saves : Plan → Bool
  | .refuse => false
  | _ => true

def Call.own (B : Build) (c : Call) (plan : Plan) : Option Written :=
  if plan.saves && c.io.opened then some (writeImage B c.io c.m plan.own c.g) else none

/-- Every image holds the tables of its own call, and no freed table is read: a run ends as the
building of the tables does. -/
def OneShot (B : Build) (luts : Bool) (D : Doubles) (calls : List Call) : Prop :=
  Prod.fst <$> runCalls B luts D calls .initial =
    calls.mapM fun c => c.own B <$> c.plan B luts D

/-- What the arguments of a call and the model tell of it: whether it saves, with tables of which
kind, and whether a landmark is among them. -/
inductive Kind
  | refuse
  | plain
  | landmarks (any : Bool)
  | schema

def Entry.kind (g : Globals) : Entry → Kind
  | .save => .plain
  | .withLandmarks n k =>
    if (1 ≤ n.toNat ∧ n.toNat ≤ btMaxDepth) ∧ k ≠ 0 then .landmarks (hasLandmark g n.toNat)
    else .plain
  | .withSchema corpus rec =>
    if 1 ≤ rec.toNat ∧ rec.toNat ≤ schemaMax then
      if corpus.length / rec.toNat < 2 then .plain else .schema
    else .refuse

/-- Whether landmarks and a schema are left over from a call that has not opened its file. -/
structure Pending where
  lm : Bool
  sc : Bool

def Pending.none : Pending := ⟨false, false⟩

/-- The registrations that a call does not replace by its own are those it would write. -/
def Pending.disturbs (p : Pending) : Kind → Bool
  | .refuse => false
  | .plain => p.lm || p.sc
  | .landmarks _ => p.sc
  | .schema => p.lm

/-- A call that does not open its file leaves its tables registered. -/
def Pending.after (p : Pending) (opened : Bool) : Kind → Pending
  | .refuse => p
  | .plain => if opened then .none else p
  | .landmarks any => if opened then .none else { p with lm := any }
  | .schema => if opened then .none else { p with sc := true }

/-- No call opens its file while another registration is left over, as far as the tables are
built. -/
def Undisturbed (B : Build) (luts : Bool) (D : Doubles) : List Call → Pending → Prop
  | [], _ => True
  | c :: calls, p =>
    match c.plan B luts D with
    | .error _ => True
    | .ok _ => (c.io.opened → p.disturbs (c.entry.kind c.g) = false) ∧
        Undisturbed B luts D calls (p.after c.io.opened (c.entry.kind c.g))

def Plan.kind : Plan → Kind
  | .refuse => .refuse
  | .plain => .plain
  | .landmarks t => .landmarks t.kept.isSome
  | .schema _ => .schema

theorem plan_kind {B : Build} {luts : Bool} {D : Doubles} {c : Call} {plan : Plan}
    (h : c.plan B luts D = .ok plan) : plan.kind = c.entry.kind c.g := by
  have hplan : c.entry.plan B luts D c.qsort c.g = .ok plan := by
    unfold Call.plan at h
    cases hx : c.entry.plan B luts D c.qsort c.g with
    | error f =>
      rw [hx] at h
      cases h
    | ok x =>
      rw [hx] at h
      exact congrArg Except.ok (Except.ok.inj h)
  cases hentry : c.entry with
  | save =>
    rw [hentry] at hplan
    obtain rfl := Except.ok.inj hplan
    rfl
  | withLandmarks n k =>
    rw [hentry, Entry.plan] at hplan
    rw [Entry.kind]
    split_ifs at hplan ⊢ with hn
    · obtain ⟨t, ht, rfl⟩ := map_eq_ok.1 hplan
      have hany := buildLandmarks_any hn.2 ht
      rw [Plan.kind, LmTables.kept]
      refine congrArg Kind.landmarks (Bool.eq_iff_iff.2 ?_)
      rw [decide_eq_true_eq, ← hany]
      split_ifs with h0
      · exact iff_of_false Bool.false_ne_true fun h => h h0
      · exact iff_of_true rfl h0
    · obtain rfl := Except.ok.inj hplan
      rfl
  | withSchema corpus rec =>
    rw [hentry, Entry.plan] at hplan
    rw [Entry.kind]
    split_ifs at hplan ⊢ with hrec hfew
    · obtain rfl := Except.ok.inj hplan
      rfl
    · obtain ⟨t, -, rfl⟩ := map_eq_ok.1 hplan
      rfl
    · obtain rfl := Except.ok.inj hplan
      rfl

/-! ## Complete files -/

section

variable {io : Io} (hio : ∀ i n, n ≤ io.wrote i n)

include hio

theorem fwrite_complete (bytes : List UInt8) (x : Writing) :
    fwrite io bytes x = (true, { x with file := x.file ++ bytes, writes := x.writes + 1 }) := by
  have hmin : min (io.wrote x.writes bytes.length) bytes.length = bytes.length :=
    min_eq_right (hio _ _)
  simp only [fwrite, hmin, List.take_length, decide_true]

theorem padZeros_complete {target n : Nat} {x : Writing} (h : target - x.file.length ≤ n) :
    ∃ k, padZeros io target n x = ⟨padTo 0 x.file target, k, x.ok⟩ := by
  have hdone : target - x.file.length = 0 → padTo 0 x.file target = x.file := fun h0 => by
    rw [padTo, h0, List.replicate_zero, List.append_nil]
  induction n generalizing x with
  | zero => exact ⟨x.writes, by rw [hdone (Nat.le_zero.1 h)]; rfl⟩
  | succ n ih =>
    by_cases hlt : x.file.length < target
    · obtain ⟨k, hk⟩ := ih (x := { x with
          file := x.file ++ List.replicate (min 8 (target - x.file.length)) 0
          writes := x.writes + 1 })
        (by rw [List.length_append, List.length_replicate]; omega)
        (fun h0 => by rw [padTo, h0, List.replicate_zero, List.append_nil])
      refine ⟨k, ?_⟩
      simp only [padZeros, if_pos hlt, fwrite_complete hio, hk, if_true]
      rw [padTo, padTo, List.append_assoc, List.length_append, List.length_replicate,
        List.replicate_append_replicate]
      congr 3
      omega
    · exact ⟨x.writes, by rw [padZeros, if_neg hlt, hdone (by omega)]⟩

theorem writeSection_complete (x : Writing) (y : Nat × List UInt8) :
    ∃ k, writeSection io x y = ⟨put 0 x.file y.1 y.2, k, x.ok⟩ := by
  obtain ⟨k, hk⟩ := padZeros_complete hio (le_refl (y.1 - x.file.length))
  rw [writeSection, padFile, hk]
  split_ifs with hnil
  · exact ⟨k, by rw [put, hnil, List.append_nil]⟩
  · refine ⟨k + 1, ?_⟩
    simp only [fwrite_complete hio, Bool.and_true]
    rfl

theorem foldl_writeSection_complete (l : List (Nat × List UInt8)) (x : Writing) :
    ∃ k, l.foldl (writeSection io) x = ⟨putAll 0 x.file l, k, x.ok⟩ := by
  induction l generalizing x with
  | nil => exact ⟨x.writes, rfl⟩
  | cons y l ih =>
    obtain ⟨k, hk⟩ := writeSection_complete hio x y
    rw [List.foldl_cons, hk]
    exact ih _

theorem writeImage_complete (hclosed : io.closed = true) {B : Build} {m : Memory}
    (hm : m.window = fun _ => 0) {r : Registered} {g : Globals} {file : List UInt8}
    (hsave : bcbPriorSave B m.toPadding r g = some file) : writeImage B io m r g = ⟨file, true⟩ := by
  have hsections : imageSections B m r g (saveHeader r (btV3Export B g)) =
      sections B m.toPadding r g (saveHeader r (btV3Export B g)) := by
    rw [imageSections, hm]
    rfl
  obtain ⟨k, hk⟩ := foldl_writeSection_complete hio
    (sections B m.toPadding r g (saveHeader r (btV3Export B g)))
    ⟨headerBytes (saveHeader r (btV3Export B g)), 1, true⟩
  have hfile : putAll 0 (headerBytes (saveHeader r (btV3Export B g)))
      (sections B m.toPadding r g (saveHeader r (btV3Export B g))) = file := by
    unfold bcbPriorSave at hsave
    dsimp only at hsave
    split_ifs at hsave
    exact Option.some.inj hsave
  simp only [writeImage, fwrite_complete hio, List.nil_append, Nat.zero_add, hsections, hk, hfile,
    hclosed, Bool.and_true]

end

variable {B : Build} {luts : Bool} {D : Doubles} {c : Call} {calls : List Call} {s : Process}
  {p : Pending} {plan : Plan}

/-- Between the calls every table is freed, and the flags tell what is registered. -/
structure Tracks (p : Pending) (s : Process) : Prop where
  freed : ∀ id, s.live id = false
  lm_lt : ∀ b, s.lm = some b → b.id < s.allocs
  sc_lt : ∀ b, s.sc = some b → b.id < s.allocs
  lm : p.lm = true ↔ ∃ b, s.lm = some b ∧ b.data.kept.isSome
  sc : p.sc = true ↔ s.sc.isSome

theorem initial_tracks : Tracks .none .initial where
  freed _ := rfl
  lm_lt _ h := by cases h
  sc_lt _ h := by cases h
  lm := by simp [Pending.none, Process.initial]
  sc := by simp [Pending.none, Process.initial]

/-! ## Reads of what is registered -/

/-- A registration left over is a freed table. -/
def leftOver {α : Type} (pending : Bool) : Except Stop (Option α) :=
  if pending then .error .freed else .ok none

theorem readLm_of_freed (hlm : p.lm = true ↔ ∃ b, s.lm = some b ∧ b.data.kept.isSome)
    (hfreed : ∀ b, s.lm = some b → s.live b.id = false) : s.readLm = leftOver p.lm := by
  unfold Process.readLm leftOver
  cases hs : s.lm with
  | none =>
    have hp : p.lm = false := by
      rw [Bool.eq_false_iff, Ne, hlm]
      rintro ⟨b, hb, -⟩
      rw [hs] at hb
      cases hb
    rw [hp]
    rfl
  | some b =>
    cases hkept : b.data.kept with
    | none =>
      have hp : p.lm = false := by
        rw [Bool.eq_false_iff, Ne, hlm]
        rintro ⟨b', hb', hsome⟩
        obtain rfl := Option.some.inj (hs.symm.trans hb')
        rw [hkept] at hsome
        cases hsome
      rw [hp]
      simp only [hkept]
      rfl
    | some t =>
      have hp : p.lm = true := hlm.2 ⟨b, hs, by rw [hkept]; rfl⟩
      rw [hp]
      simp only [hkept, hfreed b hs]
      rfl

theorem readSc_of_freed (hsc : p.sc = true ↔ s.sc.isSome)
    (hfreed : ∀ b, s.sc = some b → s.live b.id = false) : s.readSc = leftOver p.sc := by
  unfold Process.readSc leftOver
  cases hs : s.sc with
  | none =>
    have hp : p.sc = false := by
      rw [Bool.eq_false_iff, Ne, hsc, hs]
      exact Bool.false_ne_true
    rw [hp]
    rfl
  | some b =>
    have hp : p.sc = true := hsc.2 (by rw [hs]; rfl)
    rw [hp]
    simp only [hfreed b hs]
    rfl

theorem readLm_of_live {b : Buffer LmTables} (hb : s.lm = some b) (hlive : s.live b.id = true) :
    s.readLm = .ok b.data.kept := by
  unfold Process.readLm
  rw [hb]
  cases hkept : b.data.kept with
  | none =>
    simp only [hkept]
    rfl
  | some t =>
    simp only [hkept, hlive]
    rfl

theorem readSc_of_live {b : Buffer ScTables} (hb : s.sc = some b) (hlive : s.live b.id = true) :
    s.readSc = .ok (some b.data) := by
  unfold Process.readSc
  rw [hb]
  simp only [hlive]
  rfl

theorem Tracks.alloc_freed (h : Tracks p s) {id : Nat} (hid : id < s.allocs) :
    s.alloc.2.live id = false := by
  change Function.update s.live s.allocs true id = false
  rw [Function.update_of_ne hid.ne]
  exact h.freed id

theorem Tracks.alloc_free (h : Tracks p s) (id : Nat) :
    Function.update (Function.update s.live s.allocs true) s.allocs false id = false := by
  rw [Function.update_idem, Function.update_apply]
  split_ifs
  · rfl
  · exact h.freed id

/-! ## One call -/

theorem save_opened (ho : c.io.opened = true) {lm : Option LmTables} {sc : Option ScTables}
    (hlm : s.readLm = .ok lm) (hsc : s.readSc = .ok sc) : c.save B s =
      .ok (some (writeImage B c.io c.m (registered lm sc) c.g),
        { s with lm := none, sc := none }) := by
  rw [Call.save, if_pos ho, hlm, hsc]
  rfl

theorem save_freed_lm (ho : c.io.opened = true) (hlm : s.readLm = .error .freed) :
    c.save B s = .error .freed := by
  rw [Call.save, if_pos ho, hlm]
  rfl

theorem save_freed_sc (ho : c.io.opened = true) {lm : Option LmTables} (hlm : s.readLm = .ok lm)
    (hsc : s.readSc = .error .freed) : c.save B s = .error .freed := by
  rw [Call.save, if_pos ho, hlm, hsc]
  rfl

section

variable (h : Tracks p s)

include h

theorem Tracks.readLm : s.readLm = leftOver p.lm := readLm_of_freed h.lm fun b _ => h.freed b.id

theorem Tracks.readSc : s.readSc = leftOver p.sc := readSc_of_freed h.sc fun b _ => h.freed b.id

theorem Tracks.readSc_landmarks (t : LmTables) :
    (bcbPriorSetLandmarks ⟨s.alloc.1, t⟩ s.alloc.2).readSc = leftOver p.sc :=
  readSc_of_freed h.sc fun _ hb => h.alloc_freed (h.sc_lt _ hb)

theorem Tracks.readLm_schema (t : ScTables) :
    (bcbPriorSetSchema ⟨s.alloc.1, t⟩ s.alloc.2).readLm = leftOver p.lm :=
  readLm_of_freed h.lm fun _ hb => h.alloc_freed (h.lm_lt _ hb)

omit h in
@[simp] theorem readLm_landmarks (s : Process) (t : LmTables) :
    (bcbPriorSetLandmarks ⟨s.alloc.1, t⟩ s.alloc.2).readLm = .ok t.kept :=
  readLm_of_live (b := ⟨s.alloc.1, t⟩) rfl (Function.update_self _ _ _)

omit h in
@[simp] theorem readSc_schema (s : Process) (t : ScTables) :
    (bcbPriorSetSchema ⟨s.alloc.1, t⟩ s.alloc.2).readSc = .ok (some t) :=
  readSc_of_live (b := ⟨s.alloc.1, t⟩) rfl (Function.update_self _ _ _)

/-- A file opened over what is left over is written from freed tables. -/
theorem Tracks.perform_disturbed (ho : c.io.opened = true) (hd : p.disturbs plan.kind = true) :
    c.perform B plan s = .error .freed := by
  cases plan with
  | refuse => cases hd
  | plain =>
    change c.save B s = _
    cases hlm : p.lm with
    | true => exact save_freed_lm ho (by rw [h.readLm, hlm]; rfl)
    | false =>
      have hsc : p.sc = true := by
        change (p.lm || p.sc) = true at hd
        rwa [hlm, Bool.false_or] at hd
      exact save_freed_sc ho (show s.readLm = .ok none by rw [h.readLm, hlm]; rfl)
        (by rw [h.readSc, hsc]; rfl)
  | landmarks t =>
    have hsc : p.sc = true := hd
    have hsave := save_freed_sc (B := B) ho (readLm_landmarks s t)
      (by rw [h.readSc_landmarks, hsc]; rfl)
    simp only [Call.perform]
    rw [hsave]
    rfl
  | schema t =>
    have hlm : p.lm = true := hd
    have hsave := save_freed_lm (B := B) ho
      (by rw [h.readLm_schema t, hlm]; rfl)
    simp only [Call.perform]
    rw [hsave]
    rfl

theorem Tracks.perform_own (hd : c.io.opened = true → p.disturbs plan.kind = false) :
    ∃ s', c.perform B plan s = .ok (c.own B plan, s') ∧
      Tracks (p.after c.io.opened plan.kind) s' := by
  cases ho : c.io.opened with
  | false =>
    have hclosed : ∀ s, c.save B s = .ok (none, s) := fun s => by
      rw [Call.save, ho]
      rfl
    have hown : c.own B plan = none := by
      rw [Call.own, ho, Bool.and_false]
      rfl
    rw [hown]
    cases plan with
    | refuse => exact ⟨s, rfl, h⟩
    | plain => exact ⟨s, hclosed s, h⟩
    | landmarks t =>
      refine ⟨_, by simp only [Call.perform, hclosed]; rfl, ?_⟩
      exact {
        freed := h.alloc_free
        lm_lt := fun b hb => by
          obtain rfl := Option.some.inj hb
          exact Nat.lt_succ_self _
        sc_lt := fun b hb => (h.sc_lt b hb).trans (Nat.lt_succ_self _)
        lm := ⟨fun hk => ⟨_, rfl, hk⟩, fun ⟨b, hb, hk⟩ => by
          obtain rfl := Option.some.inj hb
          exact hk⟩
        sc := h.sc }
    | schema t =>
      refine ⟨_, by simp only [Call.perform, hclosed]; rfl, ?_⟩
      exact {
        freed := h.alloc_free
        lm_lt := fun b hb => (h.lm_lt b hb).trans (Nat.lt_succ_self _)
        sc_lt := fun b hb => by
          obtain rfl := Option.some.inj hb
          exact Nat.lt_succ_self _
        lm := h.lm
        sc := ⟨fun _ => rfl, fun _ => rfl⟩ }
  | true =>
    have hclean := hd ho
    have hown : plan.saves = true → c.own B plan =
        some (writeImage B c.io c.m plan.own c.g) := fun hs => by
      rw [Call.own, ho, hs]
      rfl
    have hnone : ∀ s' : Process, (∀ id, s'.live id = false) → s'.lm = none → s'.sc = none →
        Tracks .none s' := fun s' hfreed hlm hsc =>
      { freed := hfreed
        lm_lt := fun b hb => by rw [hlm] at hb; cases hb
        sc_lt := fun b hb => by rw [hsc] at hb; cases hb
        lm := by simp [Pending.none, hlm]
        sc := by simp [Pending.none, hsc] }
    cases plan with
    | refuse => exact ⟨s, by rw [Call.own]; rfl, h⟩
    | plain =>
      obtain ⟨hlm, hsc⟩ := Bool.or_eq_false_iff.1 hclean
      have hsave := save_opened (B := B) ho (show s.readLm = .ok none by rw [h.readLm, hlm]; rfl)
        (show s.readSc = .ok none by rw [h.readSc, hsc]; rfl)
      rw [hown rfl]
      exact ⟨_, hsave, hnone _ h.freed rfl rfl⟩
    | landmarks t =>
      have hsc : p.sc = false := hclean
      have hsave := save_opened (B := B) ho (readLm_landmarks s t)
        (show _ = Except.ok none by rw [h.readSc_landmarks, hsc]; rfl)
      rw [hown rfl]
      refine ⟨_, by simp only [Call.perform]; rw [hsave]; rfl, hnone _ h.alloc_free rfl rfl⟩
    | schema t =>
      have hlm : p.lm = false := hclean
      have hsave := save_opened (B := B) ho
        (show _ = Except.ok none by rw [h.readLm_schema t, hlm]; rfl) (readSc_schema s t)
      rw [hown rfl]
      refine ⟨_, by simp only [Call.perform]; rw [hsave]; rfl, hnone _ h.alloc_free rfl rfl⟩

end

/-! ## Runs -/

theorem plan_not_freed (c : Call) : c.plan B luts D ≠ .error .freed := by
  unfold Call.plan
  cases c.entry.plan B luts D c.qsort c.g with
  | error f => exact fun h => by cases h
  | ok plan => exact fun h => by cases h

theorem own_not_freed (calls : List Call) :
    calls.mapM (fun c => c.own B <$> c.plan B luts D) ≠ .error .freed := by
  induction calls with
  | nil => exact fun h => by cases h
  | cons c calls ih =>
    rw [List.mapM_cons]
    have hplan : c.plan B luts D ≠ .error .freed := plan_not_freed c
    cases hc : c.plan B luts D with
    | error e =>
      rw [hc] at hplan
      exact fun h => hplan (congrArg Except.error (Except.error.inj h))
    | ok plan =>
      cases hrest : calls.mapM fun c => c.own B <$> c.plan B luts D with
      | error e =>
        rw [hrest] at ih
        exact fun h => ih (congrArg Except.error (Except.error.inj h))
      | ok ws => exact fun h => by cases h

/-- The first write of both sides agrees, so that the others decide. -/
theorem cons_run_iff {α σ : Type} (w : α) (x : Except Stop (List α × σ)) (y : Except Stop (List α)) :
    Prod.fst <$> (do
      let (ws, s) ← x
      return (w :: ws, s)) = (do
      let ws ← y
      return w :: ws) ↔ Prod.fst <$> x = y := by
  cases x with
  | error e =>
    cases y with
    | error e' => exact Iff.rfl
    | ok ws => exact iff_of_false (fun h => by cases h) fun h => by cases h
  | ok x =>
    cases y with
    | error e' => exact iff_of_false (fun h => by cases h) fun h => by cases h
    | ok ws =>
      constructor
      · intro h
        exact congrArg Except.ok (List.cons.inj (Except.ok.inj h)).2
      · intro h
        exact congrArg (fun ws => Except.ok (w :: ws)) (Except.ok.inj h)

theorem Tracks.runCalls_iff (h : Tracks p s) :
    Prod.fst <$> runCalls B luts D calls s = calls.mapM (fun c => c.own B <$> c.plan B luts D) ↔
      Undisturbed B luts D calls p := by
  induction calls generalizing p s with
  | nil => exact iff_of_true rfl trivial
  | cons c calls ih =>
    rw [List.mapM_cons, Undisturbed, runCalls, Call.step]
    cases hplan : c.plan B luts D with
    | error e => exact iff_of_true rfl trivial
    | ok plan =>
      change Prod.fst <$> (do
        let (w, s) ← c.perform B plan s
        let (ws, s) ← runCalls B luts D calls s
        return (w :: ws, s)) = (do
        let ws ← calls.mapM fun c => c.own B <$> c.plan B luts D
        return c.own B plan :: ws) ↔ ((c.io.opened → p.disturbs (c.entry.kind c.g) = false) ∧
          Undisturbed B luts D calls (p.after c.io.opened (c.entry.kind c.g)))
      rw [← plan_kind hplan]
      by_cases hd : c.io.opened = true → p.disturbs plan.kind = false
      · obtain ⟨s', hs', htracks⟩ := h.perform_own (B := B) hd
        rw [and_iff_right hd, ← ih htracks, hs']
        exact cons_run_iff _ _ _
      · -- the run ends at this call, where its own tables would not let it end
        obtain ⟨ho, hdisturbs⟩ := Classical.not_imp.1 hd
        rw [h.perform_disturbed ho (by simpa using hdisturbs)]
        refine iff_of_false (fun hrun => ?_) fun hand => hd hand.1
        cases hrest : calls.mapM fun c => c.own B <$> c.plan B luts D with
        | error e =>
          rw [hrest] at hrun
          exact own_not_freed calls (hrest.trans hrun.symm)
        | ok ws =>
          rw [hrest] at hrun
          cases hrun

/-- Every call writes its own tables, and no freed one is read, exactly where no call opens its
file over a registration left behind by one that did not open its own. -/
theorem oneShot_iff (B : Build) (luts : Bool) (D : Doubles) (calls : List Call) :
    OneShot B luts D calls ↔ Undisturbed B luts D calls .none :=
  initial_tracks.runCalls_iff

/-- A schema whose file could not be opened, and a save after it. -/
def schemaThenSave : List Call :=
  [⟨.withSchema [97, 98] 1, btV3Init .plain (fun _ => blankBt) fun _ => blankCtx,
      ⟨⟨fun _ _ => 0, fun _ _ => 0⟩, fun _ => 0⟩, .stable _, ⟨false, fun _ n => n, true⟩⟩,
    ⟨.save, btV3Init .plain (fun _ => blankBt) fun _ => blankCtx,
      ⟨⟨fun _ _ => 0, fun _ _ => 0⟩, fun _ => 0⟩, .stable _, ⟨true, fun _ n => n, true⟩⟩]

/-- The save reads the tables of the schema, which are freed. -/
theorem schemaThenSave_freed :
    runCalls .plain true .exact schemaThenSave .initial = .error .freed ∧
      ¬ OneShot .plain true .exact schemaThenSave := by
  obtain ⟨sc, hsc⟩ := buildSchema_exact (show 1 ≤ 1 ∧ 1 ≤ schemaMax by decide)
    (show ([97, 98] : List UInt8).length < 2 ^ 64 by decide)
  have hplan : (Entry.withSchema [97, 98] 1).plan .plain true .exact (.stable _)
      (btV3Init .plain (fun _ => blankBt) fun _ => blankCtx) = .ok (.schema sc) := by
    have hrec : 1 ≤ (1 : Int).toNat ∧ (1 : Int).toNat ≤ schemaMax := by decide
    rw [Entry.plan, dif_pos hrec, if_neg (by decide)]
    exact congrArg (Plan.schema <$> ·) hsc
  have hrun : runCalls .plain true .exact schemaThenSave .initial = .error .freed := by
    rw [schemaThenSave, runCalls, Call.step, Call.plan, hplan]
    rfl
  have hown : schemaThenSave.mapM (fun c => c.own .plain <$> c.plan .plain true .exact) ≠
      .error .freed := own_not_freed schemaThenSave
  refine ⟨hrun, fun h => hown ?_⟩
  rw [← h, hrun]
  rfl

end Bcb.Prior
