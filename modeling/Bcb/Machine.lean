import Mathlib.Tactic.Ring
import Mathlib.Tactic.Common

/-! What the C program can do besides return: the behaviours it leaves undefined
and the loops it never leaves.  Unsigned arithmetic is on `Nat` with the wrap
written out. -/

namespace Bcb

inductive Fault
  /-- a read outside the buffer it is made from -/
  | oob
  | divZero
  /-- a signed 64-bit result out of range -/
  | overflow
  /-- an index outside `CONF_LOG2` or `EXP2_FRAC` -/
  | lutIndex
  /-- `CONF_LOG2` or `EXP2_FRAC` read while not allocated -/
  | lutNull
  /-- a shift by a negative count -/
  | shift
  /-- a call on an object that is not there -/
  | misuse
  | diverge
  deriving DecidableEq, Repr

abbrev Outcome := Except Fault

/-- `a - b` on `uint32_t`. -/
def sub32 (a b : Nat) : Nat := (a + 2 ^ 32 - b) % 2 ^ 32

theorem sub32_of_le {a b : Nat} (h : b ≤ a) (ha : a < 2 ^ 32) : sub32 a b = a - b := by
  unfold sub32
  omega

/-- A signed 64-bit result. -/
def i64 (x : Int) : Outcome Int :=
  if -2 ^ 63 ≤ x ∧ x < 2 ^ 63 then pure x else throw .overflow

/-- Signed division, towards zero. -/
def i64Div (a b : Int) : Outcome Int := if b = 0 then throw .divZero else pure (a.tdiv b)

/-- The conversion to `int32_t`. -/
@[irreducible] def toInt32 (x : Int) : Int := x.bmod (2 ^ 32)

theorem i64_ok {x : Int} (hl : -2 ^ 63 ≤ x) (hu : x < 2 ^ 63) : i64 x = .ok x :=
  if_pos ⟨hl, hu⟩

theorem i64_eq_ok {x y : Int} (h : i64 x = .ok y) : y = x ∧ -2 ^ 63 ≤ x ∧ x < 2 ^ 63 := by
  unfold i64 at h
  split_ifs at h with hx
  exact ⟨(Except.ok.inj h).symm, hx⟩

theorem i64Div_of_pos {a b : Int} (ha : 0 ≤ a) (hb : 0 < b) : i64Div a b = .ok (a / b) := by
  rw [i64Div, if_neg hb.ne', Int.tdiv_eq_ediv_of_nonneg ha]
  rfl

theorem toInt32_of_lt {x : Int} (h0 : 0 ≤ x) (h : x < 2 ^ 31) : toInt32 x = x := by
  unfold toInt32
  apply Int.bmod_eq_of_le <;> omega

theorem toInt32_lt (x : Int) : toInt32 x < 2 ^ 31 := by
  have hlt := Int.bmod_lt (x := x) (m := 2 ^ 32) (by norm_num)
  unfold toInt32
  omega

@[simp] theorem ok_bind {α β : Type} (a : α) (f : α → Outcome β) :
    (Except.ok a >>= f) = f a := rfl

@[simp] theorem error_bind {α β : Type} (x : Fault) (f : α → Outcome β) :
    ((Except.error x : Outcome α) >>= f) = Except.error x := rfl

@[simp] theorem throw_bind {α β : Type} (x : Fault) (f : α → Outcome β) :
    ((throw x : Outcome α) >>= f) = throw x := rfl

theorem bind_eq_ok {α β : Type} {x : Outcome α} {f : α → Outcome β} {b : β} :
    (x >>= f) = .ok b ↔ ∃ a, x = .ok a ∧ f a = .ok b := by
  cases x with
  | error e => simp
  | ok a => simp

theorem map_eq_ok {α β : Type} {x : Outcome α} {f : α → β} {b : β} :
    x.map f = .ok b ↔ ∃ a, x = .ok a ∧ f a = b := by
  cases x with
  | error e => simp [Except.map]
  | ok a => simp [Except.map]

theorem map_eq_error {α β : Type} {x : Outcome α} {f : α → β} {e : Fault}
    (h : x.map f = .error e) : x = .error e := by
  cases x with
  | error e' => exact congrArg Except.error (Except.error.inj h)
  | ok a => cases h

theorem exists_ok_of_map {α β : Type} {x : Outcome α} {f : α → β} {b : β}
    (h : x.map f = .ok b) : ∃ a, x = .ok a := by
  obtain ⟨a, ha, -⟩ := map_eq_ok.1 h
  exact ⟨a, ha⟩

theorem mapM_cons_ok {α β : Type} {f : α → Outcome β} {a : α} {l : List α} {t : List β}
    (h : (a :: l).mapM f = .ok t) : ∃ b u, f a = .ok b ∧ l.mapM f = .ok u ∧ t = b :: u := by
  rw [List.mapM_cons] at h
  obtain ⟨b, hb, h⟩ := bind_eq_ok.1 h
  obtain ⟨u, hu, h⟩ := bind_eq_ok.1 h
  exact ⟨b, u, hb, hu, (Except.ok.inj h).symm⟩

theorem mapM_getElem {α β : Type} {f : α → Outcome β} {l : List α} {t : List β}
    (h : l.mapM f = .ok t) {i : Nat} {a : α} (hi : l[i]? = some a) :
    ∃ b, f a = .ok b ∧ t[i]? = some b := by
  induction l generalizing t i with
  | nil => cases hi
  | cons x l ih =>
    obtain ⟨b, u, hb, hu, rfl⟩ := mapM_cons_ok h
    cases i with
    | zero =>
      obtain rfl := Option.some.inj hi
      exact ⟨b, hb, rfl⟩
    | succ i => exact ih hu hi

theorem mapM_length {α β : Type} {f : α → Outcome β} {l : List α} {t : List β}
    (h : l.mapM f = .ok t) : t.length = l.length := by
  induction l generalizing t with
  | nil =>
    obtain rfl := Except.ok.inj h
    rfl
  | cons a l ih =>
    obtain ⟨b, u, -, hu, rfl⟩ := mapM_cons_ok h
    rw [List.length_cons, List.length_cons, ih hu]

theorem mapM_forall {α β : Type} {f : α → Outcome β} {P : β → Prop} {l : List α} {t : List β}
    (h : l.mapM f = .ok t) (hf : ∀ a ∈ l, ∀ b, f a = .ok b → P b) : ∀ b ∈ t, P b := by
  induction l generalizing t with
  | nil =>
    obtain rfl := Except.ok.inj h
    intro b hb
    cases hb
  | cons a l ih =>
    obtain ⟨b, u, hb, hu, rfl⟩ := mapM_cons_ok h
    intro x hx
    rcases List.mem_cons.1 hx with rfl | hx
    · exact hf a List.mem_cons_self x hb
    · exact ih hu (fun y hy => hf y (List.mem_cons_of_mem a hy)) x hx

theorem mapM_congr {α β : Type} {f g : α → Outcome β} {l : List α} (h : ∀ a ∈ l, f a = g a) :
    l.mapM f = l.mapM g := by
  induction l with
  | nil => rfl
  | cons a l ih =>
    rw [List.mapM_cons, List.mapM_cons, h a List.mem_cons_self,
      ih fun x hx => h x (List.mem_cons_of_mem a hx)]

theorem mapM_mem {α β : Type} {f : α → Outcome β} {l : List α} {t : List β}
    (h : l.mapM f = .ok t) {a : α} (ha : a ∈ l) : ∃ b, f a = .ok b := by
  obtain ⟨i, hi, rfl⟩ := List.mem_iff_getElem.1 ha
  obtain ⟨b, hb, -⟩ := mapM_getElem h (List.getElem?_eq_getElem hi)
  exact ⟨b, hb⟩

theorem mapM_eq_map {α β : Type} {f : α → Outcome β} {g : α → β} {l : List α}
    (h : ∀ a ∈ l, f a = .ok (g a)) : l.mapM f = .ok (l.map g) := by
  induction l with
  | nil => rfl
  | cons a l ih =>
    rw [List.mapM_cons, h a List.mem_cons_self, ok_bind,
      ih fun x hx => h x (List.mem_cons_of_mem a hx)]
    rfl

theorem foldlM_mem {α β : Type} {f : β → α → Outcome β} {l : List α} {b b' : β}
    (h : l.foldlM f b = .ok b') {a : α} (ha : a ∈ l) : ∃ c c', f c a = .ok c' := by
  induction l generalizing b with
  | nil => cases ha
  | cons x l ih =>
    rw [List.foldlM_cons] at h
    obtain ⟨c, hc, h⟩ := bind_eq_ok.1 h
    rcases List.mem_cons.1 ha with rfl | ha
    · exact ⟨b, c, hc⟩
    · exact ih h ha

/-- The invariant rule for a loop that ends. -/
theorem foldlM_inv {α β : Type} {f : β → α → Outcome β} {P : List α → β → Prop} {l : List α}
    {b b' : β} (h : l.foldlM f b = .ok b') (h0 : P [] b)
    (hstep : ∀ pre, ∀ a ∈ l, ∀ b b', P pre b → f b a = .ok b' → P (pre ++ [a]) b') : P l b' := by
  induction l generalizing b P with
  | nil =>
    obtain rfl := Except.ok.inj h
    exact h0
  | cons x l ih =>
    rw [List.foldlM_cons] at h
    obtain ⟨c, hc, h⟩ := bind_eq_ok.1 h
    refine ih (P := fun pre => P (x :: pre)) h (hstep [] x List.mem_cons_self b c h0 hc) ?_
    exact fun pre a ha => hstep (x :: pre) a (List.mem_cons_of_mem x ha)

/-- A loop whose turns go well or end in certain faults. -/
theorem foldlM_cases {α β : Type} {f : β → α → Outcome β} {E : Fault → Prop}
    {P : List α → β → Prop} {l : List α} {b : β} (h0 : P [] b)
    (hstep : ∀ pre a post, l = pre ++ a :: post → ∀ b, P pre b →
      (∃ e, f b a = .error e ∧ E e) ∨ ∃ b', f b a = .ok b' ∧ P (pre ++ [a]) b') :
    (∃ e, l.foldlM f b = .error e ∧ E e) ∨ ∃ b', l.foldlM f b = .ok b' ∧ P l b' := by
  induction l generalizing b P with
  | nil => exact .inr ⟨b, rfl, h0⟩
  | cons x l ih =>
    rw [List.foldlM_cons]
    rcases hstep [] x l rfl b h0 with ⟨e, he, hE⟩ | ⟨c, hc, h1⟩
    · exact .inl ⟨e, by rw [he, error_bind], hE⟩
    · rw [hc, ok_bind]
      exact ih (P := fun pre => P (x :: pre)) h1 fun pre a post hl =>
        hstep (x :: pre) a post (by rw [hl, List.cons_append])

theorem foldlM_ok {α β : Type} {f : β → α → Outcome β} {P : List α → β → Prop} {l : List α}
    {b : β} (h0 : P [] b) (hstep : ∀ pre a post, l = pre ++ a :: post → ∀ b, P pre b →
      ∃ b', f b a = .ok b' ∧ P (pre ++ [a]) b') : ∃ b', l.foldlM f b = .ok b' ∧ P l b' := by
  rcases foldlM_cases (E := fun _ => False) h0
    (fun pre a post hl b hb => .inr (hstep pre a post hl b hb)) with ⟨_, _, hE⟩ | hok
  · exact hE.elim
  · exact hok

theorem mapM_ok {α β : Type} {f : α → Outcome β} {l : List α}
    (h : ∀ a ∈ l, ∃ b, f a = .ok b) : ∃ t, l.mapM f = .ok t := by
  induction l with
  | nil => exact ⟨[], rfl⟩
  | cons a l ih =>
    obtain ⟨b, hb⟩ := h a List.mem_cons_self
    obtain ⟨u, hu⟩ := ih fun x hx => h x (List.mem_cons_of_mem a hx)
    refine ⟨b :: u, ?_⟩
    rw [List.mapM_cons, hb, ok_bind, hu]
    rfl

/-- The faults of memory and of control, and not of arithmetic. -/
def Fault.isMemory : Fault → Bool
  | oob => true
  | misuse => true
  | diverge => true
  | _ => false

/-- No fault but these. -/
def Throws {α : Type} (S : Fault → Prop) (x : Outcome α) : Prop := ∀ f, x = .error f → S f

section Throws

variable {α β : Type} {S : Fault → Prop}

theorem Throws.of_ok {x : Outcome α} (h : ∃ a, x = .ok a) : Throws S x := by
  intro f hf
  obtain ⟨a, ha⟩ := h
  rw [ha] at hf
  cases hf

theorem Throws.ok (a : α) : Throws S (.ok a) := .of_ok ⟨a, rfl⟩

theorem Throws.throw {f : Fault} (h : S f) : Throws S (throw f : Outcome α) := by
  intro g hg
  cases hg
  exact h

theorem Throws.bind {x : Outcome α} {f : α → Outcome β} (hx : Throws S x)
    (hf : ∀ a, x = .ok a → Throws S (f a)) : Throws S (x >>= f) := by
  cases x with
  | error e => exact fun g hg => hx g (congrArg Except.error (Except.error.inj hg))
  | ok a => exact hf a rfl

theorem Throws.mapM {f : α → Outcome β} {l : List α} (h : ∀ a ∈ l, Throws S (f a)) :
    Throws S (l.mapM f) := by
  induction l with
  | nil => exact .ok []
  | cons a l ih =>
    rw [List.mapM_cons]
    apply Throws.bind (h a List.mem_cons_self)
    intro b _
    apply Throws.bind (ih fun x hx => h x (List.mem_cons_of_mem a hx))
    exact fun u _ => .ok (b :: u)

theorem Throws.foldlM {f : β → α → Outcome β} {l : List α} (h : ∀ b, ∀ a ∈ l, Throws S (f b a))
    (b : β) : Throws S (l.foldlM f b) := by
  induction l generalizing b with
  | nil => exact .ok b
  | cons a l ih =>
    rw [List.foldlM_cons]
    apply Throws.bind (h b a List.mem_cons_self)
    exact fun b' _ => ih (fun b x hx => h b x (List.mem_cons_of_mem a hx)) b'

theorem Throws.ok_of_disjoint {T : Fault → Prop} {x : Outcome α} (hS : Throws S x)
    (hT : Throws T x) (h : ∀ f, S f → ¬ T f) : ∃ a, x = .ok a := by
  cases x with
  | error e => exact absurd (hT e rfl) (h e (hS e rfl))
  | ok a => exact ⟨a, rfl⟩

end Throws

/-- The same fault, or results that are related. -/
inductive Alike {α β : Type} (R : α → β → Prop) : Outcome α → Outcome β → Prop
  | error (f : Fault) : Alike R (.error f) (.error f)
  | ok {a : α} {b : β} : R a b → Alike R (.ok a) (.ok b)

section Alike

variable {α β γ δ : Type} {R : α → β → Prop} {S : γ → δ → Prop} {x : Outcome α} {y : Outcome β}

theorem Alike.refl {R : α → α → Prop} (h : ∀ a, R a a) (x : Outcome α) : Alike R x x := by
  cases x with
  | error f => exact .error f
  | ok a => exact .ok (h a)

theorem Alike.of_eq {x y : Outcome α} (h : x = y) : Alike Eq x y := h ▸ .refl (fun _ => rfl) x

theorem Alike.bind {f : α → Outcome γ} {g : β → Outcome δ} (h : Alike R x y)
    (hfg : ∀ a b, R a b → Alike S (f a) (g b)) : Alike S (x >>= f) (y >>= g) := by
  cases h with
  | error e => exact .error e
  | ok hab => exact hfg _ _ hab

theorem Alike.foldlM {ι : Type} {f : α → ι → Outcome α} {g : β → ι → Outcome β} {l : List ι}
    {a : α} {b : β} (hstep : ∀ i ∈ l, ∀ a b, R a b → Alike R (f a i) (g b i)) (h : R a b) :
    Alike R (l.foldlM f a) (l.foldlM g b) := by
  induction l generalizing a b with
  | nil => exact .ok h
  | cons i l ih =>
    rw [List.foldlM_cons, List.foldlM_cons]
    exact (hstep i List.mem_cons_self a b h).bind fun _ _ h1 =>
      ih (fun j hj => hstep j (List.mem_cons_of_mem i hj)) h1

theorem Alike.mono {R' : α → β → Prop} (h : Alike R x y) (hR : ∀ a b, R a b → R' a b) :
    Alike R' x y := by
  cases h with
  | error e => exact .error e
  | ok hab => exact .ok (hR _ _ hab)

theorem Alike.ok_left {a : α} (h : Alike R x y) (hx : x = .ok a) : ∃ b, y = .ok b ∧ R a b := by
  cases h with
  | error e => cases hx
  | ok hab => exact ⟨_, rfl, Except.ok.inj hx ▸ hab⟩

theorem Alike.map_eq {f : α → γ} {g : β → γ} (h : Alike R x y) (hfg : ∀ a b, R a b → f a = g b) :
    x.map f = y.map g := by
  cases h with
  | error e => rfl
  | ok hab => exact congrArg Except.ok (hfg _ _ hab)

theorem Alike.of_map {f : α → γ} {g : β → γ} (h : x.map f = y.map g) :
    Alike (fun a b => f a = g b) x y := by
  cases x with
  | error e =>
    cases y with
    | error e' =>
      cases h
      exact .error e
    | ok b => cases h
  | ok a =>
    cases y with
    | error e' => cases h
    | ok b => exact .ok (Except.ok.inj h)

theorem Alike.eq {x y : Outcome α} (h : Alike Eq x y) : x = y := by
  cases h with
  | error e => rfl
  | ok hab => exact congrArg Except.ok hab

theorem Alike.with_eq (h : Alike R x y) :
    Alike (fun a b => R a b ∧ x = .ok a ∧ y = .ok b) x y := by
  cases h with
  | error e => exact .error e
  | ok hab => exact .ok ⟨hab, rfl, rfl⟩

end Alike

end Bcb
