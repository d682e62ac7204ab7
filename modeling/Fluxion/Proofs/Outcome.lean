import Fluxion.Trace
import Mathlib

/-!
# Computations that may fail

A computation made of several steps has a result exactly when every step has one. Said once for plain
and for traced computations, this takes every pass of the library apart. `EndsIn` says of a computation
what it returns and how it may fail, `Mirrors` says of two computations that they do the same up to a
change of the result, and such statements are put together step by step.
-/

namespace Fluxion

variable {ε ε' β β' γ γ' : Type}

theorem bind_eq_ok {x : Except ε β} {f : β → Except ε γ} {c : γ} :
    (x >>= f) = .ok c ↔ ∃ b, x = .ok b ∧ f b = .ok c := by
  cases x with
  | error e =>
    constructor
    · intro h
      cases h
    · rintro ⟨b, hb, -⟩
      cases hb
  | ok b =>
    constructor
    · intro h
      exact ⟨b, rfl, h⟩
    · rintro ⟨b', hb, hc⟩
      cases hb
      exact hc

theorem map_eq_ok {x : Except ε β} {f : β → γ} {c : γ} :
    x.map f = .ok c ↔ ∃ b, x = .ok b ∧ f b = c := by
  cases x <;> simp [Except.map]

@[simp] theorem mapError_eq_ok {f : ε → ε'} {x : Except ε β} {b : β} :
    x.mapError f = .ok b ↔ x = .ok b := by
  cases x <;> simp [Except.mapError]

/-- A computation that is seen to succeed has a result. -/
theorem exists_ok_of_isOk {x : Except ε β} (h : x.isOk = true) : ∃ b, x = .ok b := by
  cases x with
  | error err => cases h
  | ok b => exact ⟨b, rfl⟩

/-- A computation that is seen to succeed without `P` has such a result. -/
theorem exists_ok_and_not {x : Except ε β} {P : β → Prop} [DecidablePred P]
    (h : (x.map fun b => decide (P b)).toOption = some false) : ∃ b, x = .ok b ∧ ¬P b := by
  cases x with
  | error err => cases h
  | ok b => exact ⟨b, rfl, of_decide_eq_false (Option.some.inj h)⟩

/-- A computation that is seen not to succeed has an error. -/
theorem exists_error_of_not_isOk {x : Except ε β} (h : x.isOk = false) : ∃ err, x = .error err := by
  cases x with
  | error err => exact ⟨err, rfl⟩
  | ok b => cases h

/-- Whatever the computation returns satisfies `P`, and whatever it fails with satisfies `E`. -/
def EndsIn (E : ε → Prop) (P : β → Prop) : Except ε β → Prop
  | .ok b => P b
  | .error err => E err

namespace EndsIn

variable {E : ε → Prop} {P : β → Prop} {R : γ → Prop}

theorem of_exists {x : Except ε β} (h : ∃ b, x = .ok b ∧ P b) : EndsIn E P x := by
  obtain ⟨b, rfl, hb⟩ := h
  exact hb

theorem of_ok {x : Except ε β} (hx : EndsIn E P x) {b : β} (h : x = .ok b) : P b := by
  rw [h] at hx
  exact hx

theorem of_error {x : Except ε β} (hx : EndsIn E P x) {err : ε} (h : x = .error err) : E err := by
  rw [h] at hx
  exact hx

theorem imp {E' : ε → Prop} {P' : β → Prop} {x : Except ε β} (hx : EndsIn E P x)
    (hE : ∀ err, E err → E' err) (hP : ∀ b, P b → P' b) : EndsIn E' P' x := by
  cases x with
  | error err => exact hE err hx
  | ok b => exact hP b hx

theorem bind {x : Except ε β} {f : β → Except ε γ} (hx : EndsIn E P x)
    (hf : ∀ b, P b → EndsIn E R (f b)) : EndsIn E R (x >>= f) := by
  cases x with
  | error err => exact hx
  | ok b => exact hf b hx

theorem map {x : Except ε β} {f : β → γ} (hx : EndsIn E P x) (hf : ∀ b, P b → R (f b)) :
    EndsIn E R (x.map f) := by
  cases x with
  | error err => exact hx
  | ok b => exact hf b hx

theorem mapError {E' : ε' → Prop} {x : Except ε β} {f : ε → ε'} (hx : EndsIn E P x)
    (hf : ∀ err, E err → E' (f err)) : EndsIn E' P (x.mapError f) := by
  cases x with
  | error err => exact hf err hx
  | ok b => exact hx

end EndsIn

/-- The second computation fails when the first one does, and returns the result of the first one under
`g` otherwise. -/
def Mirrors (g : β → β') (x : Except ε β) (y : Except ε' β') : Prop :=
  y.toOption = x.toOption.map g

namespace Mirrors

variable {g : β → β'} {h : γ → γ'} {x : Except ε β} {y : Except ε' β'}

theorem refl (x : Except ε β) : Mirrors id x x := (congrFun Option.map_id _).symm

theorem eq_ok (hxy : Mirrors g x y) {b : β} (hx : x = .ok b) : y = .ok (g b) := by
  subst hx
  cases y with
  | error err => cases hxy
  | ok c => exact congrArg Except.ok (Option.some.inj hxy)

theorem bind (hxy : Mirrors g x y) {k : β → Except ε γ} {k' : β' → Except ε' γ'}
    (hk : ∀ b, x = .ok b → Mirrors h (k b) (k' (g b))) : Mirrors h (x >>= k) (y >>= k') := by
  cases x with
  | error err =>
    cases y with
    | error err' => rfl
    | ok c => cases hxy
  | ok b =>
    rw [hxy.eq_ok rfl]
    exact hk b rfl

theorem map (hxy : Mirrors g x y) {k : β → γ} {k' : β' → γ'} (hk : ∀ b, k' (g b) = h (k b)) :
    Mirrors h (x.map k) (y.map k') := by
  cases x with
  | error err =>
    cases y with
    | error err' => rfl
    | ok c => cases hxy
  | ok b =>
    rw [hxy.eq_ok rfl]
    exact congrArg some (hk b)

theorem mapError {δ δ' : Type} (hxy : Mirrors g x y) {k : ε → δ} {k' : ε' → δ'} :
    Mirrors g (x.mapError k) (y.mapError k') := by
  cases x <;> cases y <;> exact hxy

end Mirrors

namespace Traced

theorem outcome_bind_eq (m : Traced ε β) (f : β → Traced ε γ) :
    (m >>= f).outcome = (m.outcome >>= fun b => (f b).outcome) := by
  show (Traced.bind m f).outcome = _
  unfold Traced.bind
  cases m.outcome with
  | error err => rfl
  | ok b => rfl

@[simp] theorem outcome_bind {m : Traced ε β} {f : β → Traced ε γ} {c : γ} :
    (m >>= f).outcome = .ok c ↔ ∃ b, m.outcome = .ok b ∧ (f b).outcome = .ok c := by
  rw [outcome_bind_eq, bind_eq_ok]

theorem endsIn_bind {E : ε → Prop} {P : β → Prop} {R : γ → Prop} {m : Traced ε β}
    {f : β → Traced ε γ} (hm : EndsIn E P m.outcome) (hf : ∀ b, P b → EndsIn E R (f b).outcome) :
    EndsIn E R (m >>= f).outcome := by
  rw [outcome_bind_eq]
  exact hm.bind hf

/-- What the end of a computation records stands at the end of what the whole records. -/
theorem suffix_steps_bind {m : Traced ε β} {f : β → Traced ε γ} {b : β} {steps : List Step}
    (hm : m.outcome = .ok b) (h : steps <:+ (f b).steps) : steps <:+ (m >>= f).steps := by
  have hbind : (m >>= f).steps = m.steps ++ (f b).steps := by
    show (Traced.bind m f).steps = _
    unfold Traced.bind
    rw [hm]
  rw [hbind]
  exact List.suffix_append_of_suffix h

theorem steps_bind_pure (m : Traced ε β) (f : β → γ) : (m >>= fun b => pure (f b)).steps = m.steps := by
  show (Traced.bind m _).steps = _
  unfold Traced.bind
  cases m.outcome with
  | error err => rfl
  | ok b => exact List.append_nil m.steps

@[simp] theorem outcome_pure (b : β) : (pure b : Traced ε β).outcome = .ok b := rfl

@[simp] theorem outcome_lift (x : Except ε β) : (Traced.lift x).outcome = x := rfl

@[simp] theorem outcome_record (s : Step) : (Traced.record s : Traced ε Unit).outcome = .ok () := rfl

end Traced

end Fluxion
