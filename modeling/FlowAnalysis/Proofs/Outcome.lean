import FlowAnalysis.Error

/-!
Computations that may fail. A computation made of steps has a result exactly if every step has one,
and it fails exactly with the first error among its steps. Some errors lie with the program, which has
no meaning for the analysis; the others are a run past its cap and the failure of an internal check.
-/

namespace FlowAnalysis

variable {ε α β : Type}

theorem bind_eq_ok {x : Except ε α} {f : α → Except ε β} {b : β} :
    x >>= f = .ok b ↔ ∃ a, x = .ok a ∧ f a = .ok b := by
  cases x with
  | error e => simp [bind, Except.bind]
  | ok a => simp [bind, Except.bind]

theorem bind_eq_error {x : Except ε α} {f : α → Except ε β} {e : ε} :
    x >>= f = .error e ↔ x = .error e ∨ ∃ a, x = .ok a ∧ f a = .error e := by
  cases x with
  | error e => simp [bind, Except.bind]
  | ok a => simp [bind, Except.bind]

theorem pure_eq_ok {a b : α} : (pure a : Except ε α) = .ok b ↔ a = b := by
  simp [pure, Except.pure]

theorem throw_ne_ok {e : ε} {a : α} : (throw e : Except ε α) ≠ .ok a := nofun

theorem throw_eq_error {e e' : ε} : (throw e : Except ε α) = .error e' ↔ e = e' := by
  simp [throw, throwThe, MonadExceptOf.throw]

theorem pure_ne_error {a : α} {e : ε} : (pure a : Except ε α) ≠ .error e := nofun

theorem map_eq_ok {x : Except ε α} {f : α → β} {b : β} :
    x.map f = .ok b ↔ ∃ a, x = .ok a ∧ f a = b := by
  cases x with
  | error e => simp [Except.map]
  | ok a => simp [Except.map]

theorem toOption_eq_some {x : Except ε α} {a : α} : x.toOption = some a ↔ x = .ok a := by
  cases x with
  | error e => simp [Except.toOption]
  | ok b => simp [Except.toOption]

theorem exists_of_isOk {x : Except ε α} (h : x.isOk = true) : ∃ a, x = .ok a := by
  cases x with
  | error e => cases h
  | ok a => exact ⟨a, rfl⟩

theorem exists_of_any_isOk {x : Option (Except ε α)} (h : x.any Except.isOk = true) :
    ∃ a, x = some (.ok a) := by
  obtain ⟨outcome, rfl, hok⟩ := (Option.any_eq_true _ _).1 h
  obtain ⟨a, rfl⟩ := exists_of_isOk hok
  exact ⟨a, rfl⟩

/-- The program is at fault: it has no meaning, or none for the domain. -/
def AnalysisError.IsSemantic : AnalysisError → Prop
  | unsupported _ _ => True
  | malformed _ _ => True
  | _ => False

/-- Either a result with a property, or an error of a kind. -/
def Concludes (E : AnalysisError → Prop) (P : α → Prop) : Outcome α → Prop
  | .ok a => P a
  | .error e => E e

/-- Either a result with a property, or an error for which the program is at fault. -/
abbrev Meets (P : α → Prop) : Outcome α → Prop := Concludes AnalysisError.IsSemantic P

namespace Concludes

variable {E : AnalysisError → Prop} {P : α → Prop} {Q : β → Prop}

theorem pure {a : α} (h : P a) : Concludes E P (pure a) := h

theorem result {x : Outcome α} {a : α} (h : Concludes E P x) (hx : x = .ok a) : P a := by
  subst hx
  exact h

theorem error {x : Outcome α} {e : AnalysisError} (h : Concludes E P x) (hx : x = .error e) : E e := by
  subst hx
  exact h

theorem mono {P' : α → Prop} {x : Outcome α} (h : Concludes E P x) (himp : ∀ a, P a → P' a) :
    Concludes E P' x := by
  cases x with
  | ok a => exact himp a h
  | error e => exact h

/-- An error of a kind is one of a wider kind. -/
theorem weaken {E' : AnalysisError → Prop} {x : Outcome α} (h : Concludes E P x)
    (himp : ∀ e, E e → E' e) : Concludes E' P x := by
  cases x with
  | ok a => exact h
  | error e => exact himp e h

theorem bind {x : Outcome α} {f : α → Outcome β} (hx : Concludes E P x)
    (hf : ∀ a, P a → Concludes E Q (f a)) : Concludes E Q (x >>= f) := by
  cases x with
  | ok a => exact hf a hx
  | error e => exact hx

theorem foldlM {f : α → β → Outcome α} {items : List β} {a : α} (ha : P a)
    (hf : ∀ a item, P a → item ∈ items → Concludes E P (f a item)) :
    Concludes E P (items.foldlM f a) := by
  induction items generalizing a with
  | nil => exact ha
  | cons item items ih =>
      rw [List.foldlM_cons]
      exact (hf a item ha List.mem_cons_self).bind fun a' ha' =>
        ih ha' fun a'' item' ha'' hitem' => hf a'' item' ha'' (List.mem_cons_of_mem _ hitem')

end Concludes

/-- No internal check fails. -/
theorem Meets.ne_overlapping {P : α → Prop} {x : Outcome α} (h : Meets P x) :
    x ≠ .error .overlappingSegments := by
  rintro rfl
  exact h

def Answers (P : α → Prop) (x : Outcome α) : Prop := ∃ a, x = .ok a ∧ P a

namespace Answers

variable {P : α → Prop} {Q : β → Prop} {x : Outcome α}

theorem pure {a : α} (h : P a) : Answers P (pure a) := ⟨a, rfl, h⟩

theorem bind {f : α → Outcome β} (hx : Answers P x) (hf : ∀ a, P a → Answers Q (f a)) :
    Answers Q (x >>= f) := by
  obtain ⟨a, rfl, ha⟩ := hx
  exact hf a ha

theorem result {a : α} (h : Answers P x) (hx : x = .ok a) : P a := by
  obtain ⟨b, hb, hP⟩ := h
  exact Except.ok.inj (hb.symm.trans hx) ▸ hP

theorem mono {P' : α → Prop} (h : Answers P x) (himp : ∀ a, P a → P' a) : Answers P' x := by
  obtain ⟨a, hx, ha⟩ := h
  exact ⟨a, hx, himp a ha⟩

theorem concludes {E : AnalysisError → Prop} (h : Answers P x) : Concludes E P x := by
  obtain ⟨a, rfl, ha⟩ := h
  exact ha

theorem exists_ok (h : Answers P x) : ∃ a, x = .ok a := h.imp fun _ => And.left

end Answers

/-- Two outcomes that have related results or fail with the same error. -/
def Alike (R : α → β → Prop) : Outcome α → Outcome β → Prop
  | .ok a, .ok b => R a b
  | .error e, .error e' => e = e'
  | _, _ => False

namespace Alike

variable {α' β' : Type} {R : α → β → Prop} {R' : α' → β' → Prop} {x : Outcome α} {y : Outcome β}

theorem pure {a : α} {b : β} (h : R a b) : Alike R (pure a) (pure b) := h

theorem bind {f : α → Outcome α'} {g : β → Outcome β'} (hxy : Alike R x y)
    (hfg : ∀ a b, R a b → Alike R' (f a) (g b)) : Alike R' (x >>= f) (y >>= g) := by
  match x, y, hxy with
  | .ok a, .ok b, hab => exact hfg a b hab
  | .error _, .error _, herror => exact herror

theorem exists_ok {a : α} (hxy : Alike R x y) (hx : x = .ok a) : ∃ b, y = .ok b ∧ R a b := by
  subst hx
  match y, hxy with
  | .ok b, hab => exact ⟨b, rfl, hab⟩

theorem cases (hxy : Alike R x y) :
    (∃ e, x = .error e ∧ y = .error e) ∨ ∃ a b, x = .ok a ∧ y = .ok b ∧ R a b := by
  match x, y, hxy with
  | .ok a, .ok b, hab => exact Or.inr ⟨a, b, rfl, rfl, hab⟩
  | .error e, .error _, herror => exact Or.inl ⟨e, rfl, congrArg _ herror.symm⟩

theorem eq {x y : Outcome α} (hxy : Alike Eq x y) : x = y := by
  match x, y, hxy with
  | .ok _, .ok _, hab => exact congrArg _ hab
  | .error _, .error _, herror => exact congrArg _ herror

end Alike

end FlowAnalysis
