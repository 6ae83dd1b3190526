import FlowAnalysis.Interval.Evaluate
import FlowAnalysis.Proofs.Outcome

/-!
Evaluation in two environments. A relation between intervals that every operation of the evaluation respects
carries over from what two environments say of the variables of an expression to its ranges, and the expression
fails in both with the same error or in neither. It follows that only the variables of an expression matter, and
that whether it has a range does not depend on the environment at all. Only the length of a range counts steps, so
that a relation which the count does not respect still carries over to expressions without such a length.
-/

namespace FlowAnalysis

/-! ### Lengths of ranges -/

namespace Expr

mutual

/-- Whether `p` holds of the expression or of one of its parts. -/
def anyPart (p : Expr → Bool) : Expr → Bool
  | literal value => p (literal value)
  | var x => p (var x)
  | input type => p (input type)
  | list type items => p (list type items) || anyPartOf p items
  | set type items => p (set type items) || anyPartOf p items
  | dict type ks vs => p (dict type ks vs) || anyPartOf p ks || anyPartOf p vs
  | range start stop step =>
    p (range start stop step) || start.anyPart p || stop.anyPart p || step.anyPart p
  | length target => p (length target) || target.anyPart p
  | keys target => p (keys target) || target.anyPart p
  | values target => p (values target) || target.anyPart p
  | field type target name => p (field type target name) || target.anyPart p
  | item type target key => p (item type target key) || target.anyPart p || key.anyPart p
  | slice type target lower upper stride =>
    p (slice type target lower upper stride) || target.anyPart p || anyPartOption p lower
      || anyPartOption p upper || anyPartOption p stride
  | signed type sign operand => p (signed type sign operand) || operand.anyPart p
  | not operand => p (not operand) || operand.anyPart p
  | arithmetic type left op right =>
    p (arithmetic type left op right) || left.anyPart p || right.anyPart p
  | connective left op right => p (connective left op right) || left.anyPart p || right.anyPart p
  | compare left op right => p (compare left op right) || left.anyPart p || right.anyPart p

/-- Whether `p` holds of a part of one of the expressions. -/
def anyPartOf (p : Expr → Bool) : List Expr → Bool
  | [] => false
  | e :: es => e.anyPart p || anyPartOf p es

def anyPartOption (p : Expr → Bool) : Option Expr → Bool
  | none => false
  | some e => e.anyPart p

end

def isRange : Expr → Bool
  | range _ _ _ => true
  | _ => false

def hasRange (e : Expr) : Bool := e.anyPart isRange

/-- Whether the expression is the length of something with a range in it. -/
def measuresRange : Expr → Bool
  | length target => target.hasRange
  | _ => false

/-- Whether the length of something with a range in it is taken in the expression. -/
def countsRange (e : Expr) : Bool := e.anyPart measuresRange

end Expr

/-! ### Related environments -/

/-- Operations take related intervals to related ones. -/
structure Interval.Respected (R : Interval → Interval → Prop) : Prop where
  refl : ∀ a, R a a
  neg : ∀ {a b}, R a b → R a.neg b.neg
  negation : ∀ {a b}, R a b → R a.truthValue.negation b.truthValue.negation
  arithmetic : ∀ op {a b c d}, R a b → R c d → R (.arithmetic op a c) (.arithmetic op b d)
  connective : ∀ op {a b c d}, R a b → R c d →
    R (.connective op a.truthValue c.truthValue) (.connective op b.truthValue d.truthValue)
  comparison : ∀ op {a b c d}, R a b → R c d → R (.comparison op a c) (.comparison op b d)
  item : ∀ (type : Ty) {a b}, R a b → R (if type.isNumeric || a.isBottom then a else .top)
    (if type.isNumeric || b.isBottom then b else .top)
  part : ∀ {a b}, R a b → R (.of 0 a.upper) (.of 0 b.upper)

/-- Counting steps takes related intervals to related ones. -/
def Interval.CountRespected (R : Interval → Interval → Prop) : Prop :=
  ∀ ⦃a a' b b' c c'⦄, R a a' → R b b' → R c c' → R (.stepCount a b c) (.stepCount a' b' c')

theorem Interval.respected_eq : Respected Eq where
  refl _ := rfl
  neg h := h ▸ rfl
  negation h := h ▸ rfl
  arithmetic _ _ _ _ _ h h' := h ▸ h' ▸ rfl
  connective _ _ _ _ _ h h' := h ▸ h' ▸ rfl
  comparison _ _ _ _ _ h h' := h ▸ h' ▸ rfl
  item _ _ _ h := h ▸ rfl
  part h := h ▸ rfl

theorem Interval.countRespected_eq : CountRespected Eq := by
  rintro _ _ _ _ _ _ rfl rfl rfl
  rfl

theorem Interval.respected_true : Respected fun _ _ => True := by
  constructor <;> intros <;> trivial

theorem Interval.countRespected_true : CountRespected fun _ _ => True :=
  fun _ _ _ _ _ _ _ _ _ => trivial

/-- What two environments know of the variables that are `read` is related. -/
structure Environment.Related (R : Interval → Interval → Prop) (read : Identifier → Prop)
    (env env' : Environment) : Prop where
  value : ∀ x, read x → R (env.value x) (env'.value x)
  length : ∀ x, read x → R (env.value x.lengthOf) (env'.value x.lengthOf)
  element : ∀ x, read x → ∀ {key key'}, R key key' → R (env.element x key) (env'.element x key')

variable {R : Interval → Interval → Prop} {read : Identifier → Prop} {env env' : Environment}

theorem Environment.Related.itemOf (h : env.Related R read env') (hR : Interval.Respected R) (type : Ty)
    (target : Expr) (hread : ∀ x ∈ target.occurrences, read x) {key key' : Interval} (hkey : R key key') :
    R (env.itemOf type target key) (env'.itemOf type target key') := by
  cases target with
  | var container =>
      rw [Environment.itemOf, Environment.itemOf]
      split
      · exact hR.item type (h.element container (hread container (List.mem_singleton.2 rfl)) hkey)
      · exact hR.refl _
  | _ => exact hR.refl _

/-- What follows from either of two answers follows from each. -/
theorem imp_of_or {p q : Bool} {P : Prop} (h : (p || q) = true → P) : (p = true → P) ∧ (q = true → P) := by
  rwa [Bool.or_eq_true, or_imp] at h

mutual

theorem evaluate_alike (hR : Interval.Respected R) (h : env.Related R read env') :
    ∀ e : Expr, (∀ x ∈ e.occurrences, read x) → (e.countsRange = true → Interval.CountRespected R) →
      Alike R (evaluate env e) (evaluate env' e)
  | .literal value, _, _ => by
      rw [evaluate, evaluate]
      split
      · exact Alike.pure (hR.refl _)
      · exact Alike.pure (hR.refl _)
  | .var x, hread, _ => by
      rw [evaluate, evaluate]
      split
      · exact Alike.pure (h.value x (hread x (List.mem_singleton.2 rfl)))
      · exact Alike.pure (hR.refl _)
  | .input _, _, _ => hR.refl _
  | .list _ _, _, _ => hR.refl _
  | .set _ _, _, _ => hR.refl _
  | .dict _ _ _, _, _ => hR.refl _
  | .range _ _ _, _, _ => hR.refl _
  | .length target, hread, hcount =>
      length_alike hR h target hread (imp_of_or (p := target.hasRange) hcount).1
  | .keys _, _, _ => hR.refl _
  | .values _, _, _ => hR.refl _
  | .field _ _ _, _, _ => rfl
  | .item type target key, hread, hcount => by
      obtain ⟨htarget, hkey⟩ := List.forall_mem_append.1 hread
      rw [evaluate, evaluate]
      exact (evaluate_alike hR h key hkey (imp_of_or (q := key.countsRange) hcount).2).bind fun _ _ hab =>
        Alike.pure (h.itemOf hR type target htarget hab)
  | .slice _ _ _ _ _, _, _ => hR.refl _
  | .signed _ sign operand, hread, hcount => by
      rw [evaluate, evaluate]
      refine (evaluate_alike hR h operand hread hcount).bind fun _ _ hab => ?_
      cases sign with
      | plus => exact Alike.pure hab
      | minus => exact Alike.pure (hR.neg hab)
  | .not operand, hread, hcount => by
      rw [evaluate, evaluate]
      exact (evaluate_alike hR h operand hread hcount).bind fun _ _ hab => Alike.pure (hR.negation hab)
  | .arithmetic type left op right, hread, hcount => by
      obtain ⟨hleft, hright⟩ := List.forall_mem_append.1 hread
      obtain ⟨hcountLeft, hcountRight⟩ := imp_of_or (p := left.countsRange) (q := right.countsRange) hcount
      rw [evaluate, evaluate]
      split
      · exact (evaluate_alike hR h left hleft hcountLeft).bind fun _ _ hab =>
          (evaluate_alike hR h right hright hcountRight).bind fun _ _ hcd => Alike.pure (hR.arithmetic op hab hcd)
      · exact Alike.pure (hR.refl _)
  | .connective left op right, hread, hcount => by
      obtain ⟨hleft, hright⟩ := List.forall_mem_append.1 hread
      obtain ⟨hcountLeft, hcountRight⟩ := imp_of_or (p := left.countsRange) (q := right.countsRange) hcount
      rw [evaluate, evaluate]
      exact (evaluate_alike hR h left hleft hcountLeft).bind fun _ _ hab =>
        (evaluate_alike hR h right hright hcountRight).bind fun _ _ hcd => Alike.pure (hR.connective op hab hcd)
  | .compare left op right, hread, hcount => by
      obtain ⟨hleft, hright⟩ := List.forall_mem_append.1 hread
      obtain ⟨hcountLeft, hcountRight⟩ := imp_of_or (p := left.countsRange) (q := right.countsRange) hcount
      rw [evaluate, evaluate]
      split
      · exact (evaluate_alike hR h left hleft hcountLeft).bind fun _ _ hab =>
          (evaluate_alike hR h right hright hcountRight).bind fun _ _ hcd => Alike.pure (hR.comparison op hab hcd)
      · exact Alike.pure (hR.refl _)

theorem length_alike (hR : Interval.Respected R) (h : env.Related R read env') :
    ∀ e : Expr, (∀ x ∈ e.occurrences, read x) → (e.hasRange = true → Interval.CountRespected R) →
      Alike R (length env e) (length env' e)
  | .var x, hread, _ => by
      rw [length, length]
      split
      · exact Alike.pure (h.length x (hread x (List.mem_singleton.2 rfl)))
      · exact Alike.pure (hR.refl _)
  | .literal value, _, _ => by cases value <;> exact hR.refl _
  | .list _ _, _, _ => hR.refl _
  | .set _ _, _, _ => hR.refl _
  | .dict _ _ _, _, _ => hR.refl _
  | .range start stop step, hread, hcount => by
      obtain ⟨hrest, hstep⟩ := List.forall_mem_append.1 hread
      obtain ⟨hstart, hstop⟩ := List.forall_mem_append.1 hrest
      have hcount : Interval.CountRespected R := hcount rfl
      rw [length, length]
      exact (evaluate_alike hR h start hstart fun _ => hcount).bind fun _ _ ha =>
        (evaluate_alike hR h stop hstop fun _ => hcount).bind fun _ _ hb =>
          (evaluate_alike hR h step hstep fun _ => hcount).bind fun _ _ hc => Alike.pure (hcount ha hb hc)
  | .keys target, hread, hcount => length_alike hR h target hread hcount
  | .values target, hread, hcount => length_alike hR h target hread hcount
  | .slice _ target _ _ _, hread, hcount => by
      obtain ⟨hrest, -⟩ := List.forall_mem_append.1 hread
      obtain ⟨hrest, -⟩ := List.forall_mem_append.1 hrest
      obtain ⟨htarget, -⟩ := List.forall_mem_append.1 hrest
      obtain ⟨hcountRest, -⟩ := imp_of_or hcount
      obtain ⟨hcountRest, -⟩ := imp_of_or hcountRest
      obtain ⟨hcountTarget, -⟩ := imp_of_or (p := target.hasRange) hcountRest
      rw [length, length]
      exact (length_alike hR h target htarget hcountTarget).bind fun _ _ hab => Alike.pure (hR.part hab)
  | .arithmetic type left op right, hread, hcount => by
      obtain ⟨hleft, hright⟩ := List.forall_mem_append.1 hread
      obtain ⟨hcountLeft, hcountRight⟩ := imp_of_or (p := left.hasRange) (q := right.hasRange) hcount
      cases op with
      | add =>
          rw [length, length]
          split
          · exact (length_alike hR h left hleft hcountLeft).bind fun _ _ hab =>
              (length_alike hR h right hright hcountRight).bind fun _ _ hcd => Alike.pure (hR.arithmetic .add hab hcd)
          · exact Alike.pure (hR.refl _)
      | _ => exact hR.refl _
  | .input _, _, _ => hR.refl _
  | .length _, _, _ => hR.refl _
  | .field _ _ _, _, _ => hR.refl _
  | .item _ _ _, _, _ => hR.refl _
  | .signed _ _ _, _, _ => hR.refl _
  | .not _, _, _ => hR.refl _
  | .connective _ _ _, _, _ => hR.refl _
  | .compare _ _ _, _, _ => hR.refl _

end

/-- The range of an expression depends on its variables only. -/
theorem evaluate_congr {e : Expr} (h : env.Related Eq read env') (hread : ∀ x ∈ e.occurrences, read x) :
    evaluate env e = evaluate env' e :=
  (evaluate_alike Interval.respected_eq h e hread fun _ => Interval.countRespected_eq).eq

/-- An expression that has a range in one environment has one in all. -/
theorem exists_evaluate {e : Expr} {a : Interval} (h : evaluate env e = .ok a) (env' : Environment) :
    ∃ b, evaluate env' e = .ok b := by
  have hany : env.Related (fun _ _ => True) (fun _ => True) env' := by constructor <;> intros <;> trivial
  have halike := evaluate_alike Interval.respected_true hany e (fun _ _ => trivial) fun _ =>
    Interval.countRespected_true
  obtain ⟨b, hb, -⟩ := halike.exists_ok h
  exact ⟨b, hb⟩

end FlowAnalysis
