import FlowAnalysis.Proofs.Program.Translation

/-!
Which statements stand for values, and for which. The statements that translation accepts are those of a
grammar of expressions: every part must be one, and only the prompt of an input is not looked at. What
an accepted statement denotes is one expression, related to it part by part.
-/

namespace FlowAnalysis

theorem OrderedSet.eq_singleton_iff {α : Type} [DecidableEq α] {s : OrderedSet α} {a : α} :
    s = singleton a ↔ s.toList = [a] := by
  cases s
  exact OrderedSet.mk.injEq .. ▸ Iff.rfl

/-! ### Calls that have a value -/

/-- Whether a call by this name and with this many arguments has a value. -/
def callable (name : String) (count : Nat) : Bool :=
  if name ∈ ["add", "sub", "mult", "div", "eq", "noteq", "lt", "lte", "gt", "gte", "is", "isnot", "in",
      "notin"] then
    count = 2
  else if name ∈ ["uadd", "usub", "not", "len", "keys", "values", "int", "float", "bool", "str"] then
    count = 1
  else if name ∈ ["and", "or"] then
    2 ≤ count
  else if name = "range" then
    1 ≤ count && count ≤ 3
  else
    name = "input" && count ≤ 1

theorem callable_iff {name : String} {count : Nat} : callable name count = true ↔
    ∃ builtin, Builtin.named? name = some builtin ∧ builtin ≠ .print ∧ builtin.admits count = true := by
  unfold Builtin.named?
  split
  -- the last case is a name that neither table has
  case h_30 =>
      simp only [callable, List.mem_cons, List.not_mem_nil]
      grind
  all_goals simp [callable, Builtin.admits]

theorem admits_of_callable {name : String} {count : Nat} {builtin : Builtin}
    (hname : Builtin.named? name = some builtin) (h : callable name count = true) :
    builtin ≠ .print ∧ builtin.admits count = true := by
  obtain ⟨builtin', hname', hprint, hadmits⟩ := callable_iff.1 h
  obtain rfl := Option.some.inj (hname.symm.trans hname')
  exact ⟨hprint, hadmits⟩

namespace Builtin

theorem named?_eq_input {name : String} : named? name = some .input ↔ name = "input" := by
  constructor
  · intro h
    unfold named? at h
    split at h
    all_goals first | rfl | simp at h
  · rintro rfl
    rfl

end Builtin

namespace Stmt

open Alternatives

/-! ### The grammar -/

mutual

/-- Whether a statement stands for a value. -/
def isExpression : Stmt → Bool
  | literal _ _ => true
  | var _ _ => true
  | item _ _ target key => target.isExpression && key.isExpression
  | slice _ _ target lower upper stride =>
    target.isExpression && isExpressionOption lower && isExpressionOption upper
      && isExpressionOption stride
  | list _ _ items => areExpressions items
  | set _ _ items => areExpressions items
  | dict _ _ keys values => keys.length == values.length && areExpressions keys && areExpressions values
  | field _ _ target _ => target.isExpression
  | call _ name _ arguments =>
    callable name arguments.length && (name == "input" || areExpressions arguments)
  | assign _ _ _ => false
  | ret _ _ => false
  | raise _ => false

def areExpressions : List Stmt → Bool
  | [] => true
  | s :: ss => s.isExpression && areExpressions ss

def isExpressionOption : Option Stmt → Bool
  | none => true
  | some s => s.isExpression

end

/-! ### The expression of a statement -/

mutual

/-- The expression that a statement stands for. -/
inductive Translates : Stmt → Expr → Prop where
  | literal {point : Point} {value : Literal} : Translates (.literal point value) (.literal value)
  | var {point : Point} {x : Identifier} : Translates (.var point x) (.var x)
  | item {point : Point} {type : Ty} {target key : Stmt} {target' key' : Expr}
      (htarget : Translates target target') (hkey : Translates key key') :
      Translates (.item point type target key) (.item type target' key')
  | slice {point : Point} {type : Ty} {target : Stmt} {lower upper stride : Option Stmt}
      {target' : Expr} {lower' upper' stride' : Option Expr} (htarget : Translates target target')
      (hlower : TranslatesOption lower lower') (hupper : TranslatesOption upper upper')
      (hstride : TranslatesOption stride stride') :
      Translates (.slice point type target lower upper stride)
        (.slice type target' lower' upper' stride')
  | list {point : Point} {type : Ty} {items : List Stmt} {items' : List Expr}
      (hitems : TranslatesEach items items') :
      Translates (.list point type items) (.list type items')
  | set {point : Point} {type : Ty} {items : List Stmt} {items' : List Expr}
      (hitems : TranslatesEach items items') :
      Translates (.set point type items) (.set type items')
  | dict {point : Point} {type : Ty} {keys values : List Stmt} {keys' values' : List Expr}
      (hentries : TranslatesEntries keys values keys' values') :
      Translates (.dict point type keys values) (.dict type keys' values')
  | field {point : Point} {type : Ty} {target : Stmt} {name : String} {target' : Expr}
      (htarget : Translates target target') :
      Translates (.field point type target name) (.field type target' name)
  | input {point : Point} {type : Ty} {arguments : List Stmt} (hprompt : arguments.length ≤ 1) :
      Translates (.call point "input" type arguments) (.input type)
  | call {point : Point} {name : String} {type : Ty} {arguments : List Stmt} {builtin : Builtin}
      {operands : List Expr} {e : Expr} (hname : Builtin.named? name = some builtin)
      (hcallable : callable name arguments.length = true) (hoperands : TranslatesEach arguments operands)
      (hbuild : builtin.build type operands = some e) :
      Translates (.call point name type arguments) e

/-- The expressions of the statements of a list, in their order. -/
inductive TranslatesEach : List Stmt → List Expr → Prop where
  | nil : TranslatesEach [] []
  | cons {s : Stmt} {ss : List Stmt} {e : Expr} {es : List Expr} (hfirst : Translates s e)
      (hrest : TranslatesEach ss es) : TranslatesEach (s :: ss) (e :: es)

/-- The entries of a dictionary: each key stays with its own value. -/
inductive TranslatesEntries : List Stmt → List Stmt → List Expr → List Expr → Prop where
  | nil : TranslatesEntries [] [] [] []
  | cons {key value : Stmt} {keys values : List Stmt} {key' value' : Expr}
      {keys' values' : List Expr} (hkey : Translates key key') (hvalue : Translates value value')
      (hrest : TranslatesEntries keys values keys' values') :
      TranslatesEntries (key :: keys) (value :: values) (key' :: keys') (value' :: values')

/-- The expression of a statement that may be absent. -/
inductive TranslatesOption : Option Stmt → Option Expr → Prop where
  | none : TranslatesOption none none
  | some {s : Stmt} {e : Expr} (h : Translates s e) : TranslatesOption (some s) (some e)

end

theorem TranslatesEach.length_eq {ss : List Stmt} {es : List Expr} (h : TranslatesEach ss es) :
    es.length = ss.length := by
  induction ss generalizing es with
  | nil =>
      cases h
      rfl
  | cons s ss ih =>
      cases h with
      | cons hfirst hrest => rw [List.length_cons, List.length_cons, ih hrest]

theorem translatesEntries_iff {keys values : List Stmt} {keys' values' : List Expr} :
    TranslatesEntries keys values keys' values' ↔
      keys.length = values.length ∧ TranslatesEach keys keys' ∧ TranslatesEach values values' := by
  induction keys generalizing values keys' values' with
  | nil =>
      constructor
      · intro h
        cases h
        exact ⟨rfl, .nil, .nil⟩
      · rintro ⟨hlength, hkeys, hvalues⟩
        obtain rfl := List.length_eq_zero_iff.1 hlength.symm
        cases hkeys
        cases hvalues
        exact .nil
  | cons key keys ih =>
      constructor
      · intro h
        cases h with
        | cons hkey hvalue hrest =>
            obtain ⟨hlength, hkeys, hvalues⟩ := ih.1 hrest
            exact ⟨congrArg (· + 1) hlength, .cons hkey hkeys, .cons hvalue hvalues⟩
      · rintro ⟨hlength, hkeys, hvalues⟩
        cases hkeys with
        | cons hkey hkeys =>
            cases hvalues with
            | nil => exact absurd hlength (Nat.succ_ne_zero _)
            | cons hvalue hvalues =>
                exact .cons hkey hvalue (ih.2 ⟨Nat.succ.inj hlength, hkeys, hvalues⟩)

/-! ### Statements of the grammar have an expression -/

mutual

theorem exists_translates : ∀ s : Stmt, s.isExpression = true → ∃ e, s.Translates e
  | literal _ value, _ => ⟨.literal value, .literal⟩
  | var _ x, _ => ⟨.var x, .var⟩
  | item _ type target key, h => by
      rw [isExpression, Bool.and_eq_true] at h
      obtain ⟨target', htarget⟩ := exists_translates target h.1
      obtain ⟨key', hkey⟩ := exists_translates key h.2
      exact ⟨_, .item htarget hkey⟩
  | slice _ type target lower upper stride, h => by
      rw [isExpression, Bool.and_eq_true, Bool.and_eq_true, Bool.and_eq_true] at h
      obtain ⟨⟨⟨htarget, hlower⟩, hupper⟩, hstride⟩ := h
      obtain ⟨target', htarget⟩ := exists_translates target htarget
      obtain ⟨lower', hlower⟩ := exists_translatesOption lower hlower
      obtain ⟨upper', hupper⟩ := exists_translatesOption upper hupper
      obtain ⟨stride', hstride⟩ := exists_translatesOption stride hstride
      exact ⟨_, .slice htarget hlower hupper hstride⟩
  | list _ type items, h => by
      rw [isExpression] at h
      obtain ⟨items', hitems⟩ := exists_translatesEach items h
      exact ⟨_, .list hitems⟩
  | set _ type items, h => by
      rw [isExpression] at h
      obtain ⟨items', hitems⟩ := exists_translatesEach items h
      exact ⟨_, .set hitems⟩
  | dict _ type keys values, h => by
      rw [isExpression, Bool.and_eq_true, Bool.and_eq_true, beq_iff_eq] at h
      obtain ⟨⟨hlength, hkeys⟩, hvalues⟩ := h
      obtain ⟨keys', hkeys⟩ := exists_translatesEach keys hkeys
      obtain ⟨values', hvalues⟩ := exists_translatesEach values hvalues
      exact ⟨_, .dict (translatesEntries_iff.2 ⟨hlength, hkeys, hvalues⟩)⟩
  | field _ type target name, h => by
      rw [isExpression] at h
      obtain ⟨target', htarget⟩ := exists_translates target h
      exact ⟨_, .field htarget⟩
  | call _ name type arguments, h => by
      rw [isExpression, Bool.and_eq_true, Bool.or_eq_true, beq_iff_eq] at h
      obtain ⟨hcallable, harguments⟩ := h
      obtain ⟨builtin, hname, hprint, hadmits⟩ := callable_iff.1 hcallable
      by_cases hinput : builtin = .input
      · subst hinput
        obtain rfl := Builtin.named?_eq_input.1 hname
        exact ⟨_, .input (of_decide_eq_true hadmits)⟩
      · have hother : name ≠ "input" := by
          rintro rfl
          exact hinput (Option.some.inj hname).symm
        obtain ⟨operands, hoperands⟩ :=
          exists_translatesEach arguments (harguments.resolve_left hother)
        obtain ⟨e, hbuild, -⟩ :=
          Builtin.exists_build type hinput hprint (hoperands.length_eq ▸ hadmits)
        exact ⟨e, .call hname hcallable hoperands hbuild⟩
  | assign _ _ _, h => absurd h Bool.false_ne_true
  | ret _ _, h => absurd h Bool.false_ne_true
  | raise _, h => absurd h Bool.false_ne_true

theorem exists_translatesEach : ∀ ss : List Stmt, areExpressions ss = true → ∃ es, TranslatesEach ss es
  | [], _ => ⟨[], .nil⟩
  | s :: ss, h => by
      rw [areExpressions, Bool.and_eq_true] at h
      obtain ⟨e, hfirst⟩ := exists_translates s h.1
      obtain ⟨es, hrest⟩ := exists_translatesEach ss h.2
      exact ⟨e :: es, .cons hfirst hrest⟩

theorem exists_translatesOption : ∀ s : Option Stmt, isExpressionOption s = true →
    ∃ e, TranslatesOption s e
  | none, _ => ⟨none, .none⟩
  | some s, h => by
      rw [isExpressionOption] at h
      obtain ⟨e, hs⟩ := exists_translates s h
      exact ⟨some e, .some hs⟩

end

/-! ### The expression of a statement is its only alternative -/

mutual

theorem alternatives_of_translates : ∀ (s : Stmt) {e : Expr}, s.Translates e →
    s.alternatives = .ok (.singleton e)
  | literal _ value, _, h => by
      cases h
      rfl
  | var _ x, _, h => by
      cases h
      rfl
  | item _ type target key, _, h => by
      cases h with
      | item htarget hkey =>
          rw [alternatives, alternatives_of_translates target htarget, alternatives_of_translates key hkey]
          rfl
  | slice _ type target lower upper stride, _, h => by
      cases h with
      | slice htarget hlower hupper hstride =>
          rw [alternatives, alternatives_of_translates target htarget,
            alternativesOption_of_translates lower hlower, alternativesOption_of_translates upper hupper,
            alternativesOption_of_translates stride hstride]
          rfl
  | list _ type items, _, h => by
      cases h with
      | list hitems =>
          rw [alternatives, alternativesEach_of_translates items hitems]
          exact congrArg Except.ok (combine_singletons _ rfl)
  | set _ type items, _, h => by
      cases h with
      | set hitems =>
          rw [alternatives, alternativesEach_of_translates items hitems]
          exact congrArg Except.ok (combine_singletons _ rfl)
  | dict _ type keys values, _, h => by
      cases h with
      | @dict _ _ _ _ keys' values' hentries =>
          obtain ⟨hlength, hkeys, hvalues⟩ := translatesEntries_iff.1 hentries
          have hlength' : keys'.length = values'.length := by
            rw [hkeys.length_eq, hvalues.length_eq, hlength]
          rw [alternatives, if_neg (not_not_intro hlength), alternativesEach_of_translates keys hkeys,
            alternativesEach_of_translates values hvalues]
          refine congrArg Except.ok ?_
          rw [← List.map_append, combine_singletons _ (congrArg some (splitDict_append hlength'))]
  | field _ type target name, _, h => by
      cases h with
      | field htarget =>
          rw [alternatives, alternatives_of_translates target htarget]
          rfl
  | call _ name type arguments, _, h => by
      cases h with
      | input hprompt =>
          exact alternatives_call_eq_ok_iff.2
            ⟨.input, rfl, Builtin.noConfusion, decide_eq_true hprompt, Or.inl ⟨rfl, rfl⟩⟩
      | @call _ _ _ _ builtin operands _ hname hcallable hoperands hbuild =>
          obtain ⟨hprint, hadmits⟩ := admits_of_callable hname hcallable
          have hinput : builtin ≠ .input := by
            rintro rfl
            cases hbuild
          have heach := alternativesEach_of_translates arguments hoperands
          exact alternatives_call_eq_ok_iff.2 ⟨builtin, hname, hprint, hadmits,
            Or.inr ⟨hinput, _, heach, (combine_singletons operands hbuild).symm⟩⟩
  | assign _ _ _, _, h => by cases h
  | ret _ _, _, h => by cases h
  | raise _, _, h => by cases h

theorem alternativesEach_of_translates : ∀ (ss : List Stmt) {es : List Expr}, TranslatesEach ss es →
    alternativesEach ss = .ok (es.map .singleton)
  | [], _, h => by
      cases h
      rfl
  | s :: ss, _, h => by
      cases h with
      | cons hfirst hrest =>
          rw [alternativesEach, alternatives_of_translates s hfirst, alternativesEach_of_translates ss hrest]
          rfl

theorem alternativesOption_of_translates : ∀ (s : Option Stmt) {e : Option Expr},
    TranslatesOption s e → alternativesOption s = .ok [e]
  | none, _, h => by
      cases h
      rfl
  | some s, _, h => by
      cases h with
      | some hs =>
          rw [alternativesOption, alternatives_of_translates s hs]
          rfl

end

/-! ### Only statements of the grammar are accepted -/

mutual

theorem isExpression_of_alternatives : ∀ (s : Stmt) {found : Alternatives},
    s.alternatives = .ok found → s.isExpression = true
  | literal _ _, _, _ => rfl
  | var _ _, _, _ => rfl
  | item _ _ target key, _, h => by
      rw [alternatives] at h
      obtain ⟨_, htarget, h⟩ := bind_eq_ok.1 h
      obtain ⟨_, hkey, -⟩ := bind_eq_ok.1 h
      rw [isExpression, isExpression_of_alternatives target htarget, isExpression_of_alternatives key hkey]
      rfl
  | slice _ _ target lower upper stride, _, h => by
      rw [alternatives] at h
      obtain ⟨_, htarget, h⟩ := bind_eq_ok.1 h
      obtain ⟨_, hlower, h⟩ := bind_eq_ok.1 h
      obtain ⟨_, hupper, h⟩ := bind_eq_ok.1 h
      obtain ⟨_, hstride, -⟩ := bind_eq_ok.1 h
      rw [isExpression, isExpression_of_alternatives target htarget,
        isExpressionOption_of_alternatives lower hlower, isExpressionOption_of_alternatives upper hupper,
        isExpressionOption_of_alternatives stride hstride]
      rfl
  | list _ _ items, _, h => by
      rw [alternatives] at h
      obtain ⟨_, hitems, -⟩ := bind_eq_ok.1 h
      rw [isExpression, areExpressions_of_alternatives items hitems]
  | set _ _ items, _, h => by
      rw [alternatives] at h
      obtain ⟨_, hitems, -⟩ := bind_eq_ok.1 h
      rw [isExpression, areExpressions_of_alternatives items hitems]
  | dict _ _ keys values, _, h => by
      rw [alternatives] at h
      split at h
      · exact absurd h throw_ne_ok
      · rename_i hlength
        obtain ⟨_, hkeys, h⟩ := bind_eq_ok.1 h
        obtain ⟨_, hvalues, -⟩ := bind_eq_ok.1 h
        rw [isExpression, areExpressions_of_alternatives keys hkeys,
          areExpressions_of_alternatives values hvalues, beq_iff_eq.2 (Decidable.not_not.1 hlength)]
        rfl
  | field _ _ target _, _, h => by
      rw [alternatives] at h
      obtain ⟨_, htarget, -⟩ := bind_eq_ok.1 h
      rw [isExpression, isExpression_of_alternatives target htarget]
  | call _ name _ arguments, _, h => by
      obtain ⟨builtin, hname, hprint, hadmits, hfound⟩ := alternatives_call_eq_ok_iff.1 h
      rw [isExpression, Bool.and_eq_true, Bool.or_eq_true, beq_iff_eq]
      refine ⟨callable_iff.2 ⟨builtin, hname, hprint, hadmits⟩, ?_⟩
      rcases hfound with ⟨rfl, -⟩ | ⟨-, operands, hoperands, -⟩
      · exact Or.inl (Builtin.named?_eq_input.1 hname)
      · exact Or.inr (areExpressions_of_alternatives arguments hoperands)
  | assign _ _ _, _, h => absurd h throw_ne_ok
  | ret _ _, _, h => absurd h throw_ne_ok
  | raise _, _, h => absurd h throw_ne_ok

theorem areExpressions_of_alternatives : ∀ (ss : List Stmt) {operands : List Alternatives},
    alternativesEach ss = .ok operands → areExpressions ss = true
  | [], _, _ => rfl
  | s :: ss, _, h => by
      rw [alternativesEach] at h
      obtain ⟨_, hfirst, h⟩ := bind_eq_ok.1 h
      obtain ⟨_, hrest, -⟩ := bind_eq_ok.1 h
      rw [areExpressions, isExpression_of_alternatives s hfirst, areExpressions_of_alternatives ss hrest]
      rfl

theorem isExpressionOption_of_alternatives : ∀ (s : Option Stmt) {found : List (Option Expr)},
    alternativesOption s = .ok found → isExpressionOption s = true
  | none, _, _ => rfl
  | some s, _, h => by
      rw [alternativesOption] at h
      obtain ⟨_, hs, -⟩ := bind_eq_ok.1 h
      rw [isExpressionOption, isExpression_of_alternatives s hs]

end

theorem exists_alternatives_iff {s : Stmt} :
    (∃ found, s.alternatives = .ok found) ↔ s.isExpression = true := by
  constructor
  · rintro ⟨found, hfound⟩
    exact isExpression_of_alternatives s hfound
  · intro h
    obtain ⟨e, he⟩ := exists_translates s h
    exact ⟨_, alternatives_of_translates s he⟩

/-- The relation between statements and expressions is what translation computes. -/
theorem alternatives_eq_ok_iff {s : Stmt} {found : Alternatives} :
    s.alternatives = .ok found ↔ ∃ e, found = .singleton e ∧ s.Translates e := by
  constructor
  · intro hfound
    obtain ⟨e, he⟩ := exists_translates s (isExpression_of_alternatives s hfound)
    exact ⟨e, Except.ok.inj (hfound.symm.trans (alternatives_of_translates s he)), he⟩
  · rintro ⟨e, rfl, he⟩
    exact alternatives_of_translates s he

theorem Translates.mem_vars {s : Stmt} {e : Expr} (h : s.Translates e) {x : Identifier}
    (hx : x ∈ e.vars) : x ∈ s.vars := by
  obtain ⟨e', -, heq, hsubset⟩ := denoted?_of_alternatives (alternatives_of_translates s h)
  obtain rfl := List.singleton_inj.1 (congrArg OrderedSet.toList heq)
  exact OrderedSet.mem_ofList.2 (hsubset (OrderedSet.mem_ofList.1 hx))

/-- Translation accepts exactly the statements of the grammar. Each of them has one alternative, the
expression that it translates to part by part, and this reads no variable that the statement does not
access. -/
theorem translation_exact (s : Stmt) :
    ((∃ found, s.alternatives = .ok found) ↔ s.isExpression = true) ∧
      ∀ found, s.alternatives = .ok found ↔
        ∃ e, found.toList = [e] ∧ s.Translates e ∧ ∀ x ∈ e.vars, x ∈ s.vars := by
  refine ⟨exists_alternatives_iff, fun found => ?_⟩
  rw [alternatives_eq_ok_iff]
  refine exists_congr fun e => ?_
  rw [OrderedSet.eq_singleton_iff]
  exact and_congr_right fun _ => (and_iff_left_of_imp fun h _ => h.mem_vars).symm

/-- Errors raised in a prompt do not matter, those in an operand do. -/
example (p : Point) :
    (call p "len" .int [list p (.list .int) [call p "input" .int [raise p]]]).isExpression = true ∧
      (call p "len" .int [list p (.list .int) [call p "int" .int [raise p]]]).isExpression = false :=
  ⟨rfl, rfl⟩

end Stmt

end FlowAnalysis
