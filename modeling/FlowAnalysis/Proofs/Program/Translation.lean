import FlowAnalysis.Proofs.Program.Alternatives

/-!
What a translated statement reads. A statement that stands for a value denotes one expression, and the
variables of that expression are those of the statement, occurrence by occurrence, but for two places
where translation looks no further: the prompt of an input, and the operand of a conversion to a type
that the operand does not have. Which conversions these are depends on the type of the operand, so the
type of a statement is found along the way.
-/

namespace FlowAnalysis

namespace Builtin

/-- The type of a call whose operands have the given types. -/
def resultType : Builtin → Ty → List Ty → Ty
  | arithmetic _, type, _ => type
  | sign _, type, _ => type
  | input, type, _ => type
  | cast target, _, _ => target
  | range, _, _ => .list .int
  | length, _, _ => .int
  | keys, _, operand :: _ => .set operand.keyType
  | values, _, operand :: _ => .list operand.valueType
  | _, _, _ => .bool

/-- Whether the expression of a call is made of those of its operands. -/
def keepsOperands : Builtin → List Ty → Bool
  | input, _ => false
  | cast target, operands => decide (operands = [target])
  | _, _ => true

end Builtin

namespace Stmt

mutual

/-- The type of the value that a statement stands for. -/
def type : Stmt → Ty
  | literal _ value => value.type
  | var _ x => x.type
  | item _ type _ _ => type
  | slice _ type _ _ _ _ => type
  | list _ type _ => type
  | set _ type _ => type
  | dict _ type _ _ => type
  | field _ type _ _ => type
  | call _ name type arguments =>
    match Builtin.named? name with
    | some builtin => builtin.resultType type (types arguments)
    | none => type
  | assign _ _ _ => .none
  | ret _ _ => .none
  | raise _ => .none

def types : List Stmt → List Ty
  | [] => []
  | s :: ss => s.type :: types ss

end

mutual

/-- The variables that translation keeps, one for each occurrence. -/
def reads : Stmt → List Identifier
  | literal _ _ => []
  | var _ x => [x]
  | item _ _ target key => target.reads ++ key.reads
  | slice _ _ target lower upper stride =>
    target.reads ++ readsOption lower ++ readsOption upper ++ readsOption stride
  | list _ _ items => readsAll items
  | set _ _ items => readsAll items
  | dict _ _ keys values => readsAll keys ++ readsAll values
  | field _ _ target _ => target.reads
  | call _ name _ arguments =>
    if (Builtin.named? name).all (·.keepsOperands (types arguments)) then readsAll arguments
    else []
  | assign _ left right => left.reads ++ right.reads
  | ret _ values => readsAll values
  | raise _ => []

def readsAll : List Stmt → List Identifier
  | [] => []
  | s :: ss => s.reads ++ readsAll ss

def readsOption : Option Stmt → List Identifier
  | none => []
  | some s => s.reads

end

/-! ### Only variables of the statement are read -/

mutual

theorem reads_sublist : ∀ s : Stmt, s.reads.Sublist s.occurrences
  | literal _ _ => .refl _
  | var _ _ => .refl _
  | item _ _ target key => by
      rw [reads, occurrences]
      exact (reads_sublist target).append (reads_sublist key)
  | slice _ _ target lower upper stride => by
      rw [reads, occurrences]
      exact (((reads_sublist target).append (readsOption_sublist lower)).append
        (readsOption_sublist upper)).append (readsOption_sublist stride)
  | list _ _ items => readsAll_sublist items
  | set _ _ items => readsAll_sublist items
  | dict _ _ keys values => by
      rw [reads, occurrences]
      exact (readsAll_sublist keys).append (readsAll_sublist values)
  | field _ _ target _ => reads_sublist target
  | call _ _ _ arguments => by
      rw [reads, occurrences]
      split
      · exact readsAll_sublist arguments
      · exact List.nil_sublist _
  | assign _ left right => by
      rw [reads, occurrences]
      exact (reads_sublist left).append (reads_sublist right)
  | ret _ values => readsAll_sublist values
  | raise _ => .refl _

theorem readsAll_sublist : ∀ ss : List Stmt, (readsAll ss).Sublist (occurrencesAll ss)
  | [] => .refl _
  | s :: ss => by
      rw [readsAll, occurrencesAll]
      exact (reads_sublist s).append (readsAll_sublist ss)

theorem readsOption_sublist : ∀ s : Option Stmt, (readsOption s).Sublist (occurrencesOption s)
  | none => .refl _
  | some s => reads_sublist s

end

end Stmt

/-! ### One expression -/

namespace Alternatives

/-- Where each operand has one alternative there is one choice. -/
theorem product_singletons (es : List Expr) : product (es.map .singleton) = [es] := by
  suffices hfold : ∀ front : List Expr, (es.map OrderedSet.singleton).foldl
      (fun chosen operand => chosen.flatMap fun front => operand.toList.map fun e => front ++ [e])
      [front] = [front ++ es] from
    hfold []
  induction es with
  | nil =>
      intro front
      rw [List.append_nil]
      rfl
  | cons e es ih =>
      intro front
      rw [List.append_cons]
      exact ih (front ++ [e])

theorem combine_singletons (es : List Expr) {build : List Expr → Option Expr} {e : Expr}
    (hbuild : build es = some e) : combine (es.map .singleton) build = .singleton e := by
  rw [combine, product_singletons, List.filterMap_cons_some hbuild]
  rfl

theorem splitDict_append {type : Ty} {keys values : List Expr} (h : keys.length = values.length) :
    splitDict type (keys ++ values) = .dict type keys values := by
  have hhalf : (keys ++ values).length / 2 = keys.length := by
    rw [List.length_append]
    omega
  rw [splitDict, hhalf, List.take_left, List.drop_left]

end Alternatives

namespace Builtin

theorem type_convert (target : Ty) (e : Expr) : (convert target e).type = target := by
  unfold convert
  split
  · rfl
  · by_cases htype : e.type = target
    · rw [if_pos htype, htype]
    · rw [if_neg htype, Expr.type]

theorem occurrences_convert (target : Ty) (e : Expr) :
    (convert target e).occurrences = if e.type = target then e.occurrences else [] := by
  unfold convert
  split
  · simp [Expr.occurrences]
  · by_cases htype : e.type = target
    · rw [if_pos htype, if_pos htype]
    · rw [if_neg htype, if_neg htype, Expr.occurrences]

theorem type_connectives (op : Connective) (rest : List Expr) {first : Expr}
    (hfirst : first.type = .bool) : (rest.foldl (.connective · op ·) first).type = .bool := by
  induction rest generalizing first with
  | nil => exact hfirst
  | cons e rest ih => exact ih rfl

theorem occurrences_connectives (op : Connective) (rest : List Expr) (first : Expr) :
    (rest.foldl (.connective · op ·) first).occurrences =
      first.occurrences ++ Expr.occurrencesAll rest := by
  induction rest generalizing first with
  | nil => simp [Expr.occurrencesAll]
  | cons e rest ih =>
      rw [List.foldl_cons, ih, Expr.occurrences, Expr.occurrencesAll, List.append_assoc]

/-- What a call builds from an admitted number of operands. -/
theorem exists_build {builtin : Builtin} (type : Ty) {es : List Expr} (hinput : builtin ≠ .input)
    (hprint : builtin ≠ .print) (hadmits : builtin.admits es.length = true) :
    ∃ e, builtin.build type es = some e ∧
      e.type = builtin.resultType type (es.map Expr.type) ∧
      e.occurrences =
        if builtin.keepsOperands (es.map Expr.type) then Expr.occurrencesAll es else [] := by
  have hone : es.length = 1 → ∃ operand, es = [operand] := List.length_eq_one_iff.1
  have htwo : es.length = 2 → ∃ left right, es = [left, right] := by
    intro hlength
    match es, hlength with
    | [left, right], _ => exact ⟨left, right, rfl⟩
  cases builtin with
  | arithmetic op =>
      obtain ⟨left, right, rfl⟩ := htwo (beq_iff_eq.1 hadmits)
      exact ⟨_, rfl, rfl, by simp [Expr.occurrences, Expr.occurrencesAll, keepsOperands]⟩
  | comparison op =>
      obtain ⟨left, right, rfl⟩ := htwo (beq_iff_eq.1 hadmits)
      exact ⟨_, rfl, rfl, by simp [Expr.occurrences, Expr.occurrencesAll, keepsOperands]⟩
  | sign s =>
      obtain ⟨operand, rfl⟩ := hone (beq_iff_eq.1 hadmits)
      exact ⟨_, rfl, rfl, by simp [Expr.occurrences, Expr.occurrencesAll, keepsOperands]⟩
  | not =>
      obtain ⟨operand, rfl⟩ := hone (beq_iff_eq.1 hadmits)
      exact ⟨_, rfl, rfl, by simp [Expr.occurrences, Expr.occurrencesAll, keepsOperands]⟩
  | connective op =>
      match es, hadmits with
      | first :: second :: rest, _ =>
          refine ⟨_, rfl, type_connectives op rest rfl, ?_⟩
          rw [List.foldl_cons, occurrences_connectives]
          simp [Expr.occurrences, Expr.occurrencesAll, keepsOperands]
  | range =>
      match es, hadmits with
      | [stop], _ =>
          exact ⟨_, rfl, rfl,
            by simp [Expr.occurrences, Expr.occurrencesAll, Expr.ofInt, keepsOperands]⟩
      | [start, stop], _ =>
          exact ⟨_, rfl, rfl,
            by simp [Expr.occurrences, Expr.occurrencesAll, Expr.ofInt, keepsOperands]⟩
      | [start, stop, step], _ =>
          exact ⟨_, rfl, rfl, by simp [Expr.occurrences, Expr.occurrencesAll, keepsOperands]⟩
  | length =>
      obtain ⟨target, rfl⟩ := hone (beq_iff_eq.1 hadmits)
      exact ⟨_, rfl, rfl, by simp [Expr.occurrences, Expr.occurrencesAll, keepsOperands]⟩
  | keys =>
      obtain ⟨target, rfl⟩ := hone (beq_iff_eq.1 hadmits)
      exact ⟨_, rfl, rfl, by simp [Expr.occurrences, Expr.occurrencesAll, keepsOperands]⟩
  | values =>
      obtain ⟨target, rfl⟩ := hone (beq_iff_eq.1 hadmits)
      exact ⟨_, rfl, rfl, by simp [Expr.occurrences, Expr.occurrencesAll, keepsOperands]⟩
  | input => exact absurd rfl hinput
  | cast target =>
      obtain ⟨operand, rfl⟩ := hone (beq_iff_eq.1 hadmits)
      refine ⟨_, rfl, type_convert target operand, ?_⟩
      simp [occurrences_convert, Expr.occurrencesAll, keepsOperands]
  | print => exact absurd rfl hprint

end Builtin

namespace Stmt

open Alternatives

theorem length_of_types {ss : List Stmt} {es : List Expr} (h : es.map Expr.type = types ss) :
    es.length = ss.length := by
  have hlength : ∀ ss : List Stmt, (types ss).length = ss.length := by
    intro ss
    induction ss with
    | nil => rfl
    | cons s ss ih => rw [types, List.length_cons, List.length_cons, ih]
  rw [← hlength ss, ← h, List.length_map]

mutual

/-- A statement that stands for a value denotes one expression; it has the type of the statement and
reads what translation keeps of it. -/
theorem alternatives_eq_singleton : ∀ (s : Stmt) {found : Alternatives},
    s.alternatives = .ok found →
      ∃ e, found = .singleton e ∧ e.type = s.type ∧ e.occurrences = s.reads
  | literal _ value, found, h => by
      obtain rfl := pure_eq_ok.1 h
      exact ⟨_, rfl, rfl, rfl⟩
  | var _ x, found, h => by
      obtain rfl := pure_eq_ok.1 h
      exact ⟨_, rfl, rfl, rfl⟩
  | item _ type target key, found, h => by
      rw [alternatives] at h
      obtain ⟨targets, htargets, h⟩ := bind_eq_ok.1 h
      obtain ⟨keys, hkeys, h⟩ := bind_eq_ok.1 h
      obtain rfl := pure_eq_ok.1 h
      obtain ⟨target', rfl, -, htarget⟩ := alternatives_eq_singleton target htargets
      obtain ⟨key', rfl, -, hkey⟩ := alternatives_eq_singleton key hkeys
      refine ⟨.item type target' key', combine_singletons [target', key'] rfl, rfl, ?_⟩
      rw [Expr.occurrences, reads, htarget, hkey]
  | slice _ type target lower upper stride, found, h => by
      rw [alternatives] at h
      obtain ⟨targets, htargets, h⟩ := bind_eq_ok.1 h
      obtain ⟨lowers, hlowers, h⟩ := bind_eq_ok.1 h
      obtain ⟨uppers, huppers, h⟩ := bind_eq_ok.1 h
      obtain ⟨strides, hstrides, h⟩ := bind_eq_ok.1 h
      obtain rfl := pure_eq_ok.1 h
      obtain ⟨target', rfl, -, htarget⟩ := alternatives_eq_singleton target htargets
      obtain ⟨lower', rfl, hlower⟩ := alternativesOption_eq_singleton lower hlowers
      obtain ⟨upper', rfl, hupper⟩ := alternativesOption_eq_singleton upper huppers
      obtain ⟨stride', rfl, hstride⟩ := alternativesOption_eq_singleton stride hstrides
      refine ⟨.slice type target' lower' upper' stride', rfl, rfl, ?_⟩
      rw [Expr.occurrences, reads, htarget, hlower, hupper, hstride]
  | list _ type items, found, h => by
      rw [alternatives] at h
      obtain ⟨operands, hoperands, h⟩ := bind_eq_ok.1 h
      obtain rfl := pure_eq_ok.1 h
      obtain ⟨items', rfl, -, hitems⟩ := alternativesEach_eq_singletons items hoperands
      refine ⟨.list type items', combine_singletons items' rfl, rfl, ?_⟩
      rw [Expr.occurrences, reads, hitems]
  | set _ type items, found, h => by
      rw [alternatives] at h
      obtain ⟨operands, hoperands, h⟩ := bind_eq_ok.1 h
      obtain rfl := pure_eq_ok.1 h
      obtain ⟨items', rfl, -, hitems⟩ := alternativesEach_eq_singletons items hoperands
      refine ⟨.set type items', combine_singletons items' rfl, rfl, ?_⟩
      rw [Expr.occurrences, reads, hitems]
  | dict _ type keys values, found, h => by
      rw [alternatives] at h
      split at h
      · exact absurd h throw_ne_ok
      · rename_i hlength
        obtain ⟨operands, hoperands, h⟩ := bind_eq_ok.1 h
        obtain ⟨operands', hoperands', h⟩ := bind_eq_ok.1 h
        obtain rfl := pure_eq_ok.1 h
        obtain ⟨keys', rfl, hktypes, hkeys⟩ := alternativesEach_eq_singletons keys hoperands
        obtain ⟨values', rfl, hvtypes, hvalues⟩ := alternativesEach_eq_singletons values hoperands'
        have hsame : keys'.length = values'.length := by
          rw [length_of_types hktypes, length_of_types hvtypes]
          exact Decidable.not_not.1 hlength
        rw [← List.map_append]
        refine ⟨.dict type keys' values', combine_singletons _ ?_, rfl, ?_⟩
        · rw [splitDict_append hsame]
        · rw [Expr.occurrences, reads, hkeys, hvalues]
  | field _ type target name, found, h => by
      rw [alternatives] at h
      obtain ⟨targets, htargets, h⟩ := bind_eq_ok.1 h
      obtain rfl := pure_eq_ok.1 h
      obtain ⟨target', rfl, -, htarget⟩ := alternatives_eq_singleton target htargets
      refine ⟨.field type target' name, rfl, rfl, ?_⟩
      rw [Expr.occurrences, reads, htarget]
  | call _ name type arguments, found, h => by
      obtain ⟨builtin, hname, hprint, hadmits, hfound⟩ := alternatives_call_eq_ok_iff.1 h
      rw [Stmt.type, reads, hname]
      rcases hfound with ⟨rfl, rfl⟩ | ⟨hinput, operands, hoperands, rfl⟩
      · exact ⟨_, rfl, rfl, rfl⟩
      · obtain ⟨es, rfl, htypes, hreads⟩ := alternativesEach_eq_singletons arguments hoperands
        obtain ⟨e, hbuild, htype, hread⟩ := Builtin.exists_build type hinput hprint
          (length_of_types htypes ▸ hadmits)
        refine ⟨e, combine_singletons es hbuild, ?_, ?_⟩
        · rw [htype, htypes]
        · rw [hread, htypes, hreads]
          rfl
  | assign _ _ _, _, h => absurd h throw_ne_ok
  | ret _ _, _, h => absurd h throw_ne_ok
  | raise _, _, h => absurd h throw_ne_ok

theorem alternativesEach_eq_singletons : ∀ (ss : List Stmt) {operands : List Alternatives},
    alternativesEach ss = .ok operands →
      ∃ es : List Expr, operands = es.map .singleton ∧ es.map Expr.type = types ss ∧
        Expr.occurrencesAll es = readsAll ss
  | [], operands, h => by
      obtain rfl := pure_eq_ok.1 h
      exact ⟨[], rfl, rfl, rfl⟩
  | s :: ss, operands, h => by
      rw [alternativesEach] at h
      obtain ⟨first, hfirst, h⟩ := bind_eq_ok.1 h
      obtain ⟨rest, hrest, h⟩ := bind_eq_ok.1 h
      obtain rfl := pure_eq_ok.1 h
      obtain ⟨e, rfl, htype, hread⟩ := alternatives_eq_singleton s hfirst
      obtain ⟨es, rfl, htypes, hreads⟩ := alternativesEach_eq_singletons ss hrest
      refine ⟨e :: es, rfl, ?_, ?_⟩
      · rw [List.map_cons, types, htype, htypes]
      · rw [Expr.occurrencesAll, readsAll, hread, hreads]

theorem alternativesOption_eq_singleton : ∀ (s : Option Stmt) {found : List (Option Expr)},
    alternativesOption s = .ok found →
      ∃ e, found = [e] ∧ Expr.occurrencesOption e = readsOption s
  | none, found, h => by
      obtain rfl := pure_eq_ok.1 h
      exact ⟨none, rfl, rfl⟩
  | some s, found, h => by
      rw [alternativesOption] at h
      obtain ⟨first, hfirst, h⟩ := bind_eq_ok.1 h
      obtain rfl := pure_eq_ok.1 h
      obtain ⟨e, rfl, -, hread⟩ := alternatives_eq_singleton s hfirst
      exact ⟨some e, rfl, hread⟩

end

/-- The expression that a statement denotes, if it stands for a value. -/
def denoted? (s : Stmt) : Option Expr := s.alternatives.toOption.bind fun found => found.toList.head?

theorem denoted?_of_alternatives {s : Stmt} {found : Alternatives} (h : s.alternatives = .ok found) :
    ∃ e, s.denoted? = some e ∧ found = .singleton e ∧ e.occurrences ⊆ s.occurrences := by
  obtain ⟨e, rfl, -, hreads⟩ := s.alternatives_eq_singleton h
  refine ⟨e, ?_, rfl, hreads ▸ (reads_sublist s).subset⟩
  rw [denoted?, h]
  rfl

theorem occurrences_of_denoted? {s : Stmt} {e : Expr} (h : s.denoted? = some e) :
    e.occurrences ⊆ s.occurrences := by
  obtain ⟨found, hfound, -⟩ := Option.bind_eq_some_iff.1 h
  obtain ⟨e', he', -, hreads⟩ := denoted?_of_alternatives (toOption_eq_some.1 hfound)
  exact Option.some.inj (h.symm.trans he') ▸ hreads

theorem mapM_denoted? {ss : List Stmt} {operands : List Alternatives}
    (h : alternativesEach ss = .ok operands) :
    ∃ es, ss.mapM denoted? = some es ∧ operands = es.map .singleton ∧
      ∀ e ∈ es, e.occurrences ⊆ occurrencesAll ss := by
  induction ss generalizing operands with
  | nil =>
      obtain rfl := pure_eq_ok.1 h
      exact ⟨[], rfl, rfl, by simp⟩
  | cons s ss ih =>
      rw [alternativesEach] at h
      obtain ⟨first, hfirst, h⟩ := bind_eq_ok.1 h
      obtain ⟨rest, hrest, h⟩ := bind_eq_ok.1 h
      obtain rfl := pure_eq_ok.1 h
      obtain ⟨e, he, rfl, hsubset⟩ := denoted?_of_alternatives hfirst
      obtain ⟨es, hes, rfl, hall⟩ := ih hrest
      refine ⟨e :: es, by simp [he, hes], rfl, ?_⟩
      rw [occurrencesAll]
      intro e' he'
      rcases List.mem_cons.1 he' with rfl | he'
      · exact List.subset_append_of_subset_left _ hsubset
      · exact List.subset_append_of_subset_right _ (hall e' he')

/-- What a list of statements denotes together has what each of them denotes. -/
theorem mapM_denoted?_of_alternativesOf {ss : List Stmt} {found : Alternatives}
    (h : alternativesOf ss = .ok found) :
    ∃ es, ss.mapM denoted? = some es ∧ (∀ e ∈ es, e ∈ found) ∧
      ∀ e ∈ es, e.occurrences ⊆ occurrencesAll ss := by
  have hunion : ∀ (es : List Expr) (start : Alternatives) (e : Expr), e ∈ start ∨ e ∈ es →
      e ∈ (es.map OrderedSet.singleton).foldl .union start := by
    intro es
    induction es with
    | nil =>
        intro start e he
        exact he.elim id fun he => absurd he List.not_mem_nil
    | cons first es ih =>
        intro start e he
        refine ih _ e ?_
        rw [List.mem_cons, ← or_assoc] at he
        exact he.imp_left fun he => OrderedSet.mem_insertAll.2
          (he.imp_right fun heq => List.mem_singleton.2 heq)
  obtain ⟨operands, hoperands, h⟩ := bind_eq_ok.1 h
  obtain rfl := pure_eq_ok.1 h
  obtain ⟨es, hes, rfl, hall⟩ := mapM_denoted? hoperands
  exact ⟨es, hes, fun e he => hunion es _ e (Or.inr he), hall⟩

end Stmt

end FlowAnalysis
