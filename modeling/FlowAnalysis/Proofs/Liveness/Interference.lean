import FlowAnalysis.Proofs.Liveness.Least

/-!
Variables that are not live do not interfere. An execution along a path does one act after another: it
assigns, it shows values to its observer, or it tests a guard. Its acts are those that the statements and
guards of the path denote, and nothing is assumed about values but that an expression depends on its
variables and on what it reads from outside. If two stores agree on the variables that are live at the
start of a node, then all paths from there to the exit that raise no error show and test the same in
both. The proof goes along the path from its end: what is live before an act decides what the act shows
and what the variables that are live after it hold.
-/

namespace FlowAnalysis

/-! ### Acts and observations -/

/-- What an execution does in one step. -/
inductive Act where
  | assign (x : Identifier) (value : Expr)
  | assignItem (container : Identifier) (key value : Expr)
  /-- Values are printed or returned. -/
  | output (values : List Expr)
  /-- The value of an expression is computed and dropped. -/
  | evaluate (e : Expr)
  /-- A guard is tested. -/
  | test (condition : Expr)

/-- What an observer sees of an execution. -/
inductive Observation (V : Type) where
  | output (value : V)
  | guard (holds : Bool)

/-- Values and what is done with them. An expression depends on its variables and on what `I` brings in
from outside, and an item assignment makes a new container of the old one, the key and the value. -/
structure Meaning (V I : Type) where
  value : Expr → I → (Identifier → V) → V
  truth : V → Bool
  replace : V → V → V → V
  value_congr : ∀ (e : Expr) (input : I) (σ τ : Identifier → V), (∀ x ∈ e.vars, σ x = τ x) →
    value e input σ = value e input τ

namespace Meaning

variable {V I : Type} (m : Meaning V I)

def apply (input : I) (σ : Identifier → V) : Act → Identifier → V
  | .assign x e, y => if y = x then m.value e input σ else σ y
  | .assignItem container key e, y =>
    if y = container then m.replace (σ container) (m.value key input σ) (m.value e input σ) else σ y
  | _, y => σ y

def shown (input : I) (σ : Identifier → V) : Act → List (Observation V)
  | .output values => values.map fun e => .output (m.value e input σ)
  | .test condition => [.guard (m.truth (m.value condition input σ))]
  | _ => []

/-- What a sequence of acts shows, given what each of them reads from outside. -/
def observe : List Act → (Nat → I) → (Identifier → V) → List (Observation V)
  | [], _, _ => []
  | act :: rest, inputs, σ =>
    m.shown (inputs 0) σ act ++ observe rest (fun k => inputs (k + 1)) (m.apply (inputs 0) σ act)

end Meaning

/-- Stores that agree on some variables cannot be told apart by what acts show. -/
def Fixes (live : OrderedSet Identifier) (acts : List Act) : Prop :=
  ∀ (V I : Type) (m : Meaning V I) (inputs : Nat → I) (σ τ : Identifier → V),
    (∀ x ∈ live, σ x = τ x) → m.observe acts inputs σ = m.observe acts inputs τ

/-- The variables `before` an act decide what it shows and what the variables `after` it hold. -/
structure Act.Covers (act : Act) (before after : OrderedSet Identifier) : Prop where
  shown : ∀ {V I : Type} (m : Meaning V I) (input : I) (σ τ : Identifier → V),
    (∀ x ∈ before, σ x = τ x) → m.shown input σ act = m.shown input τ act
  stores : ∀ {V I : Type} (m : Meaning V I) (input : I) (σ τ : Identifier → V),
    (∀ x ∈ before, σ x = τ x) → ∀ x ∈ after, m.apply input σ act x = m.apply input τ act x

namespace Fixes

variable {live live' : OrderedSet Identifier} {acts : List Act}

theorem nil (live : OrderedSet Identifier) : Fixes live [] := fun _ _ _ _ _ _ _ => rfl

theorem mono (h : Fixes live acts) (hsubset : ∀ x ∈ live, x ∈ live') : Fixes live' acts :=
  fun V I m inputs σ τ hagree => h V I m inputs σ τ fun x hx => hagree x (hsubset x hx)

theorem cons {act : Act} (h : Fixes live acts) (hact : act.Covers live' live) :
    Fixes live' (act :: acts) := by
  intro V I m inputs σ τ hagree
  rw [Meaning.observe, Meaning.observe, hact.shown m (inputs 0) σ τ hagree]
  congr 1
  exact h V I m _ _ _ (hact.stores m (inputs 0) σ τ hagree)

end Fixes

namespace Act

variable {before after : OrderedSet Identifier} {x : Identifier} {e key : Expr}

theorem value_eq {V I : Type} (m : Meaning V I) (input : I) {σ τ : Identifier → V}
    (hagree : ∀ x ∈ before, σ x = τ x) (hreads : ∀ x ∈ e.occurrences, x ∈ before) :
    m.value e input σ = m.value e input τ :=
  m.value_congr e input σ τ fun x hx => hagree x (hreads x (OrderedSet.mem_ofList.1 hx))

/-- An assignment needs nothing if its target does not matter afterwards. -/
theorem covers_assign (hkeep : ∀ y ∈ after, y ≠ x → y ∈ before)
    (hreads : x ∈ after → ∀ y ∈ e.occurrences, y ∈ before) : (assign x e).Covers before after := by
  refine ⟨fun _ _ _ _ _ => rfl, fun m input σ τ hagree y hy => ?_⟩
  rw [Meaning.apply, Meaning.apply]
  by_cases hyx : y = x
  · subst hyx
    rw [if_pos rfl, if_pos rfl, value_eq m input hagree (hreads hy)]
  · rw [if_neg hyx, if_neg hyx, hagree y (hkeep y hy hyx)]

theorem covers_assignItem (hkeep : ∀ y ∈ after, y ∈ before)
    (hreads : x ∈ after → ∀ y, y ∈ key.occurrences ∨ y ∈ e.occurrences → y ∈ before) :
    (assignItem x key e).Covers before after := by
  refine ⟨fun _ _ _ _ _ => rfl, fun m input σ τ hagree y hy => ?_⟩
  rw [Meaning.apply, Meaning.apply]
  by_cases hyx : y = x
  · subst hyx
    rw [if_pos rfl, if_pos rfl, hagree y (hkeep y hy),
      value_eq m input hagree fun z hz => hreads hy z (Or.inl hz),
      value_eq m input hagree fun z hz => hreads hy z (Or.inr hz)]
  · rw [if_neg hyx, if_neg hyx, hagree y (hkeep y hy)]

theorem covers_output {values : List Expr} (hkeep : ∀ y ∈ after, y ∈ before)
    (hreads : ∀ e ∈ values, ∀ y ∈ e.occurrences, y ∈ before) :
    (output values).Covers before after := by
  refine ⟨fun m input σ τ hagree => ?_, fun _ _ _ _ hagree y hy => hagree y (hkeep y hy)⟩
  refine List.map_congr_left fun e he => ?_
  rw [value_eq m input hagree (hreads e he)]

theorem covers_evaluate (hkeep : ∀ y ∈ after, y ∈ before) : (evaluate e).Covers before after :=
  ⟨fun _ _ _ _ _ => rfl, fun _ _ _ _ hagree y hy => hagree y (hkeep y hy)⟩

theorem covers_test (hkeep : ∀ y ∈ after, y ∈ before) (hreads : ∀ y ∈ e.occurrences, y ∈ before) :
    (test e).Covers before after := by
  refine ⟨fun m input σ τ hagree => ?_, fun _ _ _ _ hagree y hy => hagree y (hkeep y hy)⟩
  rw [Meaning.shown, Meaning.shown, value_eq m input hagree hreads]

end Act

/-! ### The acts of a path -/

/-- The act of a statement, if it goes through the expressions that the statement denotes. -/
def Stmt.act? : Stmt → Option Act
  | .assign _ left right =>
    match left.denoted?, right.denoted? with
    | some (.var x), some e => some (.assign x e)
    | some (.item _ (.var container) key), some e => some (.assignItem container key e)
    | _, _ => none
  | .call point name type arguments =>
    if name = "print" then (arguments.mapM denoted?).map .output
    else (Stmt.call point name type arguments).denoted?.map .evaluate
  | .ret _ values => (values.mapM denoted?).map .output
  | .raise _ => none
  | s => s.denoted?.map .evaluate

/-- What stands on a path: statements of its nodes and guards of its edges. -/
inductive Move where
  | perform (statement : Stmt)
  | check (guard : Stmt)

/-- A value that is computed for a guard is tested. -/
def Act.tested : Act → Act
  | .evaluate e => .test e
  | act => act

namespace Move

def statement : Move → Stmt
  | perform statement => statement
  | check guard => guard

def act? : Move → Option Act
  | perform statement => statement.act?
  | check guard => guard.act?.map Act.tested

end Move

namespace Graph

/-- A path along some edges. -/
inductive Path (g : Graph) : Nat → List Edge → Nat → Prop where
  | nil (n : Nat) : Path g n [] n
  | cons {e : Edge} {rest : List Edge} {n : Nat} (he : e ∈ g.edges) (hrest : Path g e.target rest n) :
    Path g e.source (e :: rest) n

/-- What stands on a path from the start of node `n` along some edges, up to the end of its last node. -/
def moves (g : Graph) : Nat → List Edge → List Move
  | n, [] => (g.statementsAt n).map .perform
  | n, e :: rest =>
    (g.statementsAt n).map .perform ++ (e.guard.toList.map .check ++ g.moves e.target rest)

end Graph

/-! ### Statements and guards -/

/-- What a statement can do to a state, with the act that it is. -/
inductive StateDomain.Performed {S Pre : Type} [StateDomain S Pre] (statement : Stmt) (s t : S) :
    Prop where
  /-- What one expression denotes is assigned to another. -/
  | assign {point : Point} {left right : Stmt} {l r : Expr}
      (hstatement : statement = .assign point left right)
      (hleft : left.alternatives = .ok (.singleton l)) (hright : right.alternatives = .ok (.singleton r))
      (hl : left.denoted? = some l) (hr : right.denoted? = some r)
      (hlreads : l.occurrences ⊆ statement.occurrences)
      (hrreads : r.occurrences ⊆ statement.occurrences) : Performed statement s t
  /-- The execution ends. -/
  | raise {point : Point} (hstatement : statement = .raise point) : Performed statement s t
  /-- Values are shown. -/
  | output {es : List Expr} {found : Alternatives} (hact : statement.act? = some (.output es))
      (hfound : ∀ e ∈ es, e ∈ found) (hreads : ∀ e ∈ es, e.occurrences ⊆ statement.occurrences)
      (ht : output s found = .ok t) : Performed statement s t
  /-- What the statement denotes is noted. -/
  | access {e : Expr} (hact : statement.act? = some (.evaluate e))
      (hreads : e.occurrences ⊆ statement.occurrences) (ht : t = withResult s (.singleton e)) :
      Performed statement s t

theorem StateDomain.perform_cases {S Pre : Type} [StateDomain S Pre] {direction : Direction}
    {statement : Stmt} {s t : S} (h : perform direction statement s = .ok t) :
    Performed statement s t := by
  have haccess : (do let found ← statement.alternatives; return withResult s found) = .ok t →
      statement.act? = statement.denoted?.map .evaluate → Performed statement s t := by
    intro h hact
    obtain ⟨found, hfound, h⟩ := bind_eq_ok.1 h
    obtain ⟨e, he, rfl, hreads⟩ := Stmt.denoted?_of_alternatives hfound
    exact .access (by rw [hact, he]; rfl) hreads (pure_eq_ok.1 h).symm
  have houtput : ∀ {values : List Stmt},
      (do let found ← Stmt.alternativesOf values; output s found) = .ok t →
      statement.act? = (values.mapM Stmt.denoted?).map .output →
      Stmt.occurrencesAll values = statement.occurrences → Performed statement s t := by
    intro values h hact hvalues
    obtain ⟨found, hfound, h⟩ := bind_eq_ok.1 h
    obtain ⟨es, hes, hmem, hreads⟩ := Stmt.mapM_denoted?_of_alternativesOf hfound
    exact .output (by rw [hact, hes]; rfl) hmem (hvalues ▸ hreads) h
  cases statement with
  | assign point left right =>
      obtain ⟨ls, hleft, h⟩ := bind_eq_ok.1 h
      obtain ⟨rs, hright, h⟩ := bind_eq_ok.1 h
      obtain ⟨l, hl, rfl, hlreads⟩ := Stmt.denoted?_of_alternatives hleft
      obtain ⟨r, hr, rfl, hrreads⟩ := Stmt.denoted?_of_alternatives hright
      refine .assign rfl hleft hright hl hr ?_ ?_
      · rw [Stmt.occurrences]
        exact List.subset_append_of_subset_left _ hlreads
      · rw [Stmt.occurrences]
        exact List.subset_append_of_subset_right _ hrreads
  | raise point => exact .raise rfl
  | ret point values => exact houtput h rfl rfl
  | call point name type arguments =>
      rw [perform] at h
      by_cases hprint : name = "print"
      · rw [if_pos hprint] at h
        exact houtput h (by rw [Stmt.act?, if_pos hprint]) rfl
      · rw [if_neg hprint] at h
        exact haccess h (by rw [Stmt.act?, if_neg hprint])
  | literal _ _ => exact haccess h rfl
  | var _ _ => exact haccess h rfl
  | item _ _ _ _ => exact haccess h rfl
  | slice _ _ _ _ _ _ => exact haccess h rfl
  | list _ _ _ => exact haccess h rfl
  | set _ _ _ => exact haccess h rfl
  | dict _ _ _ _ => exact haccess h rfl
  | field _ _ _ _ => exact haccess h rfl

namespace LivenessState

variable {s t u : LivenessState} {vars : OrderedSet Identifier} {statement : Stmt}

/-- Using several expressions one by one and joining what comes out makes the variables of all of them
live. -/
theorem uses_of_joinEach (hs : s.Follows vars) (hreachable : s.reachable = true) (items : List Expr)
    (h : StateDomain.joinEach s items (fun s e => pure (s.uses e)) = .ok u) :
    u.reachable = true ∧ (∀ x ∈ s.live, x ∈ u.live) ∧
      ∀ e ∈ items, ∀ x ∈ e.occurrences, x ∈ vars → x ∈ u.live := by
  have hproper := isBottom_eq_false_iff.2 hreachable
  have hu : u.Follows vars := ((follows_closed vars).joinEach hs fun hproper e _ =>
    (follows_closed vars).outputOne e hs hproper).result h
  have hitem : ∀ e ∈ items, (s.uses e).Below u := by
    intro e he
    obtain ⟨t, joined, ht, hle, rfl⟩ := StateDomain.joinEach_covers upperBounds hproper h he
    obtain rfl := pure_eq_ok.1 ht
    have hjoined : joined.Follows vars := ⟨hu.vars_eq, hu.mem_vars, hu.reachable⟩
    have hbelow := ((hs.uses hreachable e).le_iff hjoined).1 hle
    exact ⟨hbelow.reachable, hbelow.live⟩
  cases items with
  | nil =>
      obtain rfl := pure_eq_ok.1 h
      exact ⟨hreachable, fun _ hx => hx, by simp⟩
  | cons first rest =>
      have hfirst := hitem first List.mem_cons_self
      refine ⟨hfirst.reachable hreachable,
        fun x hx => hfirst.live x (mem_uses.2 (Or.inl hx)), fun e he x hx hvars => ?_⟩
      exact (hitem e he).live x (mem_uses.2 (Or.inr ⟨hx, hs.vars_eq ▸ hvars⟩))

/-- An assignment is an act that is covered by what is live before it. -/
theorem substitute_covers (hs : s.Follows vars) (hreachable : s.reachable = true) {left right : Stmt}
    {l r : Expr} (hl : left.denoted? = some l) (hr : right.denoted? = some r)
    (hlvars : ∀ x ∈ l.occurrences, x ∈ vars) (hrvars : ∀ x ∈ r.occurrences, x ∈ vars) (point : Point)
    (h : s.substitute l r = .ok t) :
    ∃ act, (Stmt.assign point left right).act? = some act ∧ t.reachable = true ∧
      act.Covers t.live s.live := by
  rw [Stmt.act?, hl, hr]
  rcases substitute_cases h with ⟨x, rfl, hcase⟩ | ⟨type, x, key, rfl, hcase⟩
  · refine ⟨.assign x r, rfl, ?_⟩
    rcases hcase with ⟨hdead, rfl⟩ | ⟨-, rfl⟩
    · exact ⟨hreachable, Act.covers_assign (fun _ hy _ => hy) fun hlive => absurd hlive hdead⟩
    · refine ⟨hreachable, Act.covers_assign (fun y hy hne => ?_) fun _ y hy => ?_⟩
      · exact mem_uses.2 (Or.inl (OrderedSet.mem_erase.2 ⟨hy, hne⟩))
      · exact mem_uses.2 (Or.inr ⟨hy, hs.vars_eq ▸ hrvars y hy⟩)
  · refine ⟨.assignItem x key r, rfl, ?_⟩
    rcases hcase with ⟨hdead, rfl⟩ | ⟨-, rfl⟩
    · exact ⟨hreachable, Act.covers_assignItem (fun _ hy => hy) fun hlive => absurd hlive hdead⟩
    · refine ⟨hreachable, Act.covers_assignItem (fun y hy => ?_) fun _ y hy => ?_⟩
      · exact mem_uses.2 (Or.inl (mem_uses.2 (Or.inl hy)))
      · rcases hy with hy | hy
        · have hkey : y ∈ (Expr.item type (.var x) key).occurrences := by
            rw [Expr.occurrences]
            exact List.mem_append_right _ hy
          exact mem_uses.2 (Or.inl (mem_uses.2 (Or.inr ⟨hy, hs.vars_eq ▸ hlvars y hkey⟩)))
        · exact mem_uses.2 (Or.inr ⟨hy, hs.vars_eq ▸ hrvars y hy⟩)

/-- A statement that raises no error is an act that is covered by what is live before it. -/
theorem perform_covers (hs : s.Follows vars) (hreachable : s.reachable = true)
    (hvars : ∀ x ∈ statement.occurrences, x ∈ vars) (hraise : ∀ point, statement ≠ .raise point)
    (h : StateDomain.perform .backward statement s = .ok t) :
    ∃ act, (Move.perform statement).act? = some act ∧ t.reachable = true ∧
      act.Covers t.live s.live := by
  cases StateDomain.perform_cases h with
  | @assign point left right l r hstatement hleft hright hl hr hlreads hrreads =>
      subst hstatement
      rw [StateDomain.perform_backward_assign hleft hright (isBottom_eq_false_iff.2 hreachable),
        map_eq_ok] at h
      obtain ⟨u, hu, rfl⟩ := h
      obtain ⟨act, hact, hreachable', hcovers⟩ := substitute_covers hs hreachable hl hr
        (fun x hx => hvars x (hlreads hx)) (fun x hx => hvars x (hrreads hx)) point hu
      exact ⟨act, hact, hreachable', hcovers⟩
  | raise hstatement => exact absurd hstatement (hraise _)
  | output hact hfound hreads ht =>
      obtain ⟨hreachable', hkeep, huses⟩ := uses_of_joinEach hs hreachable _ ht
      exact ⟨_, hact, hreachable', Act.covers_output hkeep fun e he x hx =>
        huses e (hfound e he) x hx (hvars x (hreads e he hx))⟩
  | access hact hreads ht =>
      subst ht
      exact ⟨_, hact, hreachable, Act.covers_evaluate fun _ hx => hx⟩

/-- A guard that raises no error is an act that is covered by what is live before it. An assignment
cannot be a guard, since it cannot be carried out against the direction of the analysis. -/
theorem check_covers (hs : s.Follows vars) (hreachable : s.reachable = true)
    (hvars : ∀ x ∈ statement.occurrences, x ∈ vars) (hraise : ∀ point, statement ≠ .raise point)
    (h : StateDomain.perform .forward statement s = .ok u) (hfilter : StateDomain.filter u = .ok t) :
    ∃ act, (Move.check statement).act? = some act ∧ t.reachable = true ∧
      act.Covers t.live s.live := by
  rw [Move.act?]
  cases StateDomain.perform_cases h with
  | assign hstatement hleft hright _ _ _ _ =>
      subst hstatement
      rw [StateDomain.perform_forward_assign hleft hright (isBottom_eq_false_iff.2 hreachable),
        map_eq_ok] at h
      obtain ⟨v, hv, -⟩ := h
      exact absurd hv throw_ne_ok
  | raise hstatement => exact absurd hstatement (hraise _)
  | output hact hfound hreads hu =>
      obtain ⟨hreachable', hkeep, huses⟩ := uses_of_joinEach hs hreachable _ hu
      -- no expression is left to be assumed
      obtain ⟨v, rfl⟩ := StateDomain.exists_cleared_of_joinEach hu
      obtain rfl := pure_eq_ok.1 hfilter
      rw [hact]
      exact ⟨_, rfl, hreachable', Act.covers_output hkeep fun e he x hx =>
        huses e (hfound e he) x hx (hvars x (hreads e he hx))⟩
  | @access e hact hreads hu =>
      subst hu
      have hnoted : (StateDomain.withResult s (.singleton e)).Follows vars :=
        (follows_closed vars).withResult _ hs
      obtain ⟨hreachable', hkeep, huses⟩ := uses_of_joinEach hnoted hreachable [e] hfilter
      rw [hact]
      exact ⟨_, rfl, hreachable', Act.covers_test hkeep fun x hx =>
        huses e List.mem_cons_self x hx (hvars x (hreads hx))⟩

/-! ### Nodes and paths -/

section Paths

variable {g : Graph} {settings : Settings} {n i : Nat} {acts : List Act}

/-- What is live before some statements fixes what they and everything after them show. -/
theorem executeBackward_fixes {statements : List Stmt} {states : List LivenessState}
    (hvars : ∀ statement ∈ statements, ∀ x ∈ statement.occurrences, x ∈ g.vars)
    (hraise : ∀ statement ∈ statements, ∀ point, statement ≠ .raise point) (hs : s.Follows g.vars)
    (hreachable : s.reachable = true) (hrest : Fixes s.live acts)
    (h : (backward g settings none).executeBackward n i statements s = .ok states) :
    ∃ t first, states.head? = some t ∧ t.Follows g.vars ∧ t.reachable = true ∧
      (statements.map Move.perform).mapM Move.act? = some first ∧ Fixes t.live (first ++ acts) := by
  induction statements generalizing i states with
  | nil =>
      obtain rfl := pure_eq_ok.1 h
      exact ⟨s, [], rfl, hs, hreachable, rfl, hrest⟩
  | cons statement rest ih =>
      rw [Analysis.executeBackward] at h
      obtain ⟨later, hlater, h⟩ := bind_eq_ok.1 h
      obtain ⟨t, hperform, h⟩ := bind_eq_ok.1 h
      obtain rfl := pure_eq_ok.1 h
      obtain ⟨u, first, hhead, hu, hureachable, hfirst, hfixes⟩ :=
        ih (fun st hst => hvars st (List.mem_cons_of_mem _ hst))
          (fun st hst => hraise st (List.mem_cons_of_mem _ hst)) hlater
      have hlaterHead : later.headD s = u := by rw [List.headD_eq_head?_getD, hhead]; rfl
      rw [hlaterHead] at hperform
      -- nothing is known beforehand, so the state is taken as it is
      change StateDomain.perform .backward statement u = .ok t at hperform
      obtain ⟨act, hact, htreachable, hcovers⟩ := perform_covers hu hureachable
        (hvars statement List.mem_cons_self) (hraise statement List.mem_cons_self) hperform
      refine ⟨t, act :: first, rfl, ((follows_closed g.vars).perform hu _ _).result hperform,
        htreachable, ?_, hfixes.cons hcovers⟩
      simp [hact, hfirst]

/-- What is live after an edge is traversed fixes what its guard and everything behind it show. -/
theorem traverse_fixes {e : Edge} (he : e ∈ g.edges)
    (hraise : ∀ guard, e.guard = some guard → ∀ point, guard ≠ .raise point) (hs : s.Follows g.vars)
    (hreachable : s.reachable = true) (hrest : Fixes s.live acts)
    (h : (backward g settings none).traverse e s = .ok t) :
    ∃ first, t.reachable = true ∧ (e.guard.toList.map Move.check).mapM Move.act? = some first ∧
      Fixes t.live (first ++ acts) := by
  have henter : Analysis.enterScope .backward e.kind s = s := by
    unfold Analysis.enterScope
    split <;> rfl
  have hexit : ∀ u : LivenessState, Analysis.exitScope .backward e.kind u = u := by
    intro u
    unfold Analysis.exitScope
    split <;> rfl
  unfold Analysis.traverse at h
  obtain ⟨u, hguard, h⟩ := bind_eq_ok.1 h
  obtain rfl := (hexit u).symm.trans (pure_eq_ok.1 h)
  change (backward g settings none).passGuard e (Analysis.enterScope .backward e.kind s) = .ok u at hguard
  rw [henter] at hguard
  unfold Analysis.passGuard at hguard
  cases hcondition : e.guard with
  | none =>
      rw [hcondition] at hguard
      obtain rfl := pure_eq_ok.1 hguard
      exact ⟨[], hreachable, rfl, hrest⟩
  | some guard =>
      rw [hcondition] at hguard
      obtain ⟨asked, hasked, hfilter⟩ := bind_eq_ok.1 hguard
      change StateDomain.perform .forward guard s = .ok asked at hasked
      obtain ⟨act, hact, hureachable, hcovers⟩ := check_covers hs hreachable
        (Graph.mem_vars (Graph.mem_statements_of_guard he hcondition)) (hraise guard hcondition) hasked
        hfilter
      refine ⟨[act], hureachable, ?_, hrest.cons hcovers⟩
      simp [hact]

variable {r : AnalysisResult LivenessState} {steps : Nat}
  (hrun : (backward g settings none).runWithin steps = some (.ok r))
include hrun

/-- A node that is entered with a reachable state fixes what it and everything after it show. -/
theorem node_fixes (hg : g.Wired) (hraise : ∀ statement ∈ g.statementsAt n, ∀ point,
      statement ≠ .raise point) (hlast : (r.statesAt n).getLast? = some s)
    (hreachable : s.reachable = true) (hrest : Fixes s.live acts) :
    ∃ t first, (r.statesAt n).head? = some t ∧ t.reachable = true ∧ 0 < r.iterations n ∧
      ((g.statementsAt n).map Move.perform).mapM Move.act? = some first ∧
      Fixes t.live (first ++ acts) := by
  have hsolution := backward_solution hg hrun
  have hs := backward_follows hrun n s (List.mem_of_getLast? hlast)
  have hrelaxes := backward_relaxes g settings settings (Or.inl (rfl : none = none))
  have hn : n < g.size := by
    rw [show g.size = r.nodes.size from hsolution.size_eq.symm]
    apply Nat.lt_of_not_le
    intro hn
    simp [AnalysisResult.statesAt, Array.getElem?_eq_none hn] at hlast
  obtain ⟨s', hs', hcase⟩ := hrelaxes.exists_incoming hsolution (Array.getElem?_eq_getElem hn)
  obtain rfl : s' = s := Option.some.inj (hs'.symm.trans hlast)
  rcases hcase with hbottom | ⟨hcount, hexecute⟩
  · rw [isBottom_eq_false_iff.2 hreachable] at hbottom
    cases hbottom
  · obtain ⟨t, first, hhead, -, htreachable, hfirst, hfixes⟩ := executeBackward_fixes
      (fun _ hst => Graph.mem_vars (Graph.mem_statements_of_mem_statementsAt hst)) hraise hs hreachable
      hrest hexecute
    exact ⟨t, first, hhead, htreachable, hcount, hfirst, hfixes⟩

/-- What is live at the start of a path to the exit fixes what the path shows. -/
theorem path_fixes (hg : g.Wired) {path : List Edge} {m : Nat} (hpath : g.Path n path m)
    (hexit : m = g.exit) (hraise : ∀ move ∈ g.moves n path, ∀ point, move.statement ≠ .raise point) :
    ∃ s acts, (r.statesAt n).head? = some s ∧ s.reachable = true ∧ 0 < r.iterations n ∧
      (g.moves n path).mapM Move.act? = some acts ∧ Fixes s.live acts := by
  have hsolution := backward_solution hg hrun
  have hstatements : ∀ {n : Nat},
      (∀ move ∈ (g.statementsAt n).map Move.perform, ∀ point, move.statement ≠ .raise point) →
      ∀ statement ∈ g.statementsAt n, ∀ point, statement ≠ .raise point :=
    fun hraise statement hst => hraise (.perform statement) (List.mem_map_of_mem hst)
  induction hpath with
  | nil n =>
      subst hexit
      obtain ⟨s, hlast, hle⟩ : ∃ s, (r.statesAt g.exit).getLast? = some s ∧ _ := hsolution.start
      have hs := backward_follows hrun _ s (List.mem_of_getLast? hlast)
      have hreachable := (((ofVariables_follows g.vars).le_iff hs).1 hle).reachable rfl
      obtain ⟨t, acts, hhead, htreachable, hcount, hacts, hfixes⟩ := node_fixes hrun hg
        (hstatements hraise) hlast hreachable (Fixes.nil _)
      exact ⟨t, acts, hhead, htreachable, hcount, hacts, List.append_nil acts ▸ hfixes⟩
  | @cons e rest m he hrest ih =>
      rw [Graph.moves] at hraise ⊢
      obtain ⟨t, acts, hhead, htreachable, hcount, hacts, hfixes⟩ := ih hexit fun move hmove =>
        hraise move (List.mem_append_right _ (List.mem_append_right _ hmove))
      obtain ⟨t', u, s, ht', htraverse, hlast, hle⟩ := hsolution.edges e he hcount
      obtain rfl : t' = t := Option.some.inj (ht'.symm.trans hhead)
      have ht := backward_follows hrun _ t' (List.mem_of_head? hhead)
      have hs := backward_follows hrun _ s (List.mem_of_getLast? hlast)
      have hu := (Analysis.traverse_concludes (follows_closed g.vars) e ht).result htraverse
      have hbelow := (hu.le_iff hs).1 hle
      obtain ⟨checked, hureachable, hchecked, hfixes⟩ := traverse_fixes he (fun guard hguard =>
        hraise (.check guard) (List.mem_append_right _ (List.mem_append_left _ (by simp [hguard])))) ht
        htreachable hfixes htraverse
      obtain ⟨v, first, hhead, hvreachable, hcount, hfirst, hfixes⟩ := node_fixes hrun hg
        (hstatements fun move hmove => hraise move (List.mem_append_left _ hmove)) hlast
        (hbelow.reachable hureachable) (hfixes.mono hbelow.live)
      refine ⟨v, first ++ (checked ++ acts), hhead, hvreachable, hcount, ?_, hfixes⟩
      rw [List.mapM_append, List.mapM_append, hfirst, hchecked, hacts]
      rfl

end Paths

/-- Two stores that agree on the variables live at the start of a node cannot be told apart: along every
path from there to the exit that raises no error, all guards have the same truth value and the same
values are printed and returned. -/
theorem backward_noninterference {nodes : List Node} {edges : List Edge} {entry exit : Nat} {g : Graph}
    (hbuild : Graph.build nodes edges entry exit = .ok g) {settings : Settings} {steps : Nat}
    {r : AnalysisResult LivenessState}
    (hrun : (backward g settings none).runWithin steps = some (.ok r)) {n : Nat} {path : List Edge}
    (hpath : g.Path n path g.exit)
    (hraise : ∀ move ∈ g.moves n path, ∀ point, move.statement ≠ .raise point) :
    ∃ s acts, r.entryState? n = some s ∧ (g.moves n path).mapM Move.act? = some acts ∧
      ∀ (V I : Type) (m : Meaning V I) (inputs : Nat → I) (σ τ : Identifier → V),
        (∀ x ∈ s.live, σ x = τ x) → m.observe acts inputs σ = m.observe acts inputs τ := by
  obtain ⟨hg, -⟩ := Graph.build_wired hbuild
  obtain ⟨s, acts, hs, -, -, hacts, hfixes⟩ := path_fixes hrun hg hpath rfl hraise
  exact ⟨s, acts, hs, hacts, hfixes⟩

/-! ### A loop that counts -/

/-- Whole numbers for the expressions of a loop that counts; any other value comes from outside. -/
def worth (input : Int) (σ : Identifier → Int) : Expr → Int
  | .literal (.int n) => n
  | .var x => σ x
  | .arithmetic _ left .add right => worth input σ left + worth input σ right
  | .compare left .lt right => if worth input σ left < worth input σ right then 1 else 0
  | .not operand => 1 - worth input σ operand
  | _ => input

theorem worth_congr (input : Int) {σ τ : Identifier → Int} (e : Expr)
    (h : ∀ x ∈ e.occurrences, σ x = τ x) : worth input σ e = worth input τ e := by
  fun_induction worth input σ e with
  | case1 n => rfl
  | case2 x => exact h x (by simp [Expr.occurrences])
  | case3 type left right ihl ihr =>
      rw [worth, ihl fun x hx => h x (by simp [Expr.occurrences, hx]),
        ihr fun x hx => h x (by simp [Expr.occurrences, hx])]
  | case4 left right hlt ihl ihr =>
      rw [worth, ← ihl fun x hx => h x (by simp [Expr.occurrences, hx]),
        ← ihr fun x hx => h x (by simp [Expr.occurrences, hx]), if_pos hlt]
  | case5 left right hlt ihl ihr =>
      rw [worth, ← ihl fun x hx => h x (by simp [Expr.occurrences, hx]),
        ← ihr fun x hx => h x (by simp [Expr.occurrences, hx]), if_neg hlt]
  | case6 operand ih => rw [worth, ih h]
  | case7 e => rw [worth] <;> assumption

/-- Programs over whole numbers. -/
def counted : Meaning Int Int where
  value e input σ := worth input σ e
  truth v := decide (v ≠ 0)
  replace _ _ value := value
  value_congr e input _ _ h := worth_congr input e fun x hx => h x (OrderedSet.mem_ofList.2 hx)

section Counting

open Graph.Counting

/-- Into the loop, once around and out of it again. -/
theorem path_counting : graph.Path 0 edges graph.exit :=
  .cons (e := ⟨0, 1, .plain, none⟩) (.head _) <|
  .cons (e := ⟨1, 2, .loopIn, some below⟩) (.tail _ (.head _)) <|
  .cons (e := ⟨2, 1, .plain, none⟩) (.tail _ (.tail _ (.head _))) <|
  .cons (e := ⟨1, 3, .loopOut, some (.call place "not" .bool [below])⟩)
    (.tail _ (.tail _ (.tail _ (.head _)))) (.nil 3)

theorem moves_counting : graph.moves 0 edges =
    [.perform reset, .check below, .perform increment, .check (.call place "not" .bool [below])] := rfl

/-- Whatever the counter holds at first, the guards have the same truth values once around the loop. -/
theorem backward_noninterference_counting :
    ∃ r s acts, Graph.build nodes edges 0 3 = .ok graph ∧
      (backward graph {} none).runWithin 20 = some (.ok r) ∧ graph.Path 0 edges graph.exit ∧
      (∀ move ∈ graph.moves 0 edges, ∀ point, move.statement ≠ .raise point) ∧
      r.entryState? 0 = some s ∧ (graph.moves 0 edges).mapM Move.act? = some acts ∧
      counted.observe acts (fun _ => 0) (fun _ => 0) =
        counted.observe acts (fun _ => 0) (fun _ => 7) := by
  obtain ⟨r, hrun⟩ := exists_of_any_isOk
    (show ((backward graph {} none).runWithin 20).any Except.isOk = true by decide +kernel)
  have hraise : ∀ move ∈ graph.moves 0 edges, ∀ point, move.statement ≠ .raise point := by
    rw [moves_counting]
    simp [Move.statement, reset, below, increment]
  have hdead : ((backward graph {} none).runWithin 20).all (fun outcome =>
      outcome.toOption.all fun r => (r.entryState? 0).all fun s => s.live.isEmpty) = true := by
    decide +kernel
  obtain ⟨s, acts, hs, hacts, hobserve⟩ :=
    backward_noninterference build_eq hrun path_counting hraise
  refine ⟨r, s, acts, build_eq, hrun, path_counting, hraise, hs, hacts, ?_⟩
  apply hobserve
  intro x hx
  simp only [hrun, Option.all_some, Except.toOption, hs, OrderedSet.isEmpty, List.isEmpty_iff] at hdead
  change x ∈ s.live.toList at hx
  rw [hdead] at hx
  cases hx

end Counting

end LivenessState

end FlowAnalysis
