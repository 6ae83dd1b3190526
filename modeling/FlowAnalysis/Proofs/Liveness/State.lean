import FlowAnalysis.Liveness.State
import FlowAnalysis.Proofs.Analysis.Closure
import FlowAnalysis.Proofs.Program.Translation
import Mathlib.Data.List.Perm.Subperm

/-!
States of the liveness analysis. Every state of a run follows the same variables, keeps its live ones
among them, and has none where no execution comes. Between such states the order is the obvious one:
more points are reached and more variables are live. What a single expression does to a state is said
by which variables are live afterwards, and so is what an assignment to a live variable does: the
variables that translation keeps of its right-hand side become live. Translation loses the operands of
conversions, and with them variables whose values flow into a live one.
-/

namespace FlowAnalysis

namespace OrderedSet

variable {α : Type}

theorem size_eq_iff {s t : OrderedSet α} (hst : ∀ a ∈ s, a ∈ t) :
    s.size = t.size ↔ ∀ a ∈ t, a ∈ s := by
  have hsub : s.toList.Subperm t.toList := s.nodup.subperm hst
  constructor
  · intro hsize a ha
    exact (hsub.perm_of_length_le (Nat.le_of_eq hsize.symm)).mem_iff.2 ha
  · intro hts
    exact Nat.le_antisymm hsub.length_le (t.nodup.subperm hts).length_le

theorem ext_toList {s t : OrderedSet α} (h : s.toList = t.toList) : s = t := by
  cases s
  cases t
  cases h
  rfl

variable [DecidableEq α]

theorem toList_insertAll {s : OrderedSet α} {xs : List α} (h : (s.toList ++ xs).Nodup) :
    (s.insertAll xs).toList = s.toList ++ xs := by
  induction xs generalizing s with
  | nil => exact (List.append_nil _).symm
  | cons x xs ih =>
      have hx : x ∉ s.toList := fun hx => (List.nodup_append.1 h).2.2 x hx x List.mem_cons_self rfl
      have hinsert : (s.insert x).toList = s.toList ++ [x] := by rw [insert, dif_neg hx]
      change ((s.insert x).insertAll xs).toList = _
      rw [ih, hinsert, List.append_assoc]
      · rfl
      · rwa [hinsert, List.append_assoc]

theorem ofList_toList (s : OrderedSet α) : ofList s.toList = s :=
  ext_toList (toList_insertAll s.nodup)

end OrderedSet

namespace StateDomain

variable {S Pre : Type} [StateDomain S Pre] {s : S}

/-- A transformer of one item is applied, and the expressions of the last statement are dropped. -/
theorem joinEach_singleton {ι : Type} (hproper : Extremal.isBottom s = false) (item : ι)
    (apply : S → ι → Outcome S) : joinEach s [item] apply = (apply s item).map cleared := by
  unfold joinEach
  simp only [hproper, Bool.false_eq_true, if_false, List.foldlM_nil]
  cases apply s item with
  | ok t => rfl
  | error e => rfl

section Assign

variable {point : Point} {left right : Stmt} {l r : Expr}
  (hleft : left.alternatives = .ok (.singleton l)) (hright : right.alternatives = .ok (.singleton r))
include hleft hright

theorem perform_forward_assign (hproper : Extremal.isBottom s = false) :
    perform .forward (.assign point left right) s = (assignOne s l r).map cleared := by
  rw [perform, hleft, hright]
  exact joinEach_singleton hproper (l, r) fun s p => assignOne s p.1 p.2

theorem perform_backward_assign (hproper : Extremal.isBottom s = false) :
    perform .backward (.assign point left right) s = (substituteOne s l r).map cleared := by
  rw [perform, hleft, hright]
  exact joinEach_singleton hproper (l, r) fun s p => substituteOne s p.1 p.2

end Assign

end StateDomain

namespace LivenessState

variable {s t u : LivenessState} {x y : Identifier} {e : Expr}

/-! ### Laws of order -/

theorem isBottom_eq_true_iff : Extremal.isBottom s = true ↔ s.reachable = false := by
  change (!s.reachable) = true ↔ _
  rw [Bool.not_eq_true']

theorem isBottom_eq_false_iff : Extremal.isBottom s = false ↔ s.reachable = true := by
  change (!s.reachable) = false ↔ _
  rw [Bool.not_eq_false']

theorem isTop_eq_true_iff :
    Extremal.isTop s = true ↔ s.reachable = true ∧ s.live.size = s.vars.size := by
  change (s.reachable && s.live.size == s.vars.size) = true ↔ _
  rw [Bool.and_eq_true, beq_iff_eq]

/-- Joins and widenings of proper states: what is live in either is live. -/
def merged (s t : LivenessState) : LivenessState := ⟨s.vars, s.live.union t.live, true, .empty⟩

theorem settledJoin_getD :
    pure ((Extremal.settledJoin s t).getD (s.withLive (s.live.union t.live))) =
      (Extremal.settledJoin s t).elim (pure (s.merged t)) (pure : _ → Outcome LivenessState) := by
  cases hsettled : Extremal.settledJoin s t with
  | some u => rfl
  | none =>
      have hreachable := isBottom_eq_false_iff.1 (Extremal.settledJoin_eq_none hsettled).1.1
      simp [withLive, merged, hreachable]

theorem extended :
    @Domain.Extended LivenessState _ (fun s t => s.live.subset t.live)
      (fun s t => pure (s.merged t)) (fun s t => pure (s.merged t)) where
  le_eq _ _ := rfl
  join_eq _ _ := settledJoin_getD
  widen_eq _ _ := settledJoin_getD
  exclusive {s} h := by
    change (s.reachable && _) = false
    rw [isBottom_eq_true_iff.1 h, Bool.false_and]

theorem mem_merged : x ∈ (s.merged t).live ↔ x ∈ s.live ∨ x ∈ t.live := OrderedSet.mem_insertAll

theorem join_cases (h : Domain.join s t = .ok u ∨ Domain.widen s t = .ok u) :
    u = s ∨ u = t ∨ (s.reachable = true ∧ u = s.merged t) := by
  rw [extended.join_eq, extended.widen_eq, or_self] at h
  rcases Extremal.settledJoin_cases h with ⟨rfl, -⟩ | ⟨rfl, -⟩ | ⟨⟨hs, -⟩, -, hu⟩
  · exact Or.inl rfl
  · exact Or.inr (Or.inl rfl)
  · exact Or.inr (Or.inr ⟨isBottom_eq_false_iff.1 hs, (pure_eq_ok.1 hu).symm⟩)

theorem le_of_subset (hu : u.reachable = true) (hlive : ∀ x ∈ s.live, x ∈ u.live)
    (htop : Extremal.isTop s = false) : Domain.le s u = true :=
  extended.le_iff.2 (Or.inr (Or.inr
    ⟨isBottom_eq_false_iff.2 hu, htop, OrderedSet.subset_eq_true_iff.2 hlive⟩))

theorem upperBounds : Domain.UpperBounds LivenessState := by
  refine extended.upperBounds (fun s => OrderedSet.subset_eq_true_iff.2 fun _ hx => hx) ?_ ?_ ?_
  · intro s t u hst htu
    rw [OrderedSet.subset_eq_true_iff] at hst htu ⊢
    exact fun x hx => htu x (hst x hx)
  · intro s t u hjoin _ htop
    obtain rfl := pure_eq_ok.1 hjoin
    exact le_of_subset rfl (fun x hx => mem_merged.2 (Or.inl hx)) htop
  · intro s t u hjoin _ htop
    obtain rfl := pure_eq_ok.1 (hjoin.elim id id)
    exact le_of_subset rfl (fun x hx => mem_merged.2 (Or.inr hx)) htop

/-! ### States of one run -/

/-- The state follows the given variables, those that are live are among them, and nothing is live
where no execution comes. -/
structure Follows (vars : OrderedSet Identifier) (s : LivenessState) : Prop where
  vars_eq : s.vars = vars
  mem_vars : ∀ x ∈ s.live, x ∈ vars
  reachable : ∀ x ∈ s.live, s.reachable = true

variable {vars : OrderedSet Identifier}

theorem ofVariables_follows (vars : OrderedSet Identifier) :
    (ofVariables vars.toList).Follows vars :=
  ⟨vars.ofList_toList, fun _ hx => absurd hx List.not_mem_nil, fun _ hx => absurd hx List.not_mem_nil⟩

theorem Follows.isTop_iff (hs : s.Follows vars) :
    Extremal.isTop s = true ↔ s.reachable = true ∧ ∀ x ∈ vars, x ∈ s.live := by
  rw [isTop_eq_true_iff, hs.vars_eq, OrderedSet.size_eq_iff hs.mem_vars]

/-- More points are reached and more variables are live. -/
structure Below (s t : LivenessState) : Prop where
  reachable : s.reachable = true → t.reachable = true
  live : ∀ x ∈ s.live, x ∈ t.live

theorem Follows.le_iff (hs : s.Follows vars) (ht : t.Follows vars) :
    Domain.le s t = true ↔ s.Below t := by
  rw [extended.le_iff, OrderedSet.subset_eq_true_iff, isBottom_eq_true_iff, isBottom_eq_false_iff]
  constructor
  · rintro (hbottom | htop | ⟨hreachable, -, hlive⟩)
    · exact ⟨fun h => absurd (hbottom.symm.trans h) Bool.false_ne_true,
        fun x hx => absurd (hbottom.symm.trans (hs.reachable x hx)) Bool.false_ne_true⟩
    · obtain ⟨hreachable, hall⟩ := ht.isTop_iff.1 htop
      exact ⟨fun _ => hreachable, fun x hx => hall x (hs.mem_vars x hx)⟩
    · exact ⟨fun _ => hreachable, hlive⟩
  · intro hbelow
    cases hreachable : s.reachable with
    | false => exact Or.inl rfl
    | true =>
        have hreachable' := hbelow.reachable hreachable
        cases htop : Extremal.isTop s with
        | true =>
            have hall := (hs.isTop_iff.1 htop).2
            exact Or.inr (Or.inl (ht.isTop_iff.2
              ⟨hreachable', fun x hx => hbelow.live x (hall x hx)⟩))
        | false => exact Or.inr (Or.inr ⟨hreachable', rfl, hbelow.live⟩)

/-! ### What single expressions make live -/

theorem mem_uses : x ∈ (s.uses e).live ↔ x ∈ s.live ∨ (x ∈ e.occurrences ∧ x ∈ s.vars) := by
  change x ∈ s.live.insertAll (e.vars.filter s.vars.contains).toList ↔ _
  rw [OrderedSet.mem_insertAll]
  change _ ∨ x ∈ e.vars.filter s.vars.contains ↔ _
  rw [OrderedSet.mem_filter, OrderedSet.contains, decide_eq_true_iff, Expr.vars,
    OrderedSet.mem_ofList]

theorem isLive_eq_true_iff : s.isLive x = true ↔ x ∈ s.live := decide_eq_true_iff

/-- A live variable that is assigned is no longer live, unless its new value is computed from it. -/
theorem substitute_var (hlive : x ∈ s.live) (right : Expr) :
    s.substitute (.var x) right = .ok ({ s with live := s.live.erase x }.uses right) := by
  rw [substitute, if_pos (isLive_eq_true_iff.2 hlive)]
  rfl

/-- What a substitution can do: nothing if the target is not live, and otherwise what it does to a
live variable or to a live container. -/
theorem substitute_cases {left right : Expr} (h : s.substitute left right = .ok t) :
    (∃ x, left = .var x ∧
      ((x ∉ s.live ∧ t = s) ∨ (x ∈ s.live ∧ t = { s with live := s.live.erase x }.uses right))) ∨
    ∃ type x key, left = .item type (.var x) key ∧
      ((x ∉ s.live ∧ t = s) ∨ (x ∈ s.live ∧ t = (s.uses key).uses right)) := by
  have hchoice : ∀ {x : Identifier} {u : LivenessState},
      (pure (if s.isLive x then u else s) : Outcome LivenessState) = .ok t →
        (x ∉ s.live ∧ t = s) ∨ (x ∈ s.live ∧ t = u) := by
    intro x u h
    by_cases hlive : x ∈ s.live
    · rw [if_pos (isLive_eq_true_iff.2 hlive)] at h
      exact Or.inr ⟨hlive, (pure_eq_ok.1 h).symm⟩
    · rw [if_neg (mt isLive_eq_true_iff.1 hlive)] at h
      exact Or.inl ⟨hlive, (pure_eq_ok.1 h).symm⟩
  unfold substitute at h
  split at h
  · exact Or.inl ⟨_, rfl, hchoice h⟩
  · exact Or.inr ⟨_, _, _, rfl, hchoice h⟩
  · exact absurd h throw_ne_ok

/-! ### What a run keeps -/

theorem Follows.uses (h : s.Follows vars) (hreachable : s.reachable = true) (e : Expr) :
    (s.uses e).Follows vars := by
  refine ⟨h.vars_eq, fun x hx => ?_, fun _ _ => hreachable⟩
  rcases mem_uses.1 hx with hx | ⟨-, hx⟩
  · exact h.mem_vars x hx
  · exact h.vars_eq ▸ hx

theorem Follows.substitute (h : s.Follows vars) (hreachable : s.reachable = true)
    {left right : Expr} (ht : s.substitute left right = .ok t) : t.Follows vars := by
  rcases substitute_cases ht with ⟨x, -, ⟨-, rfl⟩ | ⟨-, rfl⟩⟩ | ⟨type, x, key, -, ⟨-, rfl⟩ | ⟨-, rfl⟩⟩
  · exact h
  · have herase : { s with live := s.live.erase x }.Follows vars :=
      ⟨h.vars_eq, fun y hy => h.mem_vars y (OrderedSet.mem_erase.1 hy).1, fun _ _ => hreachable⟩
    exact herase.uses hreachable right
  · exact h
  · exact (h.uses hreachable key).uses hreachable right

theorem Follows.join (hs : s.Follows vars) (ht : t.Follows vars)
    (h : Domain.join s t = .ok u ∨ Domain.widen s t = .ok u) : u.Follows vars := by
  rcases join_cases h with rfl | rfl | ⟨-, rfl⟩
  · exact hs
  · exact ht
  · exact ⟨hs.vars_eq, fun x hx => (mem_merged.1 hx).elim (hs.mem_vars x) (ht.mem_vars x),
      fun _ _ => rfl⟩

theorem Follows.bottom (h : s.Follows vars) : (Extremal.bottom s).Follows vars :=
  ⟨h.vars_eq, fun _ hx => absurd hx List.not_mem_nil, fun _ hx => absurd hx List.not_mem_nil⟩

theorem follows_closed (vars : OrderedSet Identifier) :
    StateDomain.Closed AnalysisError.IsSemantic (Follows vars) where
  semantic _ he := he
  bottom h := h.bottom
  withResult _ h := ⟨h.vars_eq, h.mem_vars, h.reachable⟩
  before {s} _ known h := by
    change Follows vars (if known.any Extremal.isBottom then Extremal.bottom s else s)
    split
    · exact h.bottom
    · exact h
  join {s t} hs ht := by
    obtain ⟨u, hu⟩ : ∃ u, Domain.join s t = .ok u := ⟨_, rfl⟩
    rw [hu]
    exact hs.join ht (Or.inl hu)
  widen {s t} hs ht := by
    obtain ⟨u, hu⟩ : ∃ u, Domain.widen s t = .ok u := ⟨_, rfl⟩
    rw [hu]
    exact hs.join ht (Or.inr hu)
  assignOne _ _ _ _ := trivial
  assumeOne e h hproper := h.uses (isBottom_eq_false_iff.1 hproper) e
  substituteOne {s} left right h hproper := by
    change Meets (Follows vars) (s.substitute left right)
    cases hsubstitute : s.substitute left right with
    | ok t => exact h.substitute (isBottom_eq_false_iff.1 hproper) hsubstitute
    | error e =>
        unfold substitute at hsubstitute
        split at hsubstitute
        · cases hsubstitute
        · cases hsubstitute
        · cases hsubstitute
          trivial
  outputOne e h hproper := h.uses (isBottom_eq_false_iff.1 hproper) e
  enterIf h := h
  exitIf h := h
  enterLoop h := h
  exitLoop h := h

/-- The backward analysis of a graph, with nothing live at its exit, and with what an earlier analysis
knows. -/
def backward (g : Graph) (settings : Settings) (known : Option (AnalysisResult IntervalState)) :
    Analysis LivenessState IntervalState :=
  ⟨g, .backward, settings, known, ofVariables g.vars.toList⟩

/-! ### Assignments -/

/-- An assignment to a live variable goes through, and before it just those variables are live that
translation keeps of the right-hand side and, but for the one assigned, those that were live after it. -/
theorem assignment_uses (point place : Point) {right : Stmt} {found : Alternatives}
    (hright : right.alternatives = .ok found) (hproper : Extremal.isBottom s = false)
    (hlive : x ∈ s.live) (hvars : ∀ y ∈ right.vars, y ∈ s.vars) :
    ∃ t, StateDomain.perform .backward (.assign point (.var place x) right) s = .ok t ∧
      Extremal.isBottom t = false ∧ (∀ y ∈ right.reads, y ∈ right.vars) ∧
      ∀ y, y ∈ t.live ↔ y ∈ right.reads ∨ (y ∈ s.live ∧ y ≠ x) := by
  obtain ⟨e, rfl, -, hreads⟩ := right.alternatives_eq_singleton hright
  have hperform : StateDomain.perform .backward (.assign point (.var place x) right) s =
      .ok (StateDomain.cleared ({ s with live := s.live.erase x }.uses e)) := by
    rw [StateDomain.perform_backward_assign rfl hright hproper]
    change (s.substitute (.var x) e).map _ = _
    rw [substitute_var hlive]
    rfl
  have hmem : ∀ y ∈ right.reads, y ∈ right.vars := fun y hy =>
    OrderedSet.mem_ofList.2 ((Stmt.reads_sublist right).subset hy)
  refine ⟨_, hperform, hproper, hmem, fun y => ⟨fun hy => ?_, ?_⟩⟩
  · rcases mem_uses.1 hy with hy | ⟨hy, -⟩
    · exact Or.inr (OrderedSet.mem_erase.1 hy)
    · exact Or.inl (hreads ▸ hy)
  · rintro (hy | hy)
    · exact mem_uses.2 (Or.inr ⟨hreads ▸ hy, hvars y (hmem y hy)⟩)
    · exact mem_uses.2 (Or.inl (OrderedSet.mem_erase.2 hy))

namespace Total

def place : Point := ⟨1, 1⟩

def total : Identifier := ⟨"total", .int, .variable⟩

def price : Identifier := ⟨"price", .float, .variable⟩

/-- The conversion `int(price)`. -/
def rounded : Stmt := .call place "int" .int [.var place price]

/-- The sum `total + int(price)`. -/
def increased : Stmt := .call place "add" .int [.var place total, rounded]

def after : LivenessState := ⟨.ofList [total, price], .singleton total, true, .empty⟩

end Total

open Total

/-- Before a live total is increased by a converted price, the total is live. -/
theorem assignment_uses_total :
    ∃ found t, increased.alternatives = .ok found ∧ Extremal.isBottom after = false ∧
      total ∈ after.live ∧ (∀ y ∈ increased.vars, y ∈ after.vars) ∧
      StateDomain.perform .backward (.assign place (.var place total) increased) after = .ok t ∧
      total ∈ t.live := by
  obtain ⟨found, hfound⟩ : ∃ found, increased.alternatives = .ok found := ⟨_, rfl⟩
  have htotal : total ∈ after.live := by decide
  have hvars : ∀ y ∈ increased.vars, y ∈ after.vars :=
    OrderedSet.subset_eq_true_iff.1 (by decide)
  obtain ⟨t, ht, -, -, hlive⟩ := assignment_uses place place hfound rfl htotal hvars
  exact ⟨found, t, hfound, rfl, htotal, hvars, ht, (hlive total).2 (Or.inl (by decide))⟩

/-- A variable is lost: before a live total is set to a converted price the price is not live, although
its value flows into the total. -/
theorem conversion_hides_operand :
    ∃ found t, rounded.alternatives = .ok found ∧ Extremal.isBottom after = false ∧
      total ∈ after.live ∧ (∀ y ∈ rounded.vars, y ∈ after.vars) ∧
      StateDomain.perform .backward (.assign place (.var place total) rounded) after = .ok t ∧
      price ∈ rounded.vars ∧ price ∉ t.live :=
  ⟨_, _, rfl, rfl, by decide, OrderedSet.subset_eq_true_iff.1 (by decide), rfl, by decide,
    by decide⟩

end LivenessState

end FlowAnalysis
