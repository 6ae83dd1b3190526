import FlowAnalysis.Proofs.Interval.Environment
import FlowAnalysis.Proofs.Interval.Negation

/-!
Evaluation is monotone. If one environment knows at least as much of all variables as another one, an expression has a
smaller range in it, or fails in both with the same error. Each operation is monotone: sums and products because
rounding is, comparisons and connectives because what is certain of more numbers is certain of fewer. The exception is
the number of steps of a range, which is known where the ends are and not where one of them is infeasible.
-/

namespace FlowAnalysis

namespace Bound

variable {a a' b b' : Bound}

protected theorem add_le_add (ha : a ≤ a') (hb : b ≤ b') : a.add b ≤ a'.add b' := by
  cases a with
  | negInf => exact negInf_le _
  | posInf =>
      obtain rfl := posInf_le.1 ha
      cases b with
      | negInf => exact negInf_le _
      | posInf =>
          obtain rfl := posInf_le.1 hb
          exact le_refl _
      | fin y =>
          cases b' with
          | negInf => exact absurd rfl (ne_negInf_of_fin_le hb)
          | posInf => exact le_refl _
          | fin y' => exact le_refl _
  | fin x =>
      cases b with
      | negInf => exact negInf_le _
      | posInf =>
          obtain rfl := posInf_le.1 hb
          cases a' with
          | negInf => exact absurd rfl (ne_negInf_of_fin_le ha)
          | posInf => exact le_refl _
          | fin x' => exact le_refl _
      | fin y => exact round_le_add ha hb

theorem le_foldl_min {v : Bound} {bounds : List Bound} (h : ∀ p ∈ bounds, v ≤ p) :
    v ≤ bounds.foldl .min .posInf := by
  have hfold : ∀ start, v ≤ start → v ≤ bounds.foldl .min start := by
    induction bounds with
    | nil => exact fun start hstart => hstart
    | cons p bounds ih =>
        obtain ⟨hp, hbounds⟩ := List.forall_mem_cons.1 h
        exact fun start hstart => ih hbounds _ (le_min hstart hp)
  exact hfold _ (le_posInf v)

theorem foldl_max_le {v : Bound} {bounds : List Bound} (h : ∀ p ∈ bounds, p ≤ v) :
    bounds.foldl .max .negInf ≤ v := by
  have hfold : ∀ start, start ≤ v → bounds.foldl .max start ≤ v := by
    induction bounds with
    | nil => exact fun start hstart => hstart
    | cons p bounds ih =>
        obtain ⟨hp, hbounds⟩ := List.forall_mem_cons.1 h
        exact fun start hstart => ih hbounds _ (max_le hstart hp)
  exact hfold _ (negInf_le v)

end Bound

namespace Interval

variable {a a' b b' c c' : Interval} {op : Comparison}

/-! ### Arithmetic -/

/-- What is bottom if an operand is, is monotone if it is for operands that are not. -/
theorem guarded_mono (ha : a.le a' = true) (hb : b.le b' = true)
    (h : a.isBottom = false → b.isBottom = false → c.le c' = true) :
    (if a.isBottom || b.isBottom then bottom else c).le (if a'.isBottom || b'.isBottom then bottom else c') = true := by
  split
  · exact bottom_le _
  · rename_i hproper
    rw [Bool.or_eq_true, not_or, Bool.not_eq_true, Bool.not_eq_true] at hproper
    rw [isBottom_eq_false_of_le ha hproper.1, isBottom_eq_false_of_le hb hproper.2]
    exact h hproper.1 hproper.2

theorem neg_mono (h : a.le b = true) : a.neg.le b.neg = true := by
  have hneg : ∀ c : Interval, c.neg = of c.upper.neg c.lower.neg := by
    intro c
    cases hc : c.isBottom with
    | true => rw [isBottom_iff.1 hc]; rfl
    | false => rw [Interval.neg, hc]; rfl
  rw [le_iff] at h
  rw [hneg, hneg]
  exact of_mono (Bound.neg_le_neg h.2) (Bound.neg_le_neg h.1)

theorem add_mono (ha : a.le a' = true) (hb : b.le b' = true) : (a.add b).le (a'.add b') = true := by
  refine guarded_mono ha hb fun _ _ => ?_
  rw [le_iff] at ha hb
  exact of_mono (Bound.add_le_add ha.1 hb.1) (Bound.add_le_add ha.2 hb.2)

theorem sub_mono (ha : a.le a' = true) (hb : b.le b' = true) : (a.sub b).le (a'.sub b') = true := by
  refine guarded_mono ha hb fun _ _ => ?_
  rw [le_iff] at ha hb
  exact of_mono (Bound.add_le_add ha.1 (Bound.neg_le_neg hb.2)) (Bound.add_le_add ha.2 (Bound.neg_le_neg hb.1))

/-- The bounds of smaller operands lie inside the larger ones, and so do their products. -/
theorem mul_mono (ha : a.le a' = true) (hb : b.le b' = true) : (a.mul b).le (a'.mul b') = true := by
  refine guarded_mono ha hb fun hproper hproper' => ?_
  have hle := (isBottom_eq_false_iff.1 hproper).1
  have hle' := (isBottom_eq_false_iff.1 hproper').1
  rw [le_iff] at ha hb
  have hinside : ∀ p ∈ corners a b,
      (corners a' b').foldl .min .posInf ≤ p ∧ p ≤ (corners a' b').foldl .max .negInf := by
    have hlower : a'.lower ≤ a.lower ∧ a.lower ≤ a'.upper := ⟨ha.1, hle.trans ha.2⟩
    have hupper : a'.lower ≤ a.upper ∧ a.upper ≤ a'.upper := ⟨ha.1.trans hle, ha.2⟩
    have hlower' : b'.lower ≤ b.lower ∧ b.lower ≤ b'.upper := ⟨hb.1, hle'.trans hb.2⟩
    have hupper' : b'.lower ≤ b.upper ∧ b.upper ≤ b'.upper := ⟨hb.1.trans hle', hb.2⟩
    simp only [corners, List.forall_mem_cons]
    exact ⟨corners_between hlower hlower', corners_between hlower hupper', corners_between hupper hlower',
      corners_between hupper hupper', List.forall_mem_nil _⟩
  exact of_mono (Bound.le_foldl_min fun p hp => (hinside p hp).1) (Bound.foldl_max_le fun p hp => (hinside p hp).2)

theorem div_mono (ha : a.le a' = true) (hb : b.le b' = true) : (a.div b).le (a'.div b') = true :=
  guarded_mono ha hb fun _ _ => Interval.le_refl _

theorem arithmetic_mono (op : Arithmetic) (ha : a.le a' = true) (hb : b.le b' = true) :
    (arithmetic op a b).le (arithmetic op a' b') = true := by
  cases op with
  | add => exact add_mono ha hb
  | sub => exact sub_mono ha hb
  | mul => exact mul_mono ha hb
  | div => exact div_mono ha hb

/-! ### Truth values -/

/-- Below an interval with one number there are that interval and bottom. -/
theorem eq_of_le_singleton (ha : a.isBottom = false) (hle : a.le b = true) (hb : b.isSingleton = true) : a = b := by
  have hbounds : b.lower = b.upper := of_decide_eq_true hb
  have hends := (isBottom_eq_false_iff.1 ha).1
  rw [le_iff] at hle
  refine Interval.ext (le_antisymm ?_ hle.1) (le_antisymm hle.2 ?_)
  · exact hends.trans (hle.2.trans hbounds.ge)
  · exact hbounds.ge.trans (hle.1.trans hends)

theorem falsity_le_maybe : falsity.le maybe = true := by decide +kernel

theorem truth_le_maybe : truth.le maybe = true := by decide +kernel

theorem truthValue_le_maybe (a : Interval) : a.truthValue.le maybe = true := by
  rcases truthValue_cases a with h | h | h | h <;> rw [h]
  · exact bottom_le _
  · exact falsity_le_maybe
  · exact truth_le_maybe
  · exact Interval.le_refl _

theorem truthValue_mono (h : a.le b = true) : a.truthValue.le b.truthValue = true := by
  cases ha : a.isBottom with
  | true =>
      rw [truthValue, ha]
      exact le_of_isBottom ha
  | false =>
      have hb := isBottom_eq_false_of_le h ha
      by_cases hfalse : b = falsity
      · rw [eq_of_le_singleton ha h (hfalse ▸ rfl)]
        exact Interval.le_refl _
      · by_cases hzero : b.contains 0 = true
        · have hmaybe : b.truthValue = maybe := by simp [truthValue, hb, hfalse, hzero]
          rw [hmaybe]
          exact truthValue_le_maybe a
        · -- zero is in neither, so that both are true
          have hzero' : ¬ a.contains 0 = true := fun h0 => hzero (contains_of_le h h0)
          have hfalse' : a ≠ falsity := by
            rintro rfl
            exact hzero' (by decide +kernel)
          simp [truthValue, ha, hb, hfalse, hfalse', hzero, hzero', Interval.le_refl]

theorem negation_mono (h : a.le b = true) : a.truthValue.negation.le b.truthValue.negation = true := by
  have hle := truthValue_mono h
  cases ha : a.truthValue.isBottom with
  | true =>
      rw [isBottom_iff.1 ha]
      exact bottom_le _
  | false =>
      rcases truthValue_cases b with hb | hb | hb | hb
      · rw [hb] at hle
        exact absurd rfl (Bool.eq_false_iff.1 (isBottom_eq_false_of_le hle ha))
      · rw [eq_of_le_singleton ha hle (hb ▸ rfl)]
        exact Interval.le_refl _
      · rw [eq_of_le_singleton ha hle (hb ▸ rfl)]
        exact Interval.le_refl _
      · rw [hb]
        rcases truthValue_cases a with ha' | ha' | ha' | ha' <;> rw [ha'] <;> decide +kernel

/-- One truth value `z` decides a connective, the other one `o` only if it is that of both sides. -/
theorem decided_mono {z o : Interval} (hz : z.isSingleton = true) (ho : o.isSingleton = true)
    (hzmaybe : z.le maybe = true) (homaybe : o.le maybe = true) (hproper : a.isBottom = false)
    (hproper' : b.isBottom = false) (ha : a.le a' = true) (hb : b.le b' = true) :
    (if a = z || b = z then z else if a = o && b = o then o else maybe).le
      (if a' = z || b' = z then z else if a' = o && b' = o then o else maybe) = true := by
  have hleft : ∀ {c : Interval}, c.isSingleton = true → a' = c → a = c :=
    fun hc h => (eq_of_le_singleton hproper ha (h ▸ hc)).trans h
  have hright : ∀ {c : Interval}, c.isSingleton = true → b' = c → b = c :=
    fun hc h => (eq_of_le_singleton hproper' hb (h ▸ hc)).trans h
  simp only [Bool.or_eq_true, Bool.and_eq_true, decide_eq_true_eq]
  by_cases hsettled : a' = z ∨ b' = z
  · rw [if_pos hsettled, if_pos (hsettled.imp (hleft hz) (hright hz))]
    exact Interval.le_refl z
  · rw [if_neg hsettled]
    by_cases hboth : a' = o ∧ b' = o
    · obtain rfl : a = a' := (hleft ho hboth.1).trans hboth.1.symm
      obtain rfl : b = b' := (hright ho hboth.2).trans hboth.2.symm
      rw [if_neg hsettled]
      exact Interval.le_refl _
    · rw [if_neg hboth]
      split_ifs
      · exact hzmaybe
      · exact homaybe
      · exact Interval.le_refl _

theorem connective_mono (op : Connective) (ha : a.le a' = true) (hb : b.le b' = true) :
    (connective op a b).le (connective op a' b') = true := by
  refine guarded_mono ha hb fun hproper hproper' => ?_
  cases op with
  | and => exact decided_mono rfl rfl falsity_le_maybe truth_le_maybe hproper hproper' ha hb
  | or => exact decided_mono rfl rfl truth_le_maybe falsity_le_maybe hproper hproper' ha hb

/-! ### Comparisons -/

/-- What holds for all members of two intervals holds for all members of smaller ones. -/
theorem verdict_fst_anti (hproper : a.isBottom = false) (hproper' : b.isBottom = false) (ha : a.le a' = true)
    (hb : b.le b' = true) (h : (verdict op a' b').1 = true) : (verdict op a b).1 = true := by
  have hequal : (a'.isSingleton && decide (a' = b')) = true → (a.isSingleton && decide (a = b)) = true := by
    intro h
    rw [Bool.and_eq_true, decide_eq_true_iff] at h
    obtain ⟨hsingle, rfl⟩ := h
    rw [eq_of_le_singleton hproper ha hsingle, eq_of_le_singleton hproper' hb hsingle, hsingle]
    exact decide_eq_true rfl
  have hapart : (a'.meet b').isBottom = true → (a.meet b).isBottom = true := by
    intro h
    rw [meet_comm]
    refine isBottom_meet_of_le hb ?_
    rw [meet_comm]
    exact isBottom_meet_of_le ha h
  rw [le_iff] at ha hb
  cases op with
  | lt => exact decide_eq_true ((ha.2.trans_lt (of_decide_eq_true h)).trans_le hb.1)
  | le => exact decide_eq_true ((ha.2.trans (of_decide_eq_true h)).trans hb.1)
  | gt => exact decide_eq_true ((hb.2.trans_lt (of_decide_eq_true h)).trans_le ha.1)
  | ge => exact decide_eq_true ((hb.2.trans (of_decide_eq_true h)).trans ha.1)
  | eq => exact hequal h
  | is => exact hequal h
  | ne => exact hapart h
  | isNot => exact hapart h
  | isIn => exact h
  | notIn => exact h

theorem verdict_snd_anti (hproper : a.isBottom = false) (hproper' : b.isBottom = false) (ha : a.le a' = true)
    (hb : b.le b' = true) (h : (verdict op a' b').2 = true) : (verdict op a b).2 = true := by
  rw [← Prod.fst_swap, ← verdict_negated] at h ⊢
  exact verdict_fst_anti hproper hproper' ha hb h

theorem comparison_mono (op : Comparison) (ha : a.le a' = true) (hb : b.le b' = true) :
    (comparison op a b).le (comparison op a' b') = true := by
  refine guarded_mono ha hb fun hproper hproper' => ?_
  by_cases hholds : (verdict op a' b').1 = true
  · rw [if_pos hholds, if_pos (verdict_fst_anti hproper hproper' ha hb hholds)]
    exact Interval.le_refl _
  · rw [if_neg hholds]
    by_cases hfails : (verdict op a' b').2 = true
    · have hfails' := verdict_snd_anti hproper hproper' ha hb hfails
      have hnot : ¬ (verdict op a b).1 = true := fun h =>
        absurd hfails' (Bool.eq_false_iff.1 (verdict_exclusive hproper hproper' h))
      rw [if_pos hfails, if_neg hnot, if_pos hfails']
      exact Interval.le_refl _
    · rw [if_neg hfails]
      split_ifs
      · exact truth_le_maybe
      · exact falsity_le_maybe
      · exact Interval.le_refl _

/-! ### Items and parts -/

/-- What is not a number is top unless it is infeasible. -/
theorem item_mono (type : Ty) (h : a.le b = true) :
    (if type.isNumeric || a.isBottom then a else top).le (if type.isNumeric || b.isBottom then b else top) = true := by
  cases hnumeric : type.isNumeric with
  | true => exact h
  | false =>
      cases ha : a.isBottom with
      | true => exact le_of_isBottom ha
      | false =>
          rw [isBottom_eq_false_of_le h ha]
          exact Interval.le_refl _

/-- Every operation but the counting of steps is monotone. -/
theorem respected_le : Respected fun a b => a.le b = true where
  refl := Interval.le_refl
  neg := neg_mono
  negation := negation_mono
  arithmetic op _ _ _ _ := arithmetic_mono op
  connective op _ _ _ _ ha hb := connective_mono op (truthValue_mono ha) (truthValue_mono hb)
  comparison op _ _ _ _ := comparison_mono op
  item type _ _ := item_mono type
  part h := of_mono (le_refl _) (le_iff.1 h).2

-- An infeasible start leaves the number of steps unknown, which a start that is known does not.
example : (stepCount bottom (point 3) (point 1)).le (stepCount (point 0) (point 3) (point 1)) = false := by
  decide +kernel

end Interval

/-- An environment knows of every variable at least as much as another one. -/
structure Environment.Below (env env' : Environment) : Prop where
  value : ∀ x, (env.value x).le (env'.value x) = true
  members : ∀ container view, (env.members container view).le (env'.members container view) = true
  element : ∀ container {key key'}, key.le key' = true →
    (env.element container key).le (env'.element container key') = true

/-- Evaluation is monotone: where more is known, an expression that does not take the length of a range has a smaller
range, and it fails with the same error or not at all. -/
theorem evaluate_monotone {env env' : Environment} {e : Expr} (h : env.Below env') (hcounts : e.countsRange = false) :
    (∃ error, evaluate env e = .error error ∧ evaluate env' e = .error error) ∨
      ∃ a b, evaluate env e = .ok a ∧ evaluate env' e = .ok b ∧ a.le b = true := by
  have hrelated : env.Related (fun a b => a.le b = true) (fun _ => True) env' :=
    ⟨fun x _ => h.value x, fun x _ => h.value x.lengthOf, fun x _ => h.element x⟩
  have halike := evaluate_alike Interval.respected_le hrelated e (fun _ _ => trivial) fun hcount =>
    absurd hcount (Bool.eq_false_iff.1 hcounts)
  exact halike.cases

namespace Squaring

def index : Identifier := ⟨"i", .int, .variable⟩

def items : Identifier := ⟨"l", .list .int, .variable⟩

/-- All numbers lie in one range, and a container holds each key under itself. -/
def environment (range : Interval) : Environment where
  value _ := range
  element _ key := key
  members _ _ := range

/-- The condition `l[i] * i > 3`. -/
def condition : Expr :=
  .compare (.arithmetic .int (.item .int (.var items) (.var index)) .mul (.var index)) .gt (.ofInt 3)

theorem environment_below {a b : Interval} (h : a.le b = true) : (environment a).Below (environment b) :=
  ⟨fun _ => h, fun _ _ => h, fun _ _ _ hkey => hkey⟩

end Squaring

/-- A condition that is certain of the numbers from two to three is unknown of all numbers from zero. -/
theorem evaluate_monotone_squaring :
    (Squaring.environment (.of 2 3)).Below (Squaring.environment .nonNegative) ∧
      Squaring.condition.countsRange = false ∧
      evaluate (Squaring.environment (.of 2 3)) Squaring.condition = .ok .truth ∧
      evaluate (Squaring.environment .nonNegative) Squaring.condition = .ok .maybe ∧
      Interval.truth.le .maybe = true := by
  have hbelow := Squaring.environment_below (show (Interval.of 2 3).le .nonNegative = true by decide +kernel)
  have hnarrow : evaluate (Squaring.environment (.of 2 3)) Squaring.condition = .ok .truth := by decide +kernel
  have hwide : evaluate (Squaring.environment .nonNegative) Squaring.condition = .ok .maybe := by decide +kernel
  refine ⟨hbelow, rfl, hnarrow, hwide, ?_⟩
  rcases evaluate_monotone hbelow (e := Squaring.condition) rfl with ⟨error, herror, -⟩ | ⟨a, b, ha, hb, hle⟩
  · rw [hnarrow] at herror
    cases herror
  · rw [hnarrow, Except.ok.injEq] at ha
    rw [hwide, Except.ok.injEq] at hb
    exact ha ▸ hb ▸ hle

end FlowAnalysis
