import FlowAnalysis.Domain
import FlowAnalysis.Proofs.Outcome

/-!
Laws of abstract domains. An analysis rests on an order with upper bounds. Where a domain settles
whatever involves bottom or top and looks into proper elements alone, its laws follow from what holds
between proper elements, and that is shown once for all such domains.
-/

namespace FlowAnalysis

namespace Extremal

variable {α : Type} [Extremal α] {a b c : α}

theorem settledLe_getD_iff {proper : Bool} :
    (settledLe a b).getD proper = true ↔
      isBottom a = true ∨ isTop b = true ∨
        (isBottom b = false ∧ isTop a = false ∧ proper = true) := by
  unfold settledLe
  cases isBottom a <;> cases isTop b <;> cases isBottom b <;> cases isTop a <;> simp

theorem settledJoin_eq_some (h : settledJoin a b = some c) :
    (c = a ∧ (isBottom b = true ∨ isTop a = true)) ∨
      (c = b ∧ (isBottom a = true ∨ isTop b = true)) := by
  unfold settledJoin at h
  split at h
  · rename_i hsettled
    exact Or.inr ⟨(Option.some.inj h).symm, Bool.or_eq_true_iff.1 hsettled⟩
  · split at h
    · rename_i hsettled
      exact Or.inl ⟨(Option.some.inj h).symm, Bool.or_eq_true_iff.1 hsettled⟩
    · cases h

theorem settledMeet_eq_some (h : settledMeet a b = some c) :
    (c = a ∧ (isTop b = true ∨ isBottom a = true)) ∨
      (c = b ∧ (isTop a = true ∨ isBottom b = true)) := by
  unfold settledMeet at h
  split at h
  · rename_i hsettled
    exact Or.inr ⟨(Option.some.inj h).symm, Bool.or_eq_true_iff.1 hsettled⟩
  · split at h
    · rename_i hsettled
      exact Or.inl ⟨(Option.some.inj h).symm, Bool.or_eq_true_iff.1 hsettled⟩
    · cases h

theorem settledMeet_eq_none (h : settledMeet a b = none) :
    isBottom a = false ∧ isBottom b = false := by
  unfold settledMeet at h
  split at h
  · cases h
  · rename_i hfirst
    split at h
    · cases h
    · rename_i hsecond
      simp only [Bool.or_eq_true, not_or, Bool.not_eq_true] at hfirst hsecond
      exact ⟨hsecond.2, hfirst.2⟩

theorem settledJoin_eq_none (h : settledJoin a b = none) :
    (isBottom a = false ∧ isTop a = false) ∧ isBottom b = false ∧ isTop b = false := by
  unfold settledJoin at h
  split at h
  · cases h
  · rename_i hfirst
    split at h
    · cases h
    · rename_i hsecond
      simp only [Bool.or_eq_true, not_or, Bool.not_eq_true] at hfirst hsecond
      exact ⟨⟨hfirst.1, hsecond.2⟩, hsecond.1, hfirst.2⟩

/-- What a join that bottom and top settle can be: the first element, the second, or the outcome of
joining proper elements. -/
theorem settledJoin_cases {proper : Outcome α}
    (h : (settledJoin a b).elim proper pure = .ok c) :
    (c = a ∧ (isBottom b = true ∨ isTop a = true)) ∨
      (c = b ∧ (isBottom a = true ∨ isTop b = true)) ∨
        ((isBottom a = false ∧ isTop a = false) ∧ (isBottom b = false ∧ isTop b = false) ∧
          proper = .ok c) := by
  cases hsettled : settledJoin a b with
  | some u =>
      rw [hsettled] at h
      obtain rfl := pure_eq_ok.1 h
      exact (settledJoin_eq_some hsettled).imp_right Or.inl
  | none =>
      rw [hsettled] at h
      obtain ⟨ha, hb⟩ := settledJoin_eq_none hsettled
      exact Or.inr (Or.inr ⟨ha, hb, h⟩)

/-- What a meet that bottom and top settle can be: the first element, the second, or the outcome of
meeting proper elements. -/
theorem settledMeet_cases {proper : Outcome α} (h : (settledMeet a b).elim proper pure = .ok c) :
    (c = a ∧ (isTop b = true ∨ isBottom a = true)) ∨
      (c = b ∧ (isTop a = true ∨ isBottom b = true)) ∨
        (isBottom a = false ∧ isBottom b = false ∧ proper = .ok c) := by
  cases hsettled : settledMeet a b with
  | some u =>
      rw [hsettled] at h
      obtain rfl := pure_eq_ok.1 h
      exact (settledMeet_eq_some hsettled).imp_right Or.inl
  | none =>
      rw [hsettled] at h
      obtain ⟨ha, hb⟩ := settledMeet_eq_none hsettled
      exact Or.inr (Or.inr ⟨ha, hb, h⟩)

/-- What both elements have and a join of proper elements answers with, every join answers with. -/
theorem settledJoin_answers {P : α → Prop} {proper : Outcome α} (ha : P a) (hb : P b)
    (h : Answers P proper) : Answers P ((settledJoin a b).elim proper pure) := by
  cases hsettled : settledJoin a b with
  | none => exact h
  | some u =>
      rcases settledJoin_eq_some hsettled with ⟨rfl, -⟩ | ⟨rfl, -⟩
      · exact .pure ha
      · exact .pure hb

theorem settledMeet_answers {P : α → Prop} {proper : Outcome α} (ha : P a) (hb : P b)
    (h : Answers P proper) : Answers P ((settledMeet a b).elim proper pure) := by
  cases hsettled : settledMeet a b with
  | none => exact h
  | some u =>
      rcases settledMeet_eq_some hsettled with ⟨rfl, -⟩ | ⟨rfl, -⟩
      · exact .pure ha
      · exact .pure hb

end Extremal

namespace Domain

variable {α : Type} [Domain α]

/-- The laws of order that a fixpoint rests on: joins are above both elements, and a widening is
above the element that arrives. -/
structure UpperBounds (α : Type) [Domain α] : Prop where
  le_refl : ∀ a : α, le a a = true
  le_trans : ∀ {a b c : α}, le a b = true → le b c = true → le a c = true
  le_join_left : ∀ {a b c : α}, join a b = .ok c → le a c = true
  le_join_right : ∀ {a b c : α}, join a b = .ok c → le b c = true
  le_widen_right : ∀ {a b c : α}, widen a b = .ok c → le b c = true

/-- No element is bottom and top, and nothing but bottom is below bottom. -/
structure Extremes (α : Type) [Domain α] : Prop where
  exclusive : ∀ {a : α}, Extremal.isBottom a = true → Extremal.isTop a = false
  bottom_of_le : ∀ {a b : α}, le a b = true → Extremal.isBottom b = true →
    Extremal.isBottom a = true

theorem Extremes.proper_of_le (h : Extremes α) {a b : α} (hle : le a b = true)
    (ha : Extremal.isBottom a = false) : Extremal.isBottom b = false := by
  rw [Bool.eq_false_iff]
  intro hb
  rw [h.bottom_of_le hle hb] at ha
  cases ha

/-- The domain settles what involves bottom or top; proper elements are compared by `below`, joined
by `merge` and widened by `stretch`. -/
structure Extended (below : α → α → Bool) (merge stretch : α → α → Outcome α) : Prop where
  le_eq : ∀ a b : α, le a b = (Extremal.settledLe a b).getD (below a b)
  join_eq : ∀ a b : α, join a b = (Extremal.settledJoin a b).elim (merge a b) pure
  widen_eq : ∀ a b : α, widen a b = (Extremal.settledJoin a b).elim (stretch a b) pure
  exclusive : ∀ {a : α}, Extremal.isBottom a = true → Extremal.isTop a = false

namespace Extended

variable {below : α → α → Bool} {merge stretch : α → α → Outcome α} {a b c : α}

theorem le_iff (h : Extended below merge stretch) :
    le a b = true ↔ Extremal.isBottom a = true ∨ Extremal.isTop b = true ∨
      (Extremal.isBottom b = false ∧ Extremal.isTop a = false ∧ below a b = true) := by
  rw [h.le_eq, Extremal.settledLe_getD_iff]

theorem extremes (h : Extended below merge stretch) : Extremes α where
  exclusive := h.exclusive
  bottom_of_le {a b} hle hb := by
    rcases h.le_iff.1 hle with ha | ht | ⟨hb', -, -⟩
    · exact ha
    · rw [h.exclusive hb] at ht
      cases ht
    · rw [hb] at hb'
      cases hb'

theorem le_refl (h : Extended below merge stretch) (hbelow : below a a = true) : le a a = true := by
  rw [h.le_iff]
  cases hb : Extremal.isBottom a with
  | true => exact Or.inl rfl
  | false =>
      cases ht : Extremal.isTop a with
      | true => exact Or.inr (Or.inl rfl)
      | false => exact Or.inr (Or.inr ⟨rfl, rfl, hbelow⟩)

theorem le_trans (h : Extended below merge stretch)
    (hbelow : below a b = true → below b c = true → below a c = true) (hab : le a b = true)
    (hbc : le b c = true) : le a c = true := by
  rw [h.le_iff] at hab hbc ⊢
  rcases hab with ha | htop | ⟨hb, hta, hab⟩
  · exact Or.inl ha
  · -- only top is above top
    rcases hbc with hb | hc | ⟨-, htop', -⟩
    · rw [h.exclusive hb] at htop
      cases htop
    · exact Or.inr (Or.inl hc)
    · rw [htop] at htop'
      cases htop'
  · rcases hbc with hb' | hc | ⟨hc, -, hbc⟩
    · rw [hb] at hb'
      cases hb'
    · exact Or.inr (Or.inl hc)
    · exact Or.inr (Or.inr ⟨hc, hta, hbelow hab hbc⟩)

/-- What is settled like a join is above the first element if that holds between proper ones. -/
theorem le_settledJoin_left (h : Extended below merge stretch) (hrefl : ∀ a : α, le a a = true)
    {proper : Outcome α} (hproper : proper = .ok c → Extremal.isBottom a = false →
      Extremal.isTop a = false → le a c = true)
    (hjoin : (Extremal.settledJoin a b).elim proper pure = .ok c) : le a c = true := by
  rcases Extremal.settledJoin_cases hjoin with ⟨rfl, -⟩ | ⟨rfl, hset⟩ | ⟨⟨hba, hta⟩, -, hc⟩
  · exact hrefl c
  · exact h.le_iff.2 (hset.imp_right Or.inl)
  · exact hproper hc hba hta

theorem le_settledJoin_right (h : Extended below merge stretch) (hrefl : ∀ a : α, le a a = true)
    {proper : Outcome α} (hproper : proper = .ok c → Extremal.isBottom b = false →
      Extremal.isTop b = false → le b c = true)
    (hjoin : (Extremal.settledJoin a b).elim proper pure = .ok c) : le b c = true := by
  rcases Extremal.settledJoin_cases hjoin with ⟨rfl, hset⟩ | ⟨rfl, -⟩ | ⟨-, ⟨hbb, htb⟩, hc⟩
  · exact h.le_iff.2 (hset.imp_right Or.inl)
  · exact hrefl c
  · exact hproper hc hbb htb

/-- The laws of order follow from those between proper elements. -/
theorem upperBounds (h : Extended below merge stretch) (hrefl : ∀ a : α, below a a = true)
    (htrans : ∀ {a b c : α}, below a b = true → below b c = true → below a c = true)
    (hleft : ∀ {a b c : α}, merge a b = .ok c → Extremal.isBottom a = false →
      Extremal.isTop a = false → le a c = true)
    (hright : ∀ {a b c : α}, merge a b = .ok c ∨ stretch a b = .ok c →
      Extremal.isBottom b = false → Extremal.isTop b = false → le b c = true) :
    UpperBounds α := by
  have hle_refl : ∀ a : α, le a a = true := fun a => h.le_refl (hrefl a)
  refine ⟨hle_refl, h.le_trans htrans, ?_, ?_, ?_⟩
  · intro a b c hjoin
    exact h.le_settledJoin_left hle_refl hleft (h.join_eq a b ▸ hjoin)
  · intro a b c hjoin
    exact h.le_settledJoin_right hle_refl (fun hc => hright (Or.inl hc)) (h.join_eq a b ▸ hjoin)
  · intro a b c hwiden
    exact h.le_settledJoin_right hle_refl (fun hc => hright (Or.inr hc)) (h.widen_eq a b ▸ hwiden)

end Extended

end Domain

end FlowAnalysis
