import FlowAnalysis.Proofs.Container.Assignment
import FlowAnalysis.Proofs.Lattice

/-!
Meets of interval states. The meet of two states over the same identifiers has the meet of their ranges under each
identifier, and is bottom as soon as two ranges have no number in common. A memory that both states reflect has its
numbers and lengths in both ranges, and so have the contents of containers; but where a container has no numeric keys
or values, two states may reflect it with summaries that have nothing in common. The meet is bottom then, although the
summaries say nothing of such a container, and reflects the memory in all other cases.
-/

namespace FlowAnalysis

/-! ### Meets of stores -/

namespace Store

variable {s t : Store Interval}

/-- What meets a top store stays as it is. -/
theorem entrywise_of_isTop_right (htop : Extremal.isTop t = true) : Entrywise Domain.meet s t s := by
  refine ⟨rfl, fun x a b ha hb => ⟨a, ha, congrArg Except.ok ?_⟩⟩
  rw [Interval.meet_comm]
  exact Interval.meet_eq_right (Interval.le_of_isTop (isTop_iff.1 htop x b hb))

theorem entrywise_of_isTop_left (hkeys : s.keys = t.keys) (htop : Extremal.isTop s = true) :
    Entrywise Domain.meet s t t := by
  refine ⟨hkeys.symm, fun x a b ha hb => ⟨b, hb, congrArg Except.ok ?_⟩⟩
  exact Interval.meet_eq_right (Interval.le_of_isTop (isTop_iff.1 htop x a ha))

/-- Stores over the same identifiers that are not bottom are met entry by entry. -/
theorem meet_entrywise (hkeys : s.keys = t.keys) (hs : Extremal.isBottom s = false)
    (ht : Extremal.isBottom t = false) : Answers (Entrywise Domain.meet s t) (Domain.meet s t) := by
  change Answers _ ((Extremal.settledMeet s t).elim (combine Domain.meet s t) pure)
  cases hsettled : Extremal.settledMeet s t with
  | some u =>
      refine .pure ?_
      rcases Extremal.settledMeet_eq_some hsettled with ⟨rfl, htop | hbottom⟩ | ⟨rfl, htop | hbottom⟩
      · exact entrywise_of_isTop_right htop
      · exact absurd hbottom (Bool.eq_false_iff.1 hs)
      · exact entrywise_of_isTop_left hkeys htop
      · exact absurd hbottom (Bool.eq_false_iff.1 ht)
  | none =>
      obtain ⟨u, hu⟩ := combine_pure (f := Interval.meet) hkeys
      exact ⟨u, hu, combine_entrywise hu⟩

end Store

namespace IntervalState

variable {scope : Scope} {m : Memory scope} {s t u : IntervalState} {x y : Identifier} {d : Datum} {q : Rat}

/-! ### Meets of states -/

/-- No number lies in the ranges that both states have for an identifier. -/
def Clash (s t : IntervalState) (y : Identifier) : Prop := ((s.value y).meet (t.value y)).isBottom = true

theorem not_clash_of_mem (hs : q ∈ s.value y) (ht : q ∈ t.value y) : ¬ s.Clash t y :=
  Bool.eq_false_iff.1 (Interval.isBottom_eq_false_of_mem (Interval.mem_meet.2 ⟨hs, ht⟩))

theorem value_of_entrywise (hkeys : s.store.keys = t.store.keys)
    (h : Store.Entrywise Domain.meet s.store t.store u.store) (y : Identifier) :
    u.value y = (s.value y).meet (t.value y) := by
  cases ha : s.get? y with
  | none =>
      -- an identifier that is not kept is unknown in all three states
      have hy : y ∉ s.store.keys := OrderedMap.get?_eq_none_iff.1 ha
      have hb : t.get? y = none := OrderedMap.get?_eq_none_iff.2 (hkeys ▸ hy)
      have hc : u.get? y = none := OrderedMap.get?_eq_none_iff.2 (h.keys_eq ▸ hy)
      rw [value, value, value, ha, hb, hc]
      exact (Interval.meet_eq_right (Interval.le_refl _)).symm
  | some a =>
      obtain ⟨b, hb⟩ := OrderedMap.mem_keys_iff.1 (hkeys ▸ OrderedMap.mem_keys_iff.2 ⟨a, ha⟩)
      obtain ⟨c, hc, hmeet⟩ := h.entry y a b ha hb
      have hb' : t.get? y = some b := hb
      have hc' : u.get? y = some c := hc
      rw [value, value, value, ha, hb', hc']
      exact (pure_eq_ok.1 hmeet).symm

/-- An identifier without a value makes a normalized state bottom, and otherwise nothing changes. -/
theorem isBottom_normalized_iff (hreachable : s.reachable = true) :
    (Extremal.isBottom s.normalized = true ↔ ∃ y, (s.value y).isBottom = true) ∧
      (Extremal.isBottom s.normalized = false → s.normalized = s) := by
  by_cases h : ∀ y range, s.get? y = some range → range.isBottom = false
  · have hproper := isBottom_eq_false_of_values hreachable h
    rw [normalized_eq h, hproper]
    refine ⟨iff_of_false Bool.false_ne_true ?_, fun _ => rfl⟩
    rintro ⟨y, hy⟩
    unfold value at hy
    cases hget : s.get? y with
    | none => simp [hget, isBottom_unknown] at hy
    | some range => simp [hget, h y range hget] at hy
  · push Not at h
    obtain ⟨y, range, hget, hbottom⟩ := h
    have hbottom := Bool.eq_true_of_not_eq_false hbottom
    have hany : s.store.values.any Interval.isBottom = true :=
      List.any_eq_true.2 ⟨range, OrderedMap.mem_values_iff.2 ⟨y, hget⟩, hbottom⟩
    have hbottom' : Extremal.isBottom s.normalized = true := by
      rw [normalized, if_pos hany]
      rfl
    refine ⟨iff_of_true hbottom' ⟨y, ?_⟩, fun h => ?_⟩
    · rw [value, hget]
      exact hbottom
    · rw [hbottom'] at h
      cases h

/-- `u` is bottom exactly if `s` and `t` clash on an identifier, and otherwise has the meet of their ranges. -/
structure IsMeet (s t u : IntervalState) : Prop where
  isBottom_iff : Extremal.isBottom u = true ↔ ∃ y, s.Clash t y
  keys_eq : Extremal.isBottom u = false → u.store.keys = s.store.keys
  value_eq : Extremal.isBottom u = false → ∀ y, u.value y = (s.value y).meet (t.value y)

/-- A state that has the meet of the ranges and a value for every identifier. -/
theorem isMeet_of_entrywise (hkeys : s.store.keys = t.store.keys) (hu : Extremal.isBottom u = false)
    (hvalue : ∀ y, (u.value y).isBottom = false) (h : Store.Entrywise Domain.meet s.store t.store u.store) :
    IsMeet s t u := by
  have hmeet := value_of_entrywise hkeys h
  refine ⟨iff_of_false (Bool.eq_false_iff.1 hu) ?_, fun _ => h.keys_eq, fun _ => hmeet⟩
  rintro ⟨y, hy⟩
  rw [Clash, ← hmeet, hvalue y] at hy
  cases hy

/-- The meet of two states with a value for every identifier. -/
theorem meet_isMeet (hkeys : s.store.keys = t.store.keys) (hs : Extremal.isBottom s = false)
    (ht : Extremal.isBottom t = false) (hsvalue : ∀ y, (s.value y).isBottom = false)
    (htvalue : ∀ y, (t.value y).isBottom = false) : Answers (IsMeet s t) (Domain.meet s t) := by
  change Answers _ ((Extremal.settledMeet s t).elim
    (do return (ofStore (← Domain.meet s.store t.store)).normalized) pure)
  cases hsettled : Extremal.settledMeet s t with
  | some u =>
      refine .pure ?_
      rcases Extremal.settledMeet_eq_some hsettled with ⟨rfl, htop | hbottom⟩ | ⟨rfl, htop | hbottom⟩
      · exact isMeet_of_entrywise hkeys hs hsvalue (Store.entrywise_of_isTop_right (Bool.and_eq_true_iff.1 htop).2)
      · exact absurd hbottom (Bool.eq_false_iff.1 hs)
      · exact isMeet_of_entrywise hkeys ht htvalue
          (Store.entrywise_of_isTop_left hkeys (Bool.and_eq_true_iff.1 htop).2)
      · exact absurd hbottom (Bool.eq_false_iff.1 ht)
  | none =>
      obtain ⟨store, hstore, hentries⟩ := Store.meet_entrywise hkeys (isBottom_eq_false_iff.1 hs).2
        (isBottom_eq_false_iff.1 ht).2
      have hmeet := value_of_entrywise (u := ofStore store) hkeys hentries
      obtain ⟨hbottom, hself⟩ := isBottom_normalized_iff (s := ofStore store) rfl
      refine ⟨(ofStore store).normalized, bind_eq_ok.2 ⟨store, hstore, rfl⟩, ?_, ?_, ?_⟩
      · simp only [hbottom, hmeet, Clash]
      · intro hproper
        rw [hself hproper]
        exact hentries.keys_eq
      · intro hproper
        rw [hself hproper]
        exact hmeet

/-! ### Memories that both states reflect -/

/-- Two states have summaries without a common number where a value has nothing to summarize. -/
def SummariesClash (s t : IntervalState) (x : Identifier) (d : Datum) : Prop :=
  (d.keys = [] ∧ s.Clash t x.keysOf) ∨ (d.values = [] ∧ s.Clash t x.valuesOf)

/-- Two states that reflect a memory can only clash on the summaries of a container with nothing to summarize. -/
theorem Reflects.summariesClash (h : s.Reflects m) (h' : t.Reflects m) (hclash : s.Clash t y) :
    ∃ x ∈ scope.vars, x.type.isContainer = true ∧ s.SummariesClash t x (m.value x) := by
  have hy : y ∈ s.store.keys := by
    by_contra hy
    have hs : s.get? y = none := OrderedMap.get?_eq_none_iff.2 hy
    have ht : t.get? y = none := OrderedMap.get?_eq_none_iff.2 fun hmem => hy ((h.mem_keys y).2 ((h'.mem_keys y).1 hmem))
    rw [Clash, value, value, hs, ht, Interval.meet_eq_right (Interval.le_refl _)] at hclash
    exact absurd hclash (Bool.eq_false_iff.1 (isBottom_unknown y))
  obtain ⟨x, hx, hyx⟩ := (h.mem_keys y).1 hy
  have hknows := h.knows x hx
  have hknows' := h'.knows x hx
  rcases mem_tracked.1 hyx with ⟨rfl, hnumeric⟩ | ⟨rfl, hlength⟩ | ⟨rfl | rfl, -, hcontainer⟩
  · obtain ⟨n, hn⟩ := (m.fits y hx).suits hnumeric
    exact absurd hclash (not_clash_of_mem (hknows.number hnumeric n hn) (hknows'.number hnumeric n hn))
  · obtain ⟨n, hn⟩ := Scope.exists_size hx hlength (m.fits x hx)
    exact absurd hclash (not_clash_of_mem (hknows.length hlength n hn) (hknows'.length hlength n hn))
  · refine ⟨x, hx, hcontainer, Or.inl ⟨List.eq_nil_iff_forall_not_mem.2 fun k hk => ?_, hclash⟩⟩
    exact not_clash_of_mem (hknows.keys hcontainer k hk) (hknows'.keys hcontainer k hk) hclash
  · refine ⟨x, hx, hcontainer, Or.inr ⟨List.eq_nil_iff_forall_not_mem.2 fun v hv => ?_, hclash⟩⟩
    exact not_clash_of_mem (hknows.values hcontainer v hv) (hknows'.values hcontainer v hv) hclash

/-- A state that has the meet of the ranges of two states reflects what both reflect. -/
theorem Reflects.meet (h : s.Reflects m) (h' : t.Reflects m) (hkeys : u.store.keys = s.store.keys)
    (hvalue : ∀ y, u.value y = (s.value y).meet (t.value y)) : u.Reflects m where
  mem_keys y := hkeys ▸ h.mem_keys y
  knows x hx := by
    have hmem : ∀ {y : Identifier} {q : Rat}, q ∈ s.value y → q ∈ t.value y → q ∈ u.value y := by
      intro y q hs ht
      rw [hvalue]
      exact Interval.mem_meet.2 ⟨hs, ht⟩
    have hknows := h.knows x hx
    have hknows' := h'.knows x hx
    exact {
      number := fun htype n hn => hmem (hknows.number htype n hn) (hknows'.number htype n hn)
      length := fun hlength n hn => hmem (hknows.length hlength n hn) (hknows'.length hlength n hn)
      keys := fun htype k hk => hmem (hknows.keys htype k hk) (hknows'.keys htype k hk)
      values := fun htype v hv => hmem (hknows.values htype v hv) (hknows'.values htype v hv) }

/-- The meet of two states that reflect a memory is bottom exactly if they have summaries without a common number for
a container that has no numeric keys, or no numeric values; otherwise the meet reflects the memory. -/
theorem meet_reflects (hkeys : s.store.keys = t.store.keys) (hs : Extremal.isBottom s = false)
    (ht : Extremal.isBottom t = false) (h : s.Reflects m) (h' : t.Reflects m) :
    ∃ u, Domain.meet s t = .ok u ∧
      (Extremal.isBottom u = true ↔
        ∃ x ∈ scope.vars, x.type.isContainer = true ∧ s.SummariesClash t x (m.value x)) ∧
      (Extremal.isBottom u = false → u.Reflects m) := by
  obtain ⟨u, hu, hmeet⟩ := meet_isMeet hkeys hs ht (h.isBottom_value hs) (h'.isBottom_value ht)
  refine ⟨u, hu, ?_, fun hproper => h.meet h' (hmeet.keys_eq hproper) (hmeet.value_eq hproper)⟩
  rw [hmeet.isBottom_iff]
  constructor
  · rintro ⟨y, hclash⟩
    exact h.summariesClash h' hclash
  · rintro ⟨x, -, -, ⟨-, hclash⟩ | ⟨-, hclash⟩⟩
    · exact ⟨_, hclash⟩
    · exact ⟨_, hclash⟩

namespace Truths

theorem keys_known (size keys values : Interval) :
    (known size keys values).store.keys = (ofVariables [truths]).store.keys := by
  rw [known, keys_set, keys_set, keys_set]

end Truths

/-- The dictionary `{0: True}`, known by one state to have at most two entries and by the other to have one, is known
by their meet. -/
theorem meet_reflects_truths :
    let s := Truths.known (.of 0 2) (.of 0 1) (.point 1)
    let t := Truths.known (.point 1) .top (.of 0 1)
    s.Reflects Truths.single ∧ t.Reflects Truths.single ∧
      ∃ u, Domain.meet s t = .ok u ∧ Extremal.isBottom u = false ∧ u.Reflects Truths.single := by
  intro s t
  obtain ⟨hs, h⟩ := Truths.known_reflects_single (show 1 ∈ Interval.of 0 2 by decide)
    (show 0 ∈ Interval.of 0 1 by decide) (show 1 ∈ Interval.point 1 by decide)
  obtain ⟨ht, h'⟩ := Truths.known_reflects_single (show 1 ∈ Interval.point 1 by decide)
    (show 0 ∈ Interval.top by decide) (show 1 ∈ Interval.of 0 1 by decide)
  have hkeys : s.store.keys = t.store.keys := (Truths.keys_known ..).trans (Truths.keys_known ..).symm
  obtain ⟨u, hu, hbottom, hreflects⟩ := meet_reflects hkeys hs ht h h'
  have hproper : Extremal.isBottom u = false := by
    rw [Bool.eq_false_iff, Ne, hbottom]
    rintro ⟨x, -, -, ⟨hnone, -⟩ | ⟨hnone, -⟩⟩
    · cases hnone
    · cases hnone
  exact ⟨h, h', u, hu, hproper, hreflects hproper⟩

/-- Meets lose memories: the empty dictionary is reflected by two states that know of at most one entry, `False` in the
one and `True` in the other, but their meet is bottom. -/
theorem meet_loses_vacant :
    let s := Truths.known (.of 0 1) .top (.point 0)
    let t := Truths.known (.of 0 1) .top (.point 1)
    (Extremal.isBottom s = false ∧ s.Reflects Truths.vacant) ∧
      (Extremal.isBottom t = false ∧ t.Reflects Truths.vacant) ∧ s.store.keys = t.store.keys ∧
      ∃ u, Domain.meet s t = .ok u ∧ Extremal.isBottom u = true := by
  intro s t
  have hlost : (Domain.meet s t).toOption.any Extremal.isBottom = true := by decide +kernel
  obtain ⟨u, hu, hbottom⟩ := (Option.any_eq_true _ _).1 hlost
  exact ⟨Truths.known_reflects_vacant (by decide) rfl rfl, Truths.known_reflects_vacant (by decide) rfl rfl,
    (Truths.keys_known ..).trans (Truths.keys_known ..).symm, u, toOption_eq_some.1 hu, hbottom⟩

end IntervalState

end FlowAnalysis
