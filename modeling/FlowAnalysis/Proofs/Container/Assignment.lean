import FlowAnalysis.Proofs.Container.State

/-!
Assignments of interval states are sound for programs with containers. The summaries of an expression hold the keys and
the values of the container that it denotes, whichever of its forms it has, and its length is followed by another
recursion. Whatever is assigned to a variable or written to an item, the state afterwards is not bottom and reflects
the memory afterwards, if every part of the assignment has a value. An operand that a connective does not need may
have none; such an assignment can be lost.
-/

namespace FlowAnalysis

variable {scope : Scope} {m m' : Memory scope} {x y : Identifier} {d : Datum} {e : Expr}

namespace Interval

/-- The length of a dictionary that gains an entry or keeps its length. -/
theorem mem_grown {n k : Nat} {size : Interval} (hn : (n : Rat) ∈ size) (hsmall : n < 2 ^ 53) (hpos : 0 < k)
    (hgrows : k = n ∨ k = n + 1) : (k : Rat) ∈ of (size.lower.max 1) (size.upper.add 1) := by
  obtain ⟨hlower, hupper⟩ := mem_iff.1 hn
  have hnext : .fin ((n : Int) + 1 : Int) ≤ size.upper.add 1 :=
    Bound.le_add_one (by rw [Nat.abs_cast]; exact_mod_cast hsmall) (by rwa [Int.cast_natCast])
  refine mem_of.2 ⟨?_, le_trans (Bound.fin_le_fin.2 ?_) hnext⟩
  · rw [Bound.max_eq]
    refine max_le (hlower.trans (Bound.fin_le_fin.2 ?_)) (Bound.fin_le_fin.2 (by exact_mod_cast hpos))
    have hle : n ≤ k := by omega
    exact_mod_cast hle
  · have hle : k ≤ n + 1 := by omega
    exact_mod_cast hle

end Interval

/-! ### Summaries -/

namespace Datum

/-- Two ranges hold the numeric keys and the numeric values. -/
structure Summarized (d : Datum) (keys values : Interval) : Prop where
  keys : ∀ k ∈ d.keys, k ∈ keys
  values : ∀ v ∈ d.values, v ∈ values

theorem summarized_top (d : Datum) : d.Summarized .top .top :=
  ⟨fun _ _ => Interval.mem_top, fun _ _ => Interval.mem_top⟩

theorem summarized_number {n : Number} {keys values : Interval} : (number n).Summarized keys values :=
  ⟨List.forall_mem_nil _, List.forall_mem_nil _⟩

theorem mem_positions {n : Nat} {q : Rat} : q ∈ positions n ↔ ∃ i < n, (i : Rat) = q := by
  simp only [positions, List.mem_map, List.mem_range]

/-- Positions are counted from zero. -/
theorem mem_nonNegative_of_position {n : Nat} {q : Rat} (h : q ∈ positions n) : q ∈ Interval.nonNegative := by
  obtain ⟨i, -, rfl⟩ := mem_positions.1 h
  exact Interval.natCast_mem_nonNegative i

/-- The greatest position is one below the length. -/
theorem mem_of_position {n : Nat} {q : Rat} {upper : Bound} (hupper : .fin (n - 1 : Int) ≤ upper)
    (h : q ∈ positions n) : q ∈ Interval.of 0 upper := by
  obtain ⟨i, hi, rfl⟩ := mem_positions.1 h
  refine Interval.mem_of.2 ⟨Bound.fin_le_fin.2 (Nat.cast_nonneg i), le_trans ?_ hupper⟩
  refine Bound.fin_le_fin.2 ?_
  have hle : (i : Int) ≤ n - 1 := by omega
  exact_mod_cast hle

/-- The same for a length of which only a range is known. -/
theorem mem_of_position_of_size {n : Nat} {q : Rat} {size : Interval} (hn : (n : Rat) ∈ size) (hsmall : n < 2 ^ 53)
    (h : q ∈ positions n) : q ∈ Interval.of 0 (size.upper.sub 1) := by
  refine mem_of_position (Bound.le_sub_one (m := n) ?_ ?_) h
  · rw [Nat.abs_cast]
    exact_mod_cast hsmall
  · rw [Int.cast_natCast]
    exact (Interval.mem_iff.1 hn).2

theorem numbers_mono {items others : List Datum} (h : ∀ item ∈ items, item ∈ others) {q : Rat}
    (hq : q ∈ numbers items) : q ∈ numbers others := by
  obtain ⟨n, hn, rfl⟩ := mem_numbers.1 hq
  exact mem_numbers.2 ⟨n, h _ hn, rfl⟩

theorem numbers_map_number (items : List Number) : numbers (items.map .number) = items.map Number.value := by
  rw [numbers, List.filterMap_map]
  exact List.filterMap_eq_map_iff_forall_eq_some.2 fun _ _ => rfl

/-- The numeric keys and values of a dictionary are among those that were written. -/
theorem Filled.mem_numbers {keys values : List Datum} {entries : List (Datum × Datum)} (h : Filled keys values entries) :
    (∀ q ∈ numbers (entries.map Prod.fst), q ∈ numbers keys) ∧
      (∀ q ∈ numbers (entries.map Prod.snd), q ∈ numbers values) := by
  constructor
  · refine fun q => numbers_mono fun item hitem => ?_
    obtain ⟨entry, hentry, rfl⟩ := List.mem_map.1 hitem
    exact (h.mem hentry).1
  · refine fun q => numbers_mono fun item hitem => ?_
    obtain ⟨entry, hentry, rfl⟩ := List.mem_map.1 hitem
    exact (h.mem hentry).2

/-- A slice holds values of the whole, at positions of its own. -/
theorem Summarized.slice {lower upper : Option Int} {stride : Int} {c : Datum} {keys values : Interval}
    (h : c.Summarized keys values) (hslice : c.slice? lower upper stride = some d) :
    d.Summarized .nonNegative values := by
  cases c with
  | text content =>
      obtain rfl := Option.some.inj hslice
      exact ⟨List.forall_mem_nil _, List.forall_mem_nil _⟩
  | list items =>
      obtain rfl := Option.some.inj hslice
      exact ⟨fun k => mem_nonNegative_of_position,
        fun v hv => h.values v (numbers_mono (fun _ => mem_of_mem_sliced) hv)⟩
  | tuple items =>
      obtain rfl := Option.some.inj hslice
      exact ⟨fun k => mem_nonNegative_of_position,
        fun v hv => h.values v (numbers_mono (fun _ => mem_of_mem_sliced) hv)⟩
  | _ => cases hslice

/-- A concatenation holds values of both sides. -/
theorem Summarized.append {op : Arithmetic} {b c : Datum} {keys₁ values₁ keys₂ values₂ : Interval}
    (hb : b.Summarized keys₁ values₁) (hc : c.Summarized keys₂ values₂) (h : op.Combines b c d) :
    d.Summarized .nonNegative (values₁.join values₂) := by
  have hvalues : ∀ xs ys : List Datum, (∀ v ∈ numbers xs, v ∈ values₁) → (∀ v ∈ numbers ys, v ∈ values₂) →
      ∀ v ∈ numbers (xs ++ ys), v ∈ values₁.join values₂ := by
    intro xs ys hxs hys v hv
    rw [numbers, List.filterMap_append] at hv
    rcases List.mem_append.1 hv with hv | hv
    · exact Interval.mem_of_le (Interval.le_join_left _ _) (hxs v hv)
    · exact Interval.mem_of_le (Interval.le_join_right _ _) (hys v hv)
  cases h with
  | number _ _ => exact summarized_number
  | text _ _ => exact ⟨List.forall_mem_nil _, List.forall_mem_nil _⟩
  | list xs ys => exact ⟨fun k => mem_nonNegative_of_position, hvalues xs ys hb.values hc.values⟩
  | tuple xs ys => exact ⟨fun k => mem_nonNegative_of_position, hvalues xs ys hb.values hc.values⟩

/-- A numeric key or value of a dictionary after a write. -/
theorem WithItem.mem_numbers {entries entries' : List (Datum × Datum)} {key item : Datum}
    {part : Datum × Datum → Datum} (h : WithItem (dict entries) key item (dict entries')) {q : Rat}
    (hq : q ∈ numbers (entries'.map part)) :
    (part (key, item)).number? = some q ∨ q ∈ numbers (entries.map part) := by
  obtain ⟨d, hd, hq⟩ := List.mem_filterMap.1 hq
  obtain ⟨entry, hentry, rfl⟩ := List.mem_map.1 hd
  rcases h.mem hentry with rfl | hentry
  · exact Or.inl hq
  · exact Or.inr (List.mem_filterMap.2 ⟨_, List.mem_map_of_mem hentry, hq⟩)

theorem In.mem {a : Interval} {q : Rat} (h : d.In a) (hq : d.number? = some q) : q ∈ a := by
  cases d with
  | number n =>
      obtain rfl := Option.some.inj hq
      exact h
  | _ => cases hq

end Datum

namespace IntervalState

variable {s t : IntervalState}

/-- The summaries of an expression hold the keys and the values of a value. -/
def Summarizes (s : IntervalState) (e : Expr) (d : Datum) : Prop :=
  ∀ keys values, s.summariesOf e = .ok (keys, values) → d.Summarized keys values

namespace Summarizes

variable {type : Ty} {items : List Expr} {contents : List Datum} {left right target : Expr} {c : Datum}

theorem of_number {n : Number} : s.Summarizes e (.number n) := fun _ _ _ => Datum.summarized_number

/-- The contents of some expressions are not followed. -/
theorem of_top (htop : s.summariesOf e = pure (.top, .top)) : s.Summarizes e d := by
  intro keys values h
  rw [htop] at h
  cases pure_eq_ok.1 h
  exact d.summarized_top

/-- The summaries of a variable hold what it holds. Those of a sequence that is no container are not kept. -/
theorem var (h : s.Reflects m) (hx : x ∈ scope.vars) : s.Summarizes (.var x) (m.value x) := by
  intro keys values hsummaries
  rw [summariesOf] at hsummaries
  have hranges := pure_eq_ok.1 hsummaries
  split at hranges
  · cases hranges
    by_cases hcontainer : x.type.isContainer = true
    · exact ⟨(h.knows x hx).keys hcontainer, (h.knows x hx).values hcontainer⟩
    · rw [h.value_eq_top hx hcontainer (Or.inl rfl), h.value_eq_top hx hcontainer (Or.inr rfl)]
      exact Datum.summarized_top _
  · cases hranges
    exact Datum.summarized_top _

theorem list (henv : s.environment.Reflects m) (hlength : items.length = contents.length)
    (hitems : ∀ pair ∈ items.zip contents, pair.1.Denotes false m pair.2) :
    s.Summarizes (.list type items) (.list contents) := by
  intro keys values h
  rw [summariesOf] at h
  obtain ⟨joined, hjoined, h⟩ := bind_eq_ok.1 h
  cases pure_eq_ok.1 h
  refine ⟨fun k => Datum.mem_of_position (hlength ▸ le_rfl), fun v => ?_⟩
  exact mem_evaluateJoined henv hlength hitems hjoined

theorem set {members : List Datum} (henv : s.environment.Reflects m) (hlength : items.length = contents.length)
    (hitems : ∀ pair ∈ items.zip contents, pair.1.Denotes false m pair.2)
    (hmembers : ∀ x, x ∈ members ↔ x ∈ contents) : s.Summarizes (.set type items) (.set members) := by
  intro keys values h
  rw [summariesOf] at h
  obtain ⟨joined, hjoined, h⟩ := bind_eq_ok.1 h
  have hmem : ∀ v ∈ Datum.numbers members, v ∈ joined := fun v hv =>
    mem_evaluateJoined henv hlength hitems hjoined (Datum.numbers_mono (fun item => (hmembers item).1) hv)
  cases pure_eq_ok.1 h
  exact ⟨hmem, hmem⟩

theorem dict {keys values : List Expr} {keyed valued : List Datum} {entries : List (Datum × Datum)}
    (henv : s.environment.Reflects m) (hkeysLength : keys.length = keyed.length)
    (hkeys : ∀ pair ∈ keys.zip keyed, pair.1.Denotes false m pair.2) (hvaluesLength : values.length = valued.length)
    (hvalues : ∀ pair ∈ values.zip valued, pair.1.Denotes false m pair.2)
    (hentries : Datum.Filled keyed valued entries) : s.Summarizes (.dict type keys values) (.dict entries) := by
  intro range₁ range₂ h
  rw [summariesOf] at h
  obtain ⟨joined₁, hjoined₁, h⟩ := bind_eq_ok.1 h
  obtain ⟨joined₂, hjoined₂, h⟩ := bind_eq_ok.1 h
  cases pure_eq_ok.1 h
  constructor
  · intro k hk
    exact mem_evaluateJoined henv hkeysLength hkeys hjoined₁ (hentries.mem_numbers.1 k hk)
  · intro v hv
    exact mem_evaluateJoined henv hvaluesLength hvalues hjoined₂ (hentries.mem_numbers.2 v hv)

theorem range {start stop step : Expr} {x y z : Number} {i j k : Int} {items : List Number}
    (hstart : s.environment.Holds start (.number x)) (hstop : s.environment.Holds stop (.number y))
    (hstep : s.environment.Holds step (.number z)) (hx : x.value = i) (hy : y.value = j) (hz : z.value = k)
    (hitems : items.map Number.value = (steps i j k).map Int.cast) :
    s.Summarizes (.range start stop step) (.list (items.map .number)) := by
  intro keys values h
  rw [summariesOf] at h
  obtain ⟨first, hfirst, h⟩ := bind_eq_ok.1 h
  obtain ⟨last, hlast, h⟩ := bind_eq_ok.1 h
  obtain ⟨stride, hstride, h⟩ := bind_eq_ok.1 h
  cases pure_eq_ok.1 h
  refine ⟨fun _ => Datum.mem_nonNegative_of_position, fun v hv => ?_⟩
  rw [Datum.values, Datum.numbers_map_number] at hv
  obtain ⟨item, -, rfl⟩ := List.mem_map.1 hv
  have hdouble := item.isDouble
  rw [hitems] at hv
  obtain ⟨n, hn, hvalue⟩ := List.mem_map.1 hv
  rw [← hvalue] at hdouble ⊢
  exact Interval.mem_stepsWithin hdouble hn (hstart.mem hx hfirst) (hstop.mem hy hlast) (hstep.mem hz hstride)

/-- The keys of a dictionary are the members of a set. -/
theorem keys (h : s.Summarizes target c) (hview : Datum.Views .keys c d) : s.Summarizes (.keys target) d := by
  intro keys values hsummaries
  rw [summariesOf] at hsummaries
  obtain ⟨⟨keys', values'⟩, htarget, hsummaries⟩ := bind_eq_ok.1 hsummaries
  cases pure_eq_ok.1 hsummaries
  cases hview with
  | keys => exact ⟨(h _ _ htarget).keys, (h _ _ htarget).keys⟩

/-- The values of a dictionary are the items of a list. -/
theorem values (h : s.Summarizes target c) (hholds : s.environment.Holds target c)
    (hsmall : ∀ n, c.size? = some n → n < 2 ^ 53) (hview : Datum.Views .values c d) :
    s.Summarizes (.values target) d := by
  intro keys values hsummaries
  rw [summariesOf] at hsummaries
  obtain ⟨⟨keys', values'⟩, htarget, hsummaries⟩ := bind_eq_ok.1 hsummaries
  obtain ⟨size, hsize, hsummaries⟩ := bind_eq_ok.1 hsummaries
  cases pure_eq_ok.1 hsummaries
  cases hview with
  | values =>
      refine ⟨fun k hk => ?_, (h _ _ htarget).values⟩
      rw [Datum.keys, List.length_map] at hk
      exact Datum.mem_of_position_of_size (hholds.size _ _ hsize rfl) (hsmall _ rfl) hk

theorem slice {lower upper stride : Option Expr} {i j : Option Int} {k : Int} (h : s.Summarizes target c)
    (hslice : c.slice? i j k = some d) : s.Summarizes (.slice type target lower upper stride) d := by
  intro keys values hsummaries
  rw [summariesOf] at hsummaries
  obtain ⟨⟨keys', values'⟩, htarget, hsummaries⟩ := bind_eq_ok.1 hsummaries
  cases pure_eq_ok.1 hsummaries
  exact (h _ _ htarget).slice hslice

theorem arithmetic {op : Arithmetic} {r : Datum} (hleft : s.Summarizes left c) (hright : s.Summarizes right d)
    (hresult : op.Combines c d r) : s.Summarizes (.arithmetic type left op right) r := by
  cases op with
  | add =>
      intro keys values h
      rw [summariesOf] at h
      obtain ⟨⟨keys₁, values₁⟩, hsummaries₁, h⟩ := bind_eq_ok.1 h
      obtain ⟨⟨keys₂, values₂⟩, hsummaries₂, h⟩ := bind_eq_ok.1 h
      cases pure_eq_ok.1 h
      exact (hleft _ _ hsummaries₁).append (hright _ _ hsummaries₂) hresult
  | _ => exact of_top rfl

end Summarizes

/-- The summaries of an expression hold the keys and values of the container that it denotes. -/
theorem Reflects.summarizes (h : s.Reflects m) (hs : Extremal.isBottom s = false) (he : e.Denotes false m d) :
    s.Summarizes e d := by
  have henv := h.environment hs
  induction he with
  | text _ => exact .of_top rfl
  | none => exact .of_top rfl
  | var hx =>
      obtain ⟨hmem, rfl⟩ := Memory.bindings_eq_some.1 hx
      exact .var h hmem
  | input _ _ => exact .of_top rfl
  | list hlength hitems _ _ => exact .list henv hlength hitems
  | set hlength hitems _ hmembers _ _ => exact .set henv hlength hitems hmembers
  | dict hkeysLength hkeys hvaluesLength hvalues hentries _ _ _ =>
      exact .dict henv hkeysLength hkeys hvaluesLength hvalues hentries
  | range hstart hstop hstep hx hy hz _ _ hitems _ _ _ =>
      exact .range (henv.holds hstart) (henv.holds hstop) (henv.holds hstep) hx hy hz hitems
  | keys _ hview ih => exact ih.keys hview
  | values htarget hview ih => exact ih.values (henv.holds htarget) (Expr.Denotes.fits htarget).small hview
  | field _ => exact .of_top rfl
  | item _ _ _ _ _ _ => exact .of_top rfl
  | slice _ _ _ _ _ hslice _ ih _ => exact ih.slice hslice
  | arithmetic _ _ hresult _ _ ihleft ihright => exact ihleft.arithmetic ihright hresult
  | _ => exact .of_number

/-! ### Writing -/

variable {range : Interval}

/-- A state that is not bottom and differs from `s` only in what it knows of `x`. -/
structure Updated (s : IntervalState) (x : Identifier) (t : IntervalState) : Prop where
  shaped : Shaped s.store.keys t
  proper : Extremal.isBottom t = false
  others : ∀ y, y.name ≠ x.name → t.value y = s.value y

theorem Reflects.updated_self (h : s.Reflects m) (hs : Extremal.isBottom s = false) : s.Updated x s :=
  ⟨h.shaped hs, hs, fun _ _ => rfl⟩

theorem Updated.set (h : s.Updated x t) (hy : y.name = x.name) (hrange : range.isBottom = false) :
    s.Updated x (t.set y range) where
  shaped := (set_shaped h.shaped h.proper hrange y).1
  proper := (set_shaped h.shaped h.proper hrange y).2
  others z hz := by
    have hne : z ≠ y := by
      rintro rfl
      exact hz hy
    rw [value_set_of_ne hne]
    exact h.others z hz

theorem Updated.normalized_eq_self (h : s.Updated x t) : t.normalized = t :=
  normalized_eq (h.shaped.proper h.proper)

theorem Updated.mem_keys (h : s.Updated x t) (hs : s.Reflects m) (hx : x ∈ scope.vars) (hy : y ∈ tracked x) :
    y ∈ t.store.keys := by
  rw [h.shaped.keys_eq]
  exact (hs.mem_keys y).2 ⟨x, hx, hy⟩

/-- What is known of the other variables stays true, since no two variables share a name. -/
theorem Updated.reflects (h : s.Updated x t) (hs : s.Reflects m) (hx : x ∈ scope.vars) (hknows : t.Knows x d)
    (hfits : d.Fits x.type) : t.Reflects (m.set x d hfits) where
  mem_keys y := by
    rw [h.shaped.keys_eq]
    exact hs.mem_keys y
  knows y hy := by
    by_cases heq : y = x
    · subst heq
      rw [Memory.value_set, if_pos rfl]
      exact hknows
    · have hname : y.name ≠ x.name := fun hname => heq (scope.distinct y hy x hx hname)
      have hold := hs.knows y hy
      rw [Memory.value_set, if_neg heq]
      constructor
      · rw [h.others y hname]
        exact hold.number
      · rw [h.others y.lengthOf hname]
        exact hold.length
      · rw [h.others y.keysOf hname]
        exact hold.keys
      · rw [h.others y.valuesOf hname]
        exact hold.values

theorem isBottom_summary (range : Interval) : (summary range).isBottom = false := by
  unfold summary
  split
  · rfl
  · rename_i hproper
    exact Bool.eq_false_iff.2 hproper

theorem mem_summary {q : Rat} (h : q ∈ range) : q ∈ summary range := by
  rw [summary, Interval.isBottom_eq_false_of_mem h, if_neg Bool.false_ne_true]
  exact h

theorem Knows.of_number {n : Number} (h : n.value ∈ s.value x) : s.Knows x (.number n) where
  number _ k hk := by
    cases hk
    exact h
  length _ k hk := by cases hk
  keys _ := List.forall_mem_nil _
  values _ := List.forall_mem_nil _

/-- Of a variable that is neither a number nor has a length nothing is known. -/
theorem Knows.of_untracked (hx : x ∈ scope.vars) (hnumeric : ¬ x.type.isNumeric = true)
    (hlength : ¬ x.hasLength = true) : s.Knows x d where
  number h := absurd h hnumeric
  length h := absurd h hlength
  keys h := absurd (Scope.hasLength_of_isContainer hx h) hlength
  values h := absurd (Scope.hasLength_of_isContainer hx h) hlength

/-- A display, a copy, a slice, a concatenation, a range or a view that is assigned as a whole. -/
theorem Reflects.assignContainer (h : s.Reflects m) (hs : Extremal.isBottom s = false) (hx : x ∈ scope.vars)
    (hlength : x.hasLength = true) (hnumeric : ¬ x.type.isNumeric = true) (he : e.Denotes false m d)
    (hfits : d.Fits x.type) (ht : s.assignContainer x e = .ok t) : s.Updated x t ∧ t.Knows x d := by
  obtain ⟨size, hsize, ht⟩ := bind_eq_ok.1 ht
  obtain ⟨⟨keys, values⟩, hsummaries, ht⟩ := bind_eq_ok.1 ht
  obtain rfl := pure_eq_ok.1 ht
  obtain ⟨n, hn⟩ := Scope.exists_size hx hlength hfits
  have hmem := ((h.environment hs).holds he).size _ _ hsize hn
  have hsummarized := h.summarizes hs he _ _ hsummaries
  have h₁ := (h.updated_self (x := x) hs).set (y := x.lengthOf) rfl (Interval.isBottom_eq_false_of_mem hmem)
  have h₂ := h₁.set (y := x.keysOf) rfl (isBottom_summary keys)
  refine ⟨h₂.set rfl (isBottom_summary values), ?_⟩
  constructor
  case number => exact fun hnumeric' => absurd hnumeric' hnumeric
  case length =>
    intro _ k hk
    obtain rfl := Option.some.inj (hn.symm.trans hk)
    have hkept := (h.mem_keys _).2 ⟨x, hx, lengthOf_mem_tracked hlength⟩
    rw [value_set_of_ne x.lengthOf_ne_valuesOf, value_set_of_ne x.lengthOf_ne_keysOf, value_set_self hkept]
    exact hmem
  case keys =>
    intro hcontainer k hk
    have hkept := h₁.mem_keys h hx (keysOf_mem_tracked hlength hcontainer)
    rw [value_set_of_ne x.keysOf_ne_valuesOf, value_set_self hkept]
    exact mem_summary (hsummarized.keys k hk)
  case values =>
    intro hcontainer v hv
    have hkept := h₂.mem_keys h hx (valuesOf_mem_tracked hlength hcontainer)
    rw [value_set_self hkept]
    exact mem_summary (hsummarized.values v hv)

/-- The three ranges of a container, set one after another. -/
theorem Reflects.set_ranges {keys values size : Interval} {n : Nat} (h : s.Reflects m)
    (hs : Extremal.isBottom s = false) (hx : x ∈ scope.vars) (hcontainer : x.type.isContainer = true)
    (hkeys : keys.isBottom = false) (hvalues : values.isBottom = false) (hn : d.size? = some n)
    (hsize : (n : Rat) ∈ size) (hsummarized : d.Summarized keys values) :
    s.Updated x (((s.set x.keysOf keys).set x.valuesOf values).set x.lengthOf size) ∧
      (((s.set x.keysOf keys).set x.valuesOf values).set x.lengthOf size).Knows x d := by
  have hlength := Scope.hasLength_of_isContainer hx hcontainer
  have h₀ := h.updated_self (x := x) hs
  have h₁ := h₀.set (y := x.keysOf) rfl hkeys
  have h₂ := h₁.set (y := x.valuesOf) rfl hvalues
  refine ⟨h₂.set rfl (Interval.isBottom_eq_false_of_mem hsize), ?_⟩
  constructor
  case number =>
    rintro - k rfl
    cases hn
  case length =>
    intro _ k hk
    obtain rfl := Option.some.inj (hn.symm.trans hk)
    rw [value_set_self (h₂.mem_keys h hx (lengthOf_mem_tracked hlength))]
    exact hsize
  case keys =>
    intro _ k hk
    have hkept := h₀.mem_keys h hx (keysOf_mem_tracked hlength hcontainer)
    rw [value_set_of_ne x.lengthOf_ne_keysOf.symm, value_set_of_ne x.keysOf_ne_valuesOf, value_set_self hkept]
    exact hsummarized.keys k hk
  case values =>
    intro _ v hv
    have hkept := h₁.mem_keys h hx (valuesOf_mem_tracked hlength hcontainer)
    rw [value_set_of_ne x.lengthOf_ne_valuesOf.symm, value_set_self hkept]
    exact hsummarized.values v hv

/-- An entry that is written to a dictionary. One that is known to be empty has no other entries. -/
theorem Reflects.assignEntry {entries entries' : List (Datum × Datum)} {key item : Datum} {keys values : Interval}
    (h : s.Reflects m) (hs : Extremal.isBottom s = false) (hx : x ∈ scope.vars)
    (hcontainer : x.type.isContainer = true) (hentries : m.value x = .dict entries) (hkey : key.In keys)
    (hitem : item.In values) (hwrite : Datum.WithItem (.dict entries) key item (.dict entries')) :
    s.Updated x (s.assignEntry x keys values) ∧ (s.assignEntry x keys values).Knows x (.dict entries') := by
  have hold := h.knows x hx
  rw [hentries] at hold
  have hlength := Scope.hasLength_of_isContainer hx hcontainer
  have hsize := hold.length hlength _ rfl
  obtain ⟨hpos, hgrows⟩ := hwrite.length
  by_cases hupper : (s.value x.lengthOf).upper = 0
  · rw [show s.assignEntry x keys values = _ from if_pos hupper]
    have hnone : entries = [] := by
      by_contra hne
      have hsome := hold.hasNone_eq_false hlength rfl (List.length_pos_iff.2 hne)
      rw [hasNone, decide_eq_false_iff_not] at hsome
      exact hsome hupper
    subst hnone
    have hone : entries'.length = 1 := by
      rw [List.length_nil] at hgrows
      omega
    refine h.set_ranges hs hx hcontainer hkey.isBottom_eq_false hitem.isBottom_eq_false rfl ?_ ⟨?_, ?_⟩
    · rw [hone]
      exact Interval.mem_point.2 Nat.cast_one
    · intro k hk
      rcases hwrite.mem_numbers hk with hk | hk
      · exact hkey.mem hk
      · cases hk
    · intro v hv
      rcases hwrite.mem_numbers hv with hv | hv
      · exact hitem.mem hv
      · cases hv
  · rw [show s.assignEntry x keys values = _ from if_neg hupper]
    have hsmall := (m.fits x hx).small entries.length (by rw [hentries]; rfl)
    have hproper : ∀ y added, ((s.value y).join added).isBottom = false := fun y added =>
      Interval.isBottom_eq_false_of_le (Interval.le_join_left _ _) (h.isBottom_value hs y)
    refine h.set_ranges hs hx hcontainer (hproper _ _) (hproper _ _) rfl
      (Interval.mem_grown hsize hsmall hpos hgrows) ⟨?_, ?_⟩
    · intro k hk
      rcases hwrite.mem_numbers hk with hk | hk
      · exact Interval.mem_of_le (Interval.le_join_right _ _) (hkey.mem hk)
      · exact Interval.mem_of_le (Interval.le_join_left _ _) (hold.keys hcontainer k hk)
    · intro v hv
      rcases hwrite.mem_numbers hv with hv | hv
      · exact Interval.mem_of_le (Interval.le_join_right _ _) (hitem.mem hv)
      · exact Interval.mem_of_le (Interval.le_join_left _ _) (hold.values hcontainer v hv)

/-- An item that is written to a list, whose length and positions stay. -/
theorem Reflects.assignElement {items : List Datum} {i : Nat} {item : Datum} {values : Interval}
    (h : s.Reflects m) (hs : Extremal.isBottom s = false) (hx : x ∈ scope.vars)
    (hcontainer : x.type.isContainer = true) (hitems : m.value x = .list items) (hitem : item.In values) :
    s.Updated x (s.set x.valuesOf ((s.value x.valuesOf).join values)) ∧
      (s.set x.valuesOf ((s.value x.valuesOf).join values)).Knows x (.list (items.set i item)) := by
  have hlength := Scope.hasLength_of_isContainer hx hcontainer
  have hold := h.knows x hx
  rw [hitems] at hold
  have hproper := Interval.isBottom_eq_false_of_le (Interval.le_join_left _ values) (h.isBottom_value hs x.valuesOf)
  have hsize : (items.set i item).length = items.length := List.length_set
  refine ⟨(h.updated_self hs).set rfl hproper, ?_⟩
  constructor
  case number =>
    intro _ k hk
    cases hk
  case length =>
    rw [value_set_of_ne x.lengthOf_ne_valuesOf, Datum.size?, hsize]
    exact hold.length
  case keys =>
    rw [value_set_of_ne x.keysOf_ne_valuesOf, Datum.keys, hsize]
    exact hold.keys
  case values =>
    intro _ v hv
    have hkept := (h.mem_keys _).2 ⟨x, hx, valuesOf_mem_tracked hlength hcontainer⟩
    rw [value_set_self hkept]
    obtain ⟨n, hn, rfl⟩ := Datum.mem_numbers.1 hv
    rcases List.mem_or_eq_of_mem_set hn with hn | rfl
    · have hmem := hold.values hcontainer n.value (Datum.mem_numbers.2 ⟨n, hn, rfl⟩)
      exact Interval.mem_of_le (Interval.le_join_left _ _) hmem
    · exact Interval.mem_of_le (Interval.le_join_right _ _) hitem

/-- An item that is written to a list or to a dictionary. A list that is known to be empty has no item to replace. -/
theorem Reflects.assignItem {key value : Expr} {k item : Datum} {outcome : Option IntervalState}
    (h : s.Reflects m) (hs : Extremal.isBottom s = false) (hx : x ∈ scope.vars) (hkey : key.Denotes false m k)
    (hvalue : value.Denotes false m item) (hwrite : (m.value x).WithItem k item d)
    (houtcome : s.assignItem x key value = .ok outcome) :
    ∃ t, outcome = some t ∧ s.Updated x t ∧ t.Knows x d := by
  have henv := h.environment hs
  obtain ⟨keys, hkeys, houtcome⟩ := bind_eq_ok.1 houtcome
  obtain ⟨values, hvalues, houtcome⟩ := bind_eq_ok.1 houtcome
  have hkeyIn := (henv.holds hkey).value _ hkeys
  have hvalueIn := (henv.holds hvalue).value _ hvalues
  rw [hkeyIn.isBottom_eq_false, hvalueIn.isBottom_eq_false, Bool.or_self, if_neg Bool.false_ne_true] at houtcome
  have hkind := (m.fits x hx).ofKind
  cases htype : x.type with
  | dict keyType valueType =>
      have hcontainer : x.type.isContainer = true := by rw [htype]; rfl
      rw [htype] at hkind houtcome
      obtain ⟨entries, hentries⟩ := hkind
      rw [hentries] at hwrite
      cases pure_eq_ok.1 houtcome
      cases hwrite with
      | replaced => exact ⟨_, rfl, h.assignEntry hs hx hcontainer hentries hkeyIn hvalueIn .replaced⟩
      | added hnew => exact ⟨_, rfl, h.assignEntry hs hx hcontainer hentries hkeyIn hvalueIn (.added hnew)⟩
  | list itemType =>
      have hcontainer : x.type.isContainer = true := by rw [htype]; rfl
      rw [htype] at hkind houtcome
      obtain ⟨items, hitems⟩ := hkind
      have hold := h.knows x hx
      rw [hitems] at hwrite hold
      cases hwrite with
      | list hi =>
          have hnone := hold.hasNone_eq_false (Scope.hasLength_of_isContainer hx hcontainer) rfl
            (Nat.zero_lt_of_lt hi.1)
          dsimp only at houtcome
          rw [hnone, if_neg Bool.false_ne_true] at houtcome
          cases pure_eq_ok.1 houtcome
          exact ⟨_, rfl, h.assignElement hs hx hcontainer hitems hvalueIn⟩
  | _ =>
      rw [htype] at houtcome
      cases houtcome

/-- A value that is assigned to a variable of any type. -/
theorem Reflects.assignVariable {right : Expr} (h : s.Reflects m) (hs : Extremal.isBottom s = false)
    (hx : x ∈ scope.vars) (hright : right.Denotes false m d) (hfits : d.Fits x.type)
    (ht : s.assign (.var x) right = .ok t) : s.Updated x t ∧ t.Knows x d := by
  unfold IntervalState.assign at ht
  dsimp only at ht
  by_cases hnumeric : x.type.isNumeric = true
  · rw [if_pos hnumeric] at ht
    obtain ⟨range, hrange, ht⟩ := bind_eq_ok.1 ht
    have hin := ((h.environment hs).holds hright).value _ hrange
    have hupdated := (h.updated_self (x := x) hs).set (y := x) rfl hin.isBottom_eq_false
    rw [hupdated.normalized_eq_self] at ht
    cases pure_eq_ok.1 ht
    obtain ⟨n, rfl⟩ := hfits.suits hnumeric
    refine ⟨hupdated, .of_number ?_⟩
    rw [value_set_self ((h.mem_keys x).2 ⟨x, hx, mem_tracked.2 (Or.inl ⟨rfl, hnumeric⟩)⟩)]
    exact hin
  · rw [if_neg hnumeric] at ht
    by_cases hlength : x.hasLength = true
    · rw [if_pos hlength] at ht
      obtain ⟨u, hu, ht⟩ := bind_eq_ok.1 ht
      obtain ⟨hupdated, hknows⟩ := h.assignContainer hs hx hlength hnumeric hright hfits hu
      rw [hupdated.normalized_eq_self] at ht
      cases pure_eq_ok.1 ht
      exact ⟨hupdated, hknows⟩
    · have hself := h.updated_self (x := x) hs
      rw [if_neg hlength, hself.normalized_eq_self] at ht
      cases pure_eq_ok.1 ht
      exact ⟨hself, .of_untracked hx hnumeric hlength⟩

/-! ### A dictionary of truth values -/

namespace Truths

def truths : Identifier := ⟨"d", .dict .int .bool, .variable⟩

def declared : Scope where
  vars := [truths]
  plain := by simp [truths]
  distinct := by simp

theorem truths_mem : truths ∈ declared.vars := List.mem_singleton_self _

def zero : Datum := .number ⟨(0 : Int), Bound.round_intCast (by decide)⟩

def one : Datum := .number ⟨(1 : Int), Bound.round_intCast (by decide)⟩

def yes : Datum := .ofTruth true

theorem fits {entries : List (Datum × Datum)} (h : entries.length < 2 ^ 53) : (Datum.dict entries).Fits truths.type :=
  ⟨⟨entries, rfl⟩, fun _ hn => Option.some.inj hn ▸ h⟩

def holding (entries : List (Datum × Datum)) (h : entries.length < 2 ^ 53) : Memory declared where
  value _ := .dict entries
  fits x hx := by
    obtain rfl := List.mem_singleton.1 hx
    exact fits h

/-- A state that knows three ranges of the dictionary. -/
def known (size keys values : Interval) : IntervalState :=
  (((ofVariables [truths]).set truths.keysOf keys).set truths.valuesOf values).set truths.lengthOf size

theorem known_reflects {size keys values : Interval} {entries : List (Datum × Datum)} (h : entries.length < 2 ^ 53)
    (hsize : (entries.length : Rat) ∈ size) (hkeys : keys.isBottom = false) (hvalues : values.isBottom = false)
    (hsummarized : (Datum.dict entries).Summarized keys values) :
    Extremal.isBottom (known size keys values) = false ∧ (known size keys values).Reflects (holding entries h) := by
  have hinitial : (ofVariables [truths]).Reflects (holding entries h) := ofVariables_reflects _
  obtain ⟨hupdated, hknows⟩ := hinitial.set_ranges (isBottom_ofVariables _) truths_mem rfl hkeys hvalues rfl hsize
    hsummarized
  refine ⟨hupdated.proper, fun y => ?_, fun x hx => ?_⟩
  · change y ∈ (IntervalState.set _ _ _).store.keys ↔ _
    rw [hupdated.shaped.keys_eq]
    exact hinitial.mem_keys y
  · obtain rfl := List.mem_singleton.1 hx
    exact hknows

/-- The dictionary is `{0: True}`. -/
def single : Memory declared := holding [(zero, yes)] (by decide)

theorem known_reflects_single {size keys values : Interval} (hsize : 1 ∈ size) (hkeys : 0 ∈ keys)
    (hvalues : 1 ∈ values) : Extremal.isBottom (known size keys values) = false ∧
      (known size keys values).Reflects single := by
  refine known_reflects _ (by simpa using hsize) (Interval.isBottom_eq_false_of_mem hkeys)
    (Interval.isBottom_eq_false_of_mem hvalues) ⟨fun k hk => ?_, fun v hv => ?_⟩
  · obtain rfl := List.mem_singleton.1 hk
    exact hkeys
  · obtain rfl := List.mem_singleton.1 hv
    exact hvalues

theorem single_reflects : Extremal.isBottom (known (.point 1) (.point 0) (.point 1)) = false ∧
    (known (.point 1) (.point 0) (.point 1)).Reflects single :=
  known_reflects_single (by decide) (by decide) (by decide)

def vacant : Memory declared := holding [] (by decide)

/-- The empty dictionary has no contents, so that any summaries do. -/
theorem known_reflects_vacant {size keys values : Interval} (hsize : 0 ∈ size) (hkeys : keys.isBottom = false)
    (hvalues : values.isBottom = false) : Extremal.isBottom (known size keys values) = false ∧
      (known size keys values).Reflects vacant :=
  known_reflects _ (by simpa using hsize) hkeys hvalues
    ⟨fun _ hk => absurd hk List.not_mem_nil, fun _ hv => absurd hv List.not_mem_nil⟩

theorem vacant_reflects : Extremal.isBottom (known (.point 0) .top .top) = false ∧
    (known (.point 0) .top .top).Reflects vacant :=
  known_reflects_vacant (by decide) rfl rfl

/-- The item `d[k]`. -/
def item (key : Expr) : Expr := .item .bool (.var truths) key

/-- The assignment `d[len(d)] = d[0]` gives `{0: True, 1: True}`. -/
theorem single_assigns : ∃ m', single.Assigns false (item (.length (.var truths))) (item (.literal (.int 0))) m' ∧
    m'.value truths = .dict [(zero, yes), (one, yes)] := by
  have hvar : Expr.Denotes false single (.var truths) (single.value truths) :=
    .var (Memory.bindings_eq_some.2 ⟨truths_mem, rfl⟩)
  have hlength : Expr.Denotes false single (.length (.var truths)) one :=
    .length hvar rfl (Int.cast_one.trans Nat.cast_one.symm)
  have hzero : Expr.Denotes false single (.literal (.int 0)) zero := .literal (by decide +kernel)
  have hfirst : Expr.Denotes false single (item (.literal (.int 0))) yes :=
    .item hvar hzero (.dict List.mem_cons_self) ⟨⟨true, rfl⟩, fun _ hn => by cases hn⟩
  have hnew : ∀ entry ∈ [(zero, yes)], entry.1 ≠ one := by
    intro entry hentry heq
    obtain rfl := List.mem_singleton.1 hentry
    have hvalues : ((0 : Int) : Rat) = (1 : Int) := congrArg Number.value (Datum.number.inj heq)
    exact absurd hvalues (by decide)
  refine ⟨_, .item truths_mem hlength hfirst (.added hnew) (fits (by decide)), ?_⟩
  rw [Memory.value_set, if_pos rfl]
  rfl

end Truths

/-- Assignments are sound for containers: whatever is assigned to a variable or written to an item, the state
afterwards is not bottom and reflects the memory afterwards. No value of the assignment or of the memory has `2 ^ 53`
items or more, and the ends of ranges are below `2 ^ 52`: lengths are doubles, and beyond that they are rounded. -/
theorem reflects_assigned {left right : Expr} (hs : Extremal.isBottom s = false) (h : s.Reflects m)
    (hstep : m.Assigns false left right m') (ht : s.assign left right = .ok t) :
    Extremal.isBottom t = false ∧ t.Reflects m' := by
  cases hstep with
  | @var x _ d hx hright hfits =>
      obtain ⟨hupdated, hknows⟩ := h.assignVariable hs hx hright hfits ht
      exact ⟨hupdated.proper, hupdated.reflects h hx hknows hfits⟩
  | @item _ x _ _ _ _ d hx hkey hright hwrite hfits =>
      unfold IntervalState.assign at ht
      dsimp only at ht
      by_cases hlength : x.hasLength = true
      · rw [if_pos hlength] at ht
        obtain ⟨outcome, houtcome, ht⟩ := bind_eq_ok.1 ht
        obtain ⟨u, rfl, hupdated, hknows⟩ := h.assignItem hs hx hkey hright hwrite houtcome
        have hu := pure_eq_ok.1 ht
        rw [hupdated.normalized_eq_self] at hu
        subst hu
        exact ⟨hupdated.proper, hupdated.reflects h hx hknows hfits⟩
      · rw [if_neg hlength] at ht
        cases ht

/-- The entry that `d[len(d)] = d[0]` writes is in the ranges afterwards. -/
theorem reflects_assigned_truths :
    let left := Truths.item (.length (.var Truths.truths))
    let right := Truths.item (.literal (.int 0))
    ∃ m' t, Truths.single.Assigns false left right m' ∧
      m'.value Truths.truths = .dict [(Truths.zero, Truths.yes), (Truths.one, Truths.yes)] ∧
      (Truths.known (.point 1) (.point 0) (.point 1)).assign left right = .ok t ∧
      Extremal.isBottom t = false ∧ t.Reflects m' := by
  intro left right
  obtain ⟨hproper, hreflects⟩ := Truths.single_reflects
  obtain ⟨m', hstep, hvalue⟩ := Truths.single_assigns
  have hok : ((Truths.known (.point 1) (.point 0) (.point 1)).assign left right).isOk = true := by decide +kernel
  obtain ⟨t, ht⟩ := exists_of_isOk hok
  exact ⟨m', t, hstep, hvalue, ht, reflects_assigned hproper hreflects hstep ht⟩

/-- If the dictionary is empty, `d[0] = True or d[5]` succeeds without a look at `d[5]`, but no state is left. -/
theorem assigned_lost_of_decided :
    let left := Truths.item (.literal (.int 0))
    let right := Expr.connective (.literal (.bool true)) .or (Truths.item (.literal (.int 5)))
    ∃ m' t, Extremal.isBottom (Truths.known (.point 0) .top .top) = false ∧
      (Truths.known (.point 0) .top .top).Reflects Truths.vacant ∧ Truths.vacant.Assigns true left right m' ∧
      (Truths.known (.point 0) .top .top).assign left right = .ok t ∧ Extremal.isBottom t = true := by
  intro left right
  have hzero : Expr.Denotes true Truths.vacant (.literal (.int 0)) Truths.zero := .literal (by decide +kernel)
  have htrue : Expr.Denotes true Truths.vacant (.literal (.bool true)) Truths.yes := .literal (by decide +kernel)
  have hright : Expr.Denotes true Truths.vacant right Truths.yes := .decided rfl htrue (by decide)
  have hfits : (Datum.dict [(Truths.zero, Truths.yes)]).Fits Truths.truths.type := Truths.fits (by decide)
  have hstep : Truths.vacant.Assigns true left right (Truths.vacant.set _ _ hfits) :=
    .item Truths.truths_mem hzero hright (.added (List.forall_mem_nil _)) hfits
  have hlost : ((Truths.known (.point 0) .top .top).assign left right).toOption.any Extremal.isBottom = true := by
    decide +kernel
  obtain ⟨t, ht, hbottom⟩ := (Option.any_eq_true _ _).1 hlost
  obtain ⟨hproper, hreflects⟩ := Truths.vacant_reflects
  exact ⟨_, t, hproper, hreflects, hstep, toOption_eq_some.1 ht, hbottom⟩

end IntervalState

end FlowAnalysis
