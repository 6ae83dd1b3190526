import FlowAnalysis.Proofs.Interval.Shape
import FlowAnalysis.Proofs.Segment.Display
import FlowAnalysis.Proofs.Segment.Items
import FlowAnalysis.Proofs.Segment.Mixed

/-!
The check of the segmented analysis. Along every history of assignments, tests, joins, meets and widenings the
identifiers of a state stay the same and the segments of its containers share no key, even where a copy puts
segments of whole numbers into a dictionary with arbitrary keys. The check that segments are disjoint fails in
one case alone: an entry is written under a number that is not whole, and such a copied segment straddles it.
If no copy takes whole-number keys to arbitrary ones, it never fails.
-/

namespace FlowAnalysis

namespace SegmentMap

open Segment (Tidy Straddles)

variable {kept : Prop} {k : Bool} {m n : SegmentMap} {region : Interval}

/-- Contents of a container whose keys are of a kind. Segments may be of the other kind, but where kinds are
`kept` none is of whole numbers unless all keys are. -/
structure Fitting (kept : Prop) (k : Bool) (m : SegmentMap) : Prop where
  tidy : m.IsTidy
  wellFormed : kept → k = false → m.WellFormed false

theorem Fitting.of_wellFormed (h : m.WellFormed k) : m.Fitting kept k where
  tidy := h.toList.tidy
  wellFormed _ hk := hk ▸ h

theorem fitting_of_tidy {outcome : Outcome SegmentMap} (htidy : Answers IsTidy outcome)
    (hkind : kept → k = false → Yields false outcome) : Answers (Fitting kept k) outcome := by
  obtain ⟨m, hm, htidy⟩ := htidy
  exact ⟨m, hm, htidy, fun h hk => (hkind h hk).wellFormed hm⟩

theorem Fitting.bottom (hm : m.Fitting kept k) : Fitting kept k (Extremal.bottom m) where
  tidy := Tidy.nil
  wellFormed h hk := bottom_wellFormed (hm.wellFormed h hk)

theorem Fitting.join (hm : m.Fitting kept k) (hn : n.Fitting kept k) :
    Answers (Fitting kept k) (Domain.join m n) :=
  fitting_of_tidy (hm.tidy.join hn.tidy) fun h hk => (hm.wellFormed h hk).join (hn.wellFormed h hk)

theorem Fitting.meet (hm : m.Fitting kept k) (hn : n.Fitting kept k) :
    Answers (Fitting kept k) (Domain.meet m n) :=
  fitting_of_tidy (hm.tidy.meet hn.tidy) fun h hk => (hm.wellFormed h hk).meet (hn.wellFormed h hk)

theorem Fitting.widen (hm : m.Fitting kept k) (hn : n.Fitting kept k) :
    Answers (Fitting kept k) (Domain.widen m n) :=
  fitting_of_tidy (hm.tidy.widen hn.tidy) fun h hk => (hm.wellFormed h hk).widen (hn.wellFormed h hk)

/-- Keys of the kind of the container are written, unless it is a single one that a segment straddles. -/
theorem Fitting.write (hm : m.Fitting kept k)
    (hfree : ∀ q, k = false → region = .point (.fin q) → ¬ Straddles m.toList q) (value : Interval) :
    Answers (Fitting kept k) (if (Region.spanning k region).isSingleton
      then m.overwrite (.spanning k region) value else m.update [⟨.spanning k region, value⟩]) := by
  have htight := Region.spanning_tight k region
  have hkind : k = false → (Region.spanning k region).OfKind false := by
    rintro rfl
    exact Region.spanning_ofKind false region
  by_cases hsingle : (Region.spanning k region).isSingleton = true
  · rw [if_pos hsingle]
    obtain ⟨q, hq⟩ := Region.exists_point hsingle
    refine fitting_of_tidy (hm.tidy.overwrite htight hq ?_ value) fun h hk =>
      (hm.wellFormed h hk).overwrite (hkind hk) value
    cases k with
    | false => exact hfree q rfl hq
    | true =>
        -- A single whole number is straddled by nothing.
        rintro ⟨hfraction, -⟩
        obtain ⟨n, hn⟩ : ∃ n : Int, q = n := by
          have hwhole := (htight rfl).1
          rw [hq, (Interval.point_bounds q).1] at hwhole
          exact hwhole
        exact hfraction n hn.symm
  · rw [if_neg hsingle]
    exact fitting_of_tidy (hm.tidy.update htight value) fun h hk =>
      (hm.wellFormed h hk).update (List.forall_mem_singleton.2 (hkind hk))

end SegmentMap

namespace SegmentState

open Segment (Straddles)
open SegmentMap (Fitting)

variable {kept : Prop} {vars : List Identifier} {s t : SegmentState} {x : Identifier}
  {type : Ty} {left right : Expr}

/-! ### The shape of a state -/

/-- A state over some variables: it has their numbers and lengths, and contents that fit their keys. -/
structure Shaped (kept : Prop) (vars : List Identifier) (s : SegmentState) : Prop where
  scalars : Store.Fits (ofVariables vars).scalars.keys (fun _ _ => True) s.scalars
  contents : Store.Fits (ofVariables vars).contents.keys
    (fun x m => m.Fitting kept x.type.hasIntegralKeys) s.contents

theorem ofVariables_shaped (kept : Prop) (vars : List Identifier) : (ofVariables vars).Shaped kept vars where
  scalars := ⟨rfl, fun _ _ _ => trivial⟩
  contents := by
    refine ⟨rfl, fun x m hm => ?_⟩
    rw [ofVariables, Store.get?_ofIdentifiers] at hm
    obtain rfl := Option.some.inj (Option.ite_none_right_eq_some.1 hm).2
    exact .of_wellFormed (SegmentMap.full_wellFormed _)

theorem Shaped.bottom (hs : s.Shaped kept vars) : Shaped kept vars (Extremal.bottom s) where
  scalars := hs.scalars.mapValues fun _ _ _ => trivial
  contents := hs.contents.mapValues fun _ _ hm => hm.bottom

theorem Shaped.normalized (hs : s.Shaped kept vars) : s.normalized.Shaped kept vars := by
  unfold SegmentState.normalized
  split
  · exact hs.bottom
  · exact hs

theorem Shaped.setScalar (hs : s.Shaped kept vars) (x : Identifier) (range : Interval) :
    (s.setScalar x range).Shaped kept vars := by
  unfold SegmentState.setScalar
  split
  · rename_i hx
    exact ⟨hs.scalars.insert hx trivial, hs.contents⟩
  · exact hs

theorem Shaped.setContents {m : SegmentMap} (hs : s.Shaped kept vars) (hx : s.contents.contains x = true)
    (hm : m.Fitting kept x.type.hasIntegralKeys) : (s.setContents x m).Shaped kept vars :=
  ⟨hs.scalars, hs.contents.insert hx hm⟩

theorem contains_of_contents? {m : SegmentMap} (hm : s.contents? x = some m) : s.contents.contains x = true :=
  OrderedMap.contains_eq_true_iff.2 (OrderedMap.mem_keys_iff.2 ⟨m, hm⟩)

/-- Only contents of lists and dictionaries are followed. -/
theorem Shaped.isSegmented {m : SegmentMap} (hs : s.Shaped kept vars) (hm : s.contents? x = some m) :
    x.isSegmented = true := by
  have hkey := hs.contents.keys_eq ▸ OrderedMap.contains_eq_true_iff.1 (contains_of_contents? hm)
  obtain ⟨_, hinitial⟩ := OrderedMap.mem_keys_iff.1 hkey
  rw [ofVariables, Store.get?_ofIdentifiers] at hinitial
  exact (List.mem_filter.1 (Option.ite_none_right_eq_some.1 hinitial).1).2

/-! ### Contents that are assigned -/

/-- A copy does not take whole-number keys to a container with arbitrary ones. -/
def KeepsKind (left right : Expr) : Prop :=
  ∀ x y, left = .var x → right = .var y → x.type.hasIntegralKeys = false → y.type.hasIntegralKeys = false

theorem listContent_meets (s : SegmentState) (type : Ty) (i : Nat) (items : List Expr) {m : SegmentMap}
    (hm : m.WellFormed type.hasIntegralKeys) :
    Meets (SegmentMap.WellFormed type.hasIntegralKeys) (s.listContent type i items m) := by
  induction items generalizing i m with
  | nil => exact hm
  | cons item rest ih =>
      refine (evaluate_meets _ item).bind fun value _ => ?_
      have hwrite : Answers (SegmentMap.WellFormed type.hasIntegralKeys) (m.overwrite _ value) :=
        hm.overwrite (Region.spanning_ofKind _ (.point (.fin (i : Int)))) value
      exact hwrite.concludes.bind fun m' hm' => ih (i + 1) hm'

theorem dictContent_meets (s : SegmentState) (type : Ty) (keys values : List Expr) {m : SegmentMap}
    (hm : m.WellFormed type.hasIntegralKeys) :
    Meets (SegmentMap.WellFormed type.hasIntegralKeys) (s.dictContent type keys values m) := by
  rw [dictContent_eq_foldlM]
  refine Concludes.foldlM hm fun m entry hm _ => ?_
  refine (evaluate_meets _ entry.1).bind fun region _ => (evaluate_meets _ entry.2).bind fun value _ => ?_
  have hkey := Region.spanning_ofKind type.hasIntegralKeys region
  dsimp only
  split
  · exact Answers.concludes (hm.overwrite hkey value)
  · exact Answers.concludes (hm.insert hkey value)

theorem spread_wellFormed (type : Ty) (values : Interval) :
    (spread type values).WellFormed type.hasIntegralKeys :=
  SegmentMap.wellFormed_of_partition
    (Segment.Partition.nil.absorbAll (List.forall_mem_singleton.2 (Region.spanning_ofKind _ _)))

/-- Whatever is assigned to a container fits its keys, unless it is a copy of another kind. -/
theorem Shaped.contentOf (hs : s.Shaped kept vars) {e : Expr}
    (hkind : kept → ∀ y, e = .var y → type.hasIntegralKeys = false → y.type.hasIntegralKeys = false) :
    Meets (Fitting kept type.hasIntegralKeys) (s.contentOf type e) := by
  have hspread : ∀ values, Fitting kept type.hasIntegralKeys (spread type values) := fun values =>
    .of_wellFormed (spread_wellFormed type values)
  have hany : Fitting kept type.hasIntegralKeys (anyContent type) :=
    .of_wellFormed (SegmentMap.full_wellFormed _)
  have hnone : (noContent type).WellFormed type.hasIntegralKeys := SegmentMap.wellFormed_of_partition .nil
  unfold SegmentState.contentOf
  split
  · rename_i y
    refine Concludes.pure ?_
    cases hm : s.contents? y with
    | none => exact hany
    | some m =>
        have hfit := hs.contents.entry y m hm
        exact ⟨hfit.tidy, fun h htype => hfit.wellFormed h (hkind h y rfl htype)⟩
  · exact (listContent_meets s type 0 _ hnone).mono fun _ => .of_wellFormed
  · exact (dictContent_meets s type _ _ hnone).mono fun _ => .of_wellFormed
  · exact (evaluate_meets _ _).bind fun _ _ => (evaluate_meets _ _).bind fun _ _ =>
      (evaluate_meets _ _).bind fun _ _ => hspread _
  · exact hspread _
  · exact hspread _
  · exact hspread _
  · exact hspread _
  · exact hany

theorem Shaped.assignContainer (hs : s.Shaped kept vars) (hkind : kept → KeepsKind (.var x) right) :
    Meets (Shaped kept vars) (s.assignContainer x right) := by
  refine (length_meets _ right).bind fun size _ => ?_
  have hsized := hs.setScalar x.lengthOf size
  dsimp only
  split
  · rename_i hx
    split
    · exact hsized.setContents hx (.of_wellFormed (SegmentMap.wellFormed_of_partition .nil))
    · exact (hsized.contentOf fun h y hy => hkind h x y rfl hy).bind fun m hm => hsized.setContents hx hm
  · exact hsized

/-! ### Items that are assigned -/

/-- An entry is written under a number that is not whole, into a dictionary with arbitrary keys that holds a
segment of whole numbers around it. -/
def Collides (s : SegmentState) (left right : Expr) : Prop :=
  ∃ (type : Ty) (container : Identifier) (key : Expr) (m : SegmentMap) (q : Rat) (value : Interval),
    left = .item type (.var container) key ∧ container.type.hasIntegralKeys = false ∧
    s.contents? container = some m ∧ evaluate s.environment key = .ok (.point (.fin q)) ∧
    evaluate s.environment right = .ok value ∧ value.isBottom = false ∧ Straddles m.toList q

/-- Arbitrary keys are those of dictionaries, where an index means itself. -/
theorem keyRegion_eq (s : SegmentState) (hx : x.type.hasIntegralKeys = false) (key : Interval) :
    s.keyRegion x key = key := by
  unfold keyRegion
  split
  · rename_i item htype
    rw [htype] at hx
    cases hx
  · rfl

/-- The state that records what was written. -/
theorem Shaped.record {m : SegmentMap} (hs : s.Shaped kept vars) (hm : s.contents? x = some m)
    {region : Interval} (hfree : ∀ q, x.type.hasIntegralKeys = false → region = .point (.fin q) →
      ¬ Straddles m.toList q) (value : Interval) :
    Answers (Shaped kept vars) (s.assignRegion x m (.spanning x.type.hasIntegralKeys region) value) := by
  have hx := contains_of_contents? hm
  obtain ⟨updated, hwrite, hupdated⟩ := (hs.contents.entry x m hm).write hfree value
  refine ⟨_, assignRegion_of_written hwrite, ?_⟩
  split
  · exact (hs.setScalar _ _).setContents (by rwa [contains_setScalar]) hupdated
  · exact hs.setContents hx hupdated

theorem Shaped.assignItem {key : Expr} (hs : s.Shaped kept vars)
    (hfree : ¬ s.Collides (.item type (.var x) key) right) :
    Meets (fun found => ∀ t, found = some t → t.Shaped kept vars) (s.assignItem x key right) := by
  unfold SegmentState.assignItem
  cases hkey : evaluate s.environment key with
  | error e =>
      have hmeets := evaluate_meets s.environment key
      rw [hkey] at hmeets
      exact hmeets
  | ok k =>
      cases hvalue : evaluate s.environment right with
      | error e =>
          have hmeets := evaluate_meets s.environment right
          rw [hvalue] at hmeets
          exact hmeets
      | ok value =>
          show Meets _ (if k.isBottom || value.isBottom then _ else _)
          split
          · exact Concludes.pure fun t ht => nomatch ht
          rename_i hbottom
          split
          · trivial
          rename_i m hm
          dsimp only
          split
          · exact Concludes.pure fun t ht => nomatch ht
          refine (hs.record hm (fun q hx hregion hstraddles => hfree ?_) value).concludes.bind fun t ht => ?_
          · rw [keyRegion_eq s hx] at hregion
            have hproper := (Bool.or_eq_false_iff.1 (Bool.eq_false_iff.2 hbottom)).2
            exact ⟨type, x, key, m, q, value, rfl, hx, hm, hregion ▸ hkey, hvalue, hproper, hstraddles⟩
          · exact Concludes.pure fun u hu => Option.some.inj hu ▸ ht

/-- Assignments that do not collide keep the shape. -/
theorem Shaped.assign (hs : s.Shaped kept vars) (hkind : kept → KeepsKind left right)
    (hfree : ¬ s.Collides left right) : Meets (Shaped kept vars) (s.assign left right) := by
  unfold SegmentState.assign
  split
  · split
    · exact (evaluate_meets _ right).bind fun _ _ => (hs.setScalar _ _).normalized
    · split
      · exact (hs.assignContainer hkind).bind fun _ ht => ht.normalized
      · exact hs.normalized
  · split
    · refine (hs.assignItem hfree).bind fun found hfound => ?_
      cases found with
      | none => exact hs.bottom
      | some t => exact (hfound t rfl).normalized
    · trivial
  · trivial

/-- Assignments that collide fail. -/
theorem Shaped.assign_collides (hs : s.Shaped kept vars) (h : s.Collides left right) :
    s.assign left right = .error .overlappingSegments := by
  obtain ⟨type, x, key, m, q, value, rfl, hx, hm, hkey, hvalue, hproper, hstraddles⟩ := h
  have hlength : x.hasLength = true := by
    have hsegmented := hs.isSegmented hm
    unfold Identifier.isSegmented at hsegmented
    obtain ⟨hplain, htype⟩ := Bool.and_eq_true_iff.1 hsegmented
    rw [Identifier.hasLength, hplain]
    split at htype
    · rename_i item hitem
      rw [hitem]
      rfl
    · rename_i key value hitem
      rw [hitem]
      rfl
    · cases htype
  have hpoint : (Interval.point (.fin q)).isBottom = false :=
    Interval.isBottom_eq_false_of_mem (Interval.mem_point.2 rfl)
  have hsingle : (Region.spanning false (.point (.fin q))).isSingleton = true := by
    obtain ⟨hlower, hupper⟩ := Interval.point_bounds q
    simp [Region.spanning, Region.isSingleton, Region.isBottom, Interval.isSingleton, hpoint, hlower, hupper]
  have hregion : s.assignRegion x m (.spanning x.type.hasIntegralKeys (.point (.fin q))) value =
      .error .overlappingSegments := by
    rw [assignRegion, hx, if_pos hsingle, SegmentMap.overwrite_straddles (hs.contents.entry x m hm).tidy
      (Region.spanning_tight _ _) rfl hproper hstraddles]
    rfl
  have hitem : s.assignItem x key right = .error .overlappingSegments := by
    rw [SegmentState.assignItem, hkey, hvalue]
    show (if (Interval.point (.fin q)).isBottom || value.isBottom then _ else _) = _
    rw [hpoint, hproper, if_neg (by decide), hm]
    dsimp only
    rw [keyRegion_eq s hx, hpoint, if_neg Bool.false_ne_true, hregion]
    rfl
  show (if x.hasLength = true then _ else _) = _
  rw [if_pos hlength, hitem]
  rfl

/-! ### Tests and combinations -/

/-- Tests narrow numbers and lengths and leave the contents alone. -/
theorem Shaped.narrow? {ranges : List (Identifier × Interval)} (hs : s.Shaped kept vars)
    (h : s.narrow? ranges = some t) : t.Shaped kept vars := by
  induction ranges generalizing s with
  | nil =>
      obtain rfl := Option.some.inj h
      exact hs
  | cons entry rest ih =>
      rw [SegmentState.narrow?] at h
      split at h
      · cases h
      · exact ih (hs.setScalar _ _) h

theorem Shaped.assume (hs : s.Shaped kept vars) (condition : Expr) :
    Meets (Shaped kept vars) (s.assume condition) := by
  refine (refineAnswer_meets _ condition true).bind fun found _ => ?_
  cases found with
  | infeasible => exact hs.bottom
  | constrain ranges =>
      refine Concludes.pure ?_
      cases hnarrow : s.narrow? ranges.entries with
      | none => exact hs.bottom
      | some t => exact hs.narrow? hnarrow

/-- Joins and widenings work on numbers and on contents in the same way. -/
theorem Shaped.settledJoin {f : Interval → Interval → Interval}
    {g : SegmentMap → SegmentMap → Outcome SegmentMap} (hs : s.Shaped kept vars) (ht : t.Shaped kept vars)
    (hg : ∀ {k m n}, Fitting kept k m → Fitting kept k n → Answers (Fitting kept k) (g m n)) :
    Answers (Shaped kept vars) ((Extremal.settledJoin s t).elim (do
      return ofStores
        (← (Extremal.settledJoin s.scalars t.scalars).elim
          (Store.combine (fun a b => pure (f a b)) s.scalars t.scalars) pure)
        (← (Extremal.settledJoin s.contents t.contents).elim (Store.combine g s.contents t.contents) pure))
      pure) := by
  have hscalars := Extremal.settledJoin_answers hs.scalars ht.scalars
    (hs.scalars.combine ht.scalars fun _ a b _ _ => ⟨f a b, rfl, trivial⟩)
  have hcontents := Extremal.settledJoin_answers hs.contents ht.contents
    (hs.contents.combine ht.contents fun _ _ _ hm hn => hg hm hn)
  exact Extremal.settledJoin_answers hs ht
    (hscalars.bind fun _ hscalars => hcontents.bind fun _ hcontents => .pure ⟨hscalars, hcontents⟩)

theorem Shaped.join (hs : s.Shaped kept vars) (ht : t.Shaped kept vars) :
    Answers (Shaped kept vars) (Domain.join s t) :=
  hs.settledJoin ht Fitting.join

theorem Shaped.widen (hs : s.Shaped kept vars) (ht : t.Shaped kept vars) :
    Answers (Shaped kept vars) (Domain.widen s t) :=
  hs.settledJoin ht Fitting.widen

theorem Shaped.meet (hs : s.Shaped kept vars) (ht : t.Shaped kept vars) :
    Answers (Shaped kept vars) (Domain.meet s t) := by
  have hscalars := Extremal.settledMeet_answers hs.scalars ht.scalars
    (hs.scalars.combine ht.scalars fun _ a b _ _ => ⟨a.meet b, rfl, trivial⟩)
  have hcontents := Extremal.settledMeet_answers hs.contents ht.contents
    (hs.contents.combine ht.contents fun _ _ _ hm hn => hm.meet hn)
  exact Extremal.settledMeet_answers hs ht (hscalars.bind fun scalars hscalars =>
    hcontents.bind fun contents hcontents => .pure (Shaped.normalized ⟨hscalars, hcontents⟩))

/-- Every operation keeps the shape of a state, whatever kinds of keys its segments have. An assignment
fails because the program is at fault or because it collides. -/
theorem shaped_closed (vars : List Identifier) :
    StateDomain.Closed (fun e => e.IsSemantic ∨ e = .overlappingSegments) (Shaped False vars) where
  semantic _ he := Or.inl he
  bottom hs := hs.bottom
  withResult _ hs := ⟨hs.scalars, hs.contents⟩
  before _ _ hs := hs
  join hs ht := (hs.join ht).concludes
  widen hs ht := (hs.widen ht).concludes
  assignOne {s} left right hs _ := by
    by_cases hcollides : s.Collides left right
    · change Concludes _ _ (s.assign left right)
      rw [hs.assign_collides hcollides]
      exact Or.inr rfl
    · exact (hs.assign False.elim hcollides).weaken fun _ => Or.inl
  assumeOne condition hs _ := (hs.assume condition).weaken fun _ => Or.inl
  substituteOne _ _ _ _ := Or.inl trivial
  outputOne _ hs _ := hs
  enterIf hs := hs
  exitIf hs := hs
  enterLoop hs := hs
  exitLoop hs := hs

/-! ### Histories -/

/-- The states over some variables that come about by tests, joins, meets, widenings and those assignments that
are `allowed`. -/
inductive Obtained (vars : List Identifier) (allowed : Expr → Expr → Prop) : SegmentState → Prop where
  | start : Obtained vars allowed (ofVariables vars)
  | bottom {s : SegmentState} (hs : Obtained vars allowed s) : Obtained vars allowed (Extremal.bottom s)
  | assign {s t : SegmentState} {left right : Expr} (hs : Obtained vars allowed s)
      (hallowed : allowed left right) (h : s.assign left right = .ok t) : Obtained vars allowed t
  | assume {s t : SegmentState} {condition : Expr} (hs : Obtained vars allowed s)
      (h : s.assume condition = .ok t) : Obtained vars allowed t
  | join {s t u : SegmentState} (hs : Obtained vars allowed s) (ht : Obtained vars allowed t)
      (h : Domain.join s t = .ok u) : Obtained vars allowed u
  | meet {s t u : SegmentState} (hs : Obtained vars allowed s) (ht : Obtained vars allowed t)
      (h : Domain.meet s t = .ok u) : Obtained vars allowed u
  | widen {s t u : SegmentState} (hs : Obtained vars allowed s) (ht : Obtained vars allowed t)
      (h : Domain.widen s t = .ok u) : Obtained vars allowed u

theorem Obtained.shaped {allowed : Expr → Expr → Prop} (h : Obtained vars allowed s) :
    s.Shaped (∀ left right, allowed left right → KeepsKind left right) vars := by
  induction h with
  | start => exact ofVariables_shaped _ vars
  | bottom _ ih => exact ih.bottom
  | assign _ hallowed h ih =>
      refine (ih.assign (fun hkept => hkept _ _ hallowed) fun hcollides => ?_).result h
      rw [ih.assign_collides hcollides] at h
      cases h
  | assume _ h ih => exact (ih.assume _).result h
  | join _ _ h ihs iht => exact (ihs.join iht).result h
  | meet _ _ h ihs iht => exact (ihs.meet iht).result h
  | widen _ _ h ihs iht => exact (ihs.widen iht).result h

/-- Where kinds are kept nothing collides: arbitrary keys have no segments of whole numbers. -/
theorem Shaped.not_collides (hs : s.Shaped kept vars) (hkept : kept) : ¬ s.Collides left right := by
  rintro ⟨-, x, -, m, q, -, -, hx, hm, -, -, -, -, segment, hsegment, hintegral, -⟩
  have hfits := (hs.contents.entry x m hm).wellFormed hkept hx
  have hfalse := (hfits.toList.ofKind segment hsegment).integral_eq
  rw [hintegral] at hfalse
  cases hfalse

/-- However a state came about, its contents pass the check, and so do those of its joins, meets and widenings
with any other such state and of its tests. An assignment fails the check exactly if it collides with a segment
that straddles its key; without copies of whole-number keys to arbitrary ones none does. -/
theorem overlapping_iff_collides {allowed : Expr → Expr → Prop} (hs : Obtained vars allowed s)
    (ht : Obtained vars allowed t) :
    (∀ x m, s.contents? x = some m → Segment.disjoint m.toList = true) ∧
    (∃ u, Domain.join s t = .ok u) ∧ (∃ u, Domain.meet s t = .ok u) ∧ (∃ u, Domain.widen s t = .ok u) ∧
    (∀ condition, s.assume condition ≠ .error .overlappingSegments) ∧
    (∀ left right, s.assign left right = .error .overlappingSegments ↔ s.Collides left right) ∧
    ((∀ left right, allowed left right → KeepsKind left right) →
      ∀ left right, s.assign left right ≠ .error .overlappingSegments) := by
  have hshaped := hs.shaped
  have hother := ht.shaped
  have hiff : ∀ left right, s.assign left right = .error .overlappingSegments ↔ s.Collides left right := by
    intro left right
    refine ⟨fun herror => ?_, hshaped.assign_collides⟩
    by_contra hfree
    -- Whether kinds were kept does not matter to a state that only has to be tidy.
    have htidy : s.Shaped False vars :=
      ⟨hshaped.scalars, hshaped.contents.keys_eq, fun x m hm => ⟨(hshaped.contents.entry x m hm).tidy, False.elim⟩⟩
    exact (htidy.assign False.elim hfree).ne_overlapping herror
  refine ⟨fun x m hm => (hshaped.contents.entry x m hm).tidy.disjoint, (hshaped.join hother).exists_ok,
    (hshaped.meet hother).exists_ok, (hshaped.widen hother).exists_ok,
    fun condition => (hshaped.assume condition).ne_overlapping, hiff, fun hkept left right herror => ?_⟩
  exact hshaped.not_collides hkept ((hiff left right).1 herror)

/-! ### A dictionary copied to another kind of keys -/

namespace Copied

/-- A dictionary under whole numbers. -/
def wholes : Identifier := ⟨"d", .dict .int .int, .variable⟩

/-- A dictionary under arbitrary numbers. -/
def fractions : Identifier := ⟨"f", .dict .float .int, .variable⟩

/-- The entry of the second dictionary under one half. -/
def atHalf : Expr := .item .int (.var fractions) (.literal (.float (.number (.fin (1 / 2)))))

end Copied

open Copied in
/-- The second dictionary is written under one half before and after the first one is copied to it. -/
theorem overlapping_iff_collides_copied :
    (ofVariables [wholes, fractions]).assign atHalf (.literal (.int 1)) ≠ .error .overlappingSegments ∧
    ∃ s, Obtained [wholes, fractions] (fun _ _ => True) s ∧
      (∃ u, Domain.widen s (ofVariables [wholes, fractions]) = .ok u) ∧ s.Collides atHalf (.literal (.int 1)) ∧
      s.assign atHalf (.literal (.int 1)) = .error .overlappingSegments := by
  have hcopy : ((ofVariables [wholes, fractions]).assign (.var fractions) (.var wholes)).toOption.map
      (fun s => (s.contents? fractions).map SegmentMap.segments) =
        some (some (some [⟨⟨.top, true⟩, .top⟩])) := by decide +kernel
  obtain ⟨s, hs, hm⟩ := Option.map_eq_some_iff.1 hcopy
  obtain ⟨m, hm, hsegments⟩ := Option.map_eq_some_iff.1 hm
  have hobtained : Obtained [wholes, fractions] (fun _ _ => True) s :=
    .assign .start trivial (toOption_eq_some.1 hs)
  obtain ⟨-, -, -, hwiden, -, hiff, -⟩ := overlapping_iff_collides hobtained .start
  have hfraction : ∀ n : Int, (n : Rat) ≠ 1 / 2 := by
    intro n hn
    have hdouble : ((2 * n : Int) : Rat) = (1 : Int) := by
      push_cast
      rw [hn]
      norm_num
    have := Int.cast_injective hdouble
    omega
  have hcollides : s.Collides atHalf (.literal (.int 1)) := by
    refine ⟨.int, fractions, _, m, 1 / 2, _, rfl, rfl, hm, rfl, rfl, by decide +kernel, hfraction,
      ⟨⟨.top, true⟩, .top⟩, ?_, rfl, ?_⟩
    · rw [SegmentMap.toList_of_segments hsegments]
      exact List.mem_cons_self
    · exact Interval.mem_iff.2 ⟨Bound.negInf_le _, Bound.le_posInf _⟩
  have hbefore : Obtained [wholes, fractions] KeepsKind (ofVariables [wholes, fractions]) := .start
  exact ⟨(overlapping_iff_collides hbefore hbefore).2.2.2.2.2.2 (fun _ _ => id) _ _,
    s, hobtained, hwiden, hcollides, (hiff _ _).2 hcollides⟩

open Copied in
/-- Two assignments are enough to fail the check. -/
theorem copy_breaks_disjointness :
    ∃ s, (ofVariables [wholes, fractions]).assign (.var fractions) (.var wholes) = .ok s ∧
      s.assign atHalf (.literal (.int 1)) = .error .overlappingSegments := by
  have hfail : ((ofVariables [wholes, fractions]).assign (.var fractions) (.var wholes)).toOption.map
      (fun s => (s.assign atHalf (.literal (.int 1))).map fun _ => ()) =
        some (.error .overlappingSegments) := by decide +kernel
  obtain ⟨s, hs, herror⟩ := Option.map_eq_some_iff.1 hfail
  refine ⟨s, toOption_eq_some.1 hs, ?_⟩
  cases hassign : s.assign atHalf (.literal (.int 1)) with
  | error e =>
      rw [hassign] at herror
      exact congrArg _ (Except.error.inj herror)
  | ok t =>
      rw [hassign] at herror
      cases herror

end SegmentState

end FlowAnalysis
