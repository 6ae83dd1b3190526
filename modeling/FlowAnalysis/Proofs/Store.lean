import FlowAnalysis.Proofs.Domain
import FlowAnalysis.Store

/-!
The domain of stores. What is done to stores is done identifier by identifier: a combination of two
stores has the identifiers of both, and under each of them the combination of the two entries. The
laws of order of the entries carry over to stores, as does the role of bottom and top.
-/

namespace FlowAnalysis

namespace OrderedMap

variable {κ α β : Type}

theorem length_keys (m : OrderedMap κ α) : m.keys.length = m.size := List.length_map _

theorem length_values (m : OrderedMap κ α) : m.values.length = m.size := List.length_map _

theorem keys_mapValues (m : OrderedMap κ α) (f : α → β) : (m.mapValues f).keys = m.keys := by
  simp [keys, mapValues]

theorem keys_withValues {m : OrderedMap κ α} {values : List β} (h : values.length = m.size) :
    (m.withValues values).keys = m.keys :=
  List.map_fst_zip (Nat.le_of_eq ((length_keys m).trans h.symm))

variable [DecidableEq κ] {m : OrderedMap κ α} {k : κ} {v : α}

theorem mem_entries_iff : (k, v) ∈ m.entries ↔ m.get? k = some v := by
  obtain ⟨entries, hnodup⟩ := m
  rw [get?]
  induction entries with
  | nil => simp
  | cons e rest ih =>
      obtain ⟨hnot, hrest⟩ := List.nodup_cons.1 hnodup
      by_cases hk : e.1 = k
      · have hv : (k, v) ∉ rest := fun h => hnot (hk ▸ List.mem_map_of_mem h)
        rw [List.find?_cons_of_pos (by simpa using hk), List.mem_cons, or_iff_left hv, ← hk]
        simp [Prod.ext_iff, eq_comm]
      · have hne : (k, v) ≠ e := fun h => hk (h ▸ rfl)
        rw [List.find?_cons_of_neg (by simpa using hk), List.mem_cons, or_iff_right hne]
        exact ih hrest

theorem mem_keys_iff : k ∈ m.keys ↔ ∃ v, m.get? k = some v := by
  rw [← Option.isSome_iff_exists, ← Option.ne_none_iff_isSome, Ne, get?_eq_none_iff,
    Decidable.not_not]

theorem mem_values_iff : v ∈ m.values ↔ ∃ k, m.get? k = some v := by
  simp only [values, List.mem_map, Prod.exists, exists_eq_right, mem_entries_iff]

theorem get?_filterMap (m : OrderedMap κ α) (f : κ → α → Option β) (k : κ) :
    (m.filterMap f).get? k = (m.get? k).bind (f k) := by
  have hmem : ∀ b, (m.filterMap f).get? k = some b ↔ (m.get? k).bind (f k) = some b := by
    intro b
    rw [← mem_entries_iff, filterMap, List.mem_filterMap, Option.bind_eq_some_iff]
    constructor
    · rintro ⟨⟨k', v⟩, hentry, hvalue⟩
      obtain ⟨b', hb', hpair⟩ := Option.map_eq_some_iff.1 hvalue
      cases hpair
      exact ⟨v, mem_entries_iff.1 hentry, hb'⟩
    · rintro ⟨v, hv, hb⟩
      exact ⟨(k, v), mem_entries_iff.2 hv, by simp [hb]⟩
  exact Option.ext hmem

end OrderedMap

namespace Store

variable {α : Type}

theorem get?_ofIdentifiers (identifiers : List Identifier) (initial : Identifier → α)
    (x : Identifier) :
    (ofIdentifiers identifiers initial).get? x =
      if x ∈ identifiers then some (initial x) else none := by
  suffices h : ∀ m : Store α,
      ((identifiers.map fun x => (x, initial x)).foldl (fun m e => m.insert e.1 e.2) m).get? x =
        if x ∈ identifiers then some (initial x) else m.get? x from h OrderedMap.empty
  induction identifiers with
  | nil => exact fun m => by simp
  | cons y identifiers ih =>
      intro m
      rw [List.map_cons, List.foldl_cons, ih, OrderedMap.get?_insert]
      by_cases hx : x ∈ identifiers
      · rw [if_pos hx, if_pos (List.mem_cons_of_mem y hx)]
      · by_cases hy : x = y
        · simp [hy]
        · simp [hx, hy]

/-! ### Single entries -/

/-- The store with another element for an identifier if it is kept. -/
def put (s : Store α) (x : Identifier) (a : α) : Store α := if s.contains x then s.insert x a else s

theorem keys_put (s : Store α) (x : Identifier) (a : α) : (s.put x a).keys = s.keys := by
  unfold put
  split
  · rename_i hx
    rw [OrderedMap.keys_insert, if_pos (OrderedMap.contains_eq_true_iff.1 hx)]
  · rfl

/-- What is put is found if the identifier is kept, and no other entry changes. -/
theorem get?_put (s : Store α) (x y : Identifier) (a : α) :
    (s.put x a).get? y = if y = x then (s.get? x).map fun _ => a else s.get? y := by
  unfold put
  cases hcontains : s.contains x with
  | true =>
      obtain ⟨old, hold⟩ := OrderedMap.mem_keys_iff.1 (OrderedMap.contains_eq_true_iff.1 hcontains)
      rw [if_pos rfl, OrderedMap.get?_insert, hold, Option.map_some]
  | false =>
      have hnone : s.get? x = none := by
        rw [OrderedMap.get?_eq_none_iff, ← OrderedMap.contains_eq_true_iff, hcontains]
        exact Bool.false_ne_true
      rw [if_neg Bool.false_ne_true]
      by_cases hy : y = x
      · rw [if_pos hy, hy, hnone]
        rfl
      · rw [if_neg hy]

theorem get?_put_self {s : Store α} {x : Identifier} {a : α} (hx : x ∈ s.keys) :
    (s.put x a).get? x = some a := by
  obtain ⟨old, hold⟩ := OrderedMap.mem_keys_iff.1 hx
  rw [get?_put, if_pos rfl, hold, Option.map_some]

theorem get?_put_of_ne {s : Store α} {x y : Identifier} {a : α} (h : y ≠ x) :
    (s.put x a).get? y = s.get? y := by
  rw [get?_put, if_neg h]

/-! ### Combinations -/

theorem combineValues_length {f : α → α → Outcome α} {as bs cs : List α}
    (hlength : as.length = bs.length) (h : combineValues f as bs = .ok cs) :
    cs.length = as.length := by
  fun_induction combineValues f as bs generalizing cs with
  | case1 a as b bs ih =>
      obtain ⟨c, -, h⟩ := bind_eq_ok.1 h
      obtain ⟨cs, hcs, h⟩ := bind_eq_ok.1 h
      obtain rfl := pure_eq_ok.1 h
      rw [List.length_cons, List.length_cons, ih (Nat.succ.inj hlength) hcs]
  | case2 as bs hnot =>
      obtain rfl := pure_eq_ok.1 h
      cases as with
      | nil => rfl
      | cons a as =>
          cases bs with
          | nil => cases hlength
          | cons b bs => exact absurd rfl (hnot a as b bs rfl)

/-- Entries under the same keys are combined key by key. -/
theorem combineValues_mem {f : α → α → Outcome α} {es ts : List (Identifier × α)} {cs : List α}
    (hkeys : es.map Prod.fst = ts.map Prod.fst)
    (h : combineValues f (es.map Prod.snd) (ts.map Prod.snd) = .ok cs) {x : Identifier} {a : α}
    (hmem : (x, a) ∈ es) :
    ∃ b c, (x, b) ∈ ts ∧ (x, c) ∈ (es.map Prod.fst).zip cs ∧ f a b = .ok c := by
  induction es generalizing ts cs with
  | nil => cases hmem
  | cons e es ih =>
      cases ts with
      | nil => cases hkeys
      | cons t ts =>
          obtain ⟨hkey, hkeys⟩ := List.cons.inj hkeys
          obtain ⟨c, hc, h⟩ := bind_eq_ok.1 h
          obtain ⟨cs, hcs, h⟩ := bind_eq_ok.1 h
          obtain rfl := pure_eq_ok.1 h
          rcases List.mem_cons.1 hmem with rfl | hmem
          · refine ⟨t.2, c, ?_, List.mem_cons_self, hc⟩
            obtain rfl : x = t.1 := hkey
            exact List.mem_cons_self
          · obtain ⟨b, c', hb, hc', hf⟩ := ih hkeys hcs hmem
            exact ⟨b, c', List.mem_cons_of_mem t hb, List.mem_cons_of_mem _ hc', hf⟩

/-- A combination has the identifiers of both stores. -/
theorem combine_keys {f : α → α → Outcome α} {s t u : Store α} (h : combine f s t = .ok u) :
    t.keys = s.keys ∧ u.keys = s.keys := by
  unfold combine at h
  split at h
  · rename_i hkeys
    obtain ⟨values, hvalues, h⟩ := bind_eq_ok.1 h
    obtain rfl := pure_eq_ok.1 h
    have hlength : s.values.length = t.values.length := by
      rw [OrderedMap.length_values, OrderedMap.length_values, ← OrderedMap.length_keys,
        ← OrderedMap.length_keys, hkeys]
    refine ⟨hkeys.symm, OrderedMap.keys_withValues ?_⟩
    rw [combineValues_length hlength hvalues, OrderedMap.length_values]
  · exact absurd h throw_ne_ok

/-- A combination holds under each identifier the combination of the two entries. -/
theorem combine_get? {f : α → α → Outcome α} {s t u : Store α} (h : combine f s t = .ok u)
    {x : Identifier} {a : α} (ha : s.get? x = some a) :
    ∃ b c, t.get? x = some b ∧ u.get? x = some c ∧ f a b = .ok c := by
  unfold combine at h
  split at h
  · rename_i hkeys
    obtain ⟨values, hvalues, h⟩ := bind_eq_ok.1 h
    obtain rfl := pure_eq_ok.1 h
    obtain ⟨b, c, hb, hc, hf⟩ :=
      combineValues_mem hkeys hvalues (OrderedMap.mem_entries_iff.2 ha)
    exact ⟨b, c, OrderedMap.mem_entries_iff.1 hb, OrderedMap.mem_entries_iff.1 hc, hf⟩
  · exact absurd h throw_ne_ok

/-- Combining never fails between stores with the same identifiers unless combining entries does. -/
theorem combine_pure {f : α → α → α} {s t : Store α} (hkeys : s.keys = t.keys) :
    ∃ u, combine (fun a b => pure (f a b)) s t = .ok u := by
  have hvalues : ∀ as bs : List α, ∃ cs, combineValues (fun a b => pure (f a b)) as bs = .ok cs := by
    intro as bs
    fun_induction combineValues (fun a b => (pure (f a b) : Outcome α)) as bs with
    | case1 a as b bs ih =>
        obtain ⟨cs, hcs⟩ := ih
        rw [hcs]
        exact ⟨_, rfl⟩
    | case2 as bs _ => exact ⟨_, rfl⟩
  obtain ⟨cs, hcs⟩ := hvalues s.values t.values
  rw [combine, if_pos hkeys, hcs]
  exact ⟨_, rfl⟩

/-- Combining answers between stores with the same identifiers if it does between their entries. -/
theorem exists_combine {f : α → α → Outcome α} {s t : Store α} (hkeys : s.keys = t.keys)
    (hf : ∀ x a b, s.get? x = some a → t.get? x = some b → ∃ c, f a b = .ok c) :
    ∃ u, combine f s t = .ok u := by
  have hvalues : ∀ es ts : List (Identifier × α), es.map Prod.fst = ts.map Prod.fst →
      (∀ x a b, (x, a) ∈ es → (x, b) ∈ ts → ∃ c, f a b = .ok c) →
      ∃ cs, combineValues f (es.map Prod.snd) (ts.map Prod.snd) = .ok cs := by
    intro es ts hkeys hentries
    induction es generalizing ts with
    | nil => exact ⟨[], rfl⟩
    | cons e es ih =>
        cases ts with
        | nil => cases hkeys
        | cons t ts =>
            obtain ⟨⟨x, a⟩, ⟨y, b⟩⟩ := e, t
            obtain ⟨hkey, hrest⟩ := List.cons.inj hkeys
            obtain rfl : x = y := hkey
            obtain ⟨c, hc⟩ := hentries x a b List.mem_cons_self List.mem_cons_self
            obtain ⟨cs, hcs⟩ := ih ts hrest fun z a' b' ha' hb' =>
              hentries z a' b' (List.mem_cons_of_mem _ ha') (List.mem_cons_of_mem _ hb')
            exact ⟨c :: cs, bind_eq_ok.2 ⟨c, hc, bind_eq_ok.2 ⟨cs, hcs, rfl⟩⟩⟩
  obtain ⟨cs, hcs⟩ := hvalues s.entries t.entries hkeys fun x a b ha hb =>
    hf x a b (OrderedMap.mem_entries_iff.1 ha) (OrderedMap.mem_entries_iff.1 hb)
  exact ⟨s.withValues cs, by
    rw [combine, if_pos hkeys]
    exact bind_eq_ok.2 ⟨cs, hcs, rfl⟩⟩

/-- A store over the given identifiers, with a property of each identifier and its entry. -/
structure Fits (identifiers : List Identifier) (P : Identifier → α → Prop) (s : Store α) : Prop where
  keys_eq : s.keys = identifiers
  entry : ∀ x a, s.get? x = some a → P x a

namespace Fits

variable {identifiers : List Identifier} {P : Identifier → α → Prop} {s t : Store α}

/-- Combinations fit if those of the entries do. -/
theorem combine {f : α → α → Outcome α} (hs : Fits identifiers P s) (ht : Fits identifiers P t)
    (hf : ∀ x a b, P x a → P x b → Answers (P x) (f a b)) :
    Answers (Fits identifiers P) (Store.combine f s t) := by
  obtain ⟨u, hu⟩ := exists_combine (f := f) (hs.keys_eq.trans ht.keys_eq.symm) fun x a b ha hb =>
    (hf x a b (hs.entry x a ha) (ht.entry x b hb)).exists_ok
  obtain ⟨-, hkeys⟩ := combine_keys hu
  refine ⟨u, hu, hkeys.trans hs.keys_eq, fun x c hc => ?_⟩
  obtain ⟨a, ha⟩ := OrderedMap.mem_keys_iff.1 (hkeys ▸ OrderedMap.mem_keys_iff.2 ⟨c, hc⟩)
  obtain ⟨b, c', hb, hc', hcombine⟩ := combine_get? hu ha
  obtain rfl : c' = c := Option.some.inj (hc'.symm.trans hc)
  exact (hf x a b (hs.entry x a ha) (ht.entry x b hb)).result hcombine

theorem mapValues {f : α → α} (hs : Fits identifiers P s) (hf : ∀ x a, P x a → P x (f a)) :
    Fits identifiers P (s.mapValues f) where
  keys_eq := (OrderedMap.keys_mapValues s f).trans hs.keys_eq
  entry x b hb := by
    obtain ⟨⟨y, a⟩, hmem, hentry⟩ := List.mem_map.1 (OrderedMap.mem_entries_iff.2 hb)
    obtain ⟨rfl, rfl⟩ := Prod.mk.inj hentry
    exact hf y a (hs.entry y a (OrderedMap.mem_entries_iff.1 hmem))

theorem insert {x : Identifier} {a : α} (hs : Fits identifiers P s) (hx : s.contains x = true)
    (ha : P x a) : Fits identifiers P (s.insert x a) where
  keys_eq := by
    rw [OrderedMap.keys_insert, if_pos (OrderedMap.contains_eq_true_iff.1 hx), hs.keys_eq]
  entry y b hb := by
    rw [OrderedMap.get?_insert] at hb
    split at hb
    · rename_i hy
      exact Option.some.inj hb ▸ hy ▸ ha
    · exact hs.entry y b hb

end Fits

/-! ### Order -/

variable [Domain α] {s t u : Store α}

theorem isBottom_iff :
    Extremal.isBottom s = true ↔
      ∃ x a, s.get? x = some a ∧ x.role ≠ .length ∧ Extremal.isBottom a = true := by
  change (s.entries.any fun e => e.1.role != .length && Extremal.isBottom e.2) = true ↔ _
  simp only [List.any_eq_true, Prod.exists, OrderedMap.mem_entries_iff, Bool.and_eq_true,
    bne_iff_ne]

theorem isTop_iff :
    Extremal.isTop s = true ↔ ∀ x a, s.get? x = some a → Extremal.isTop a = true := by
  change s.values.all Extremal.isTop = true ↔ _
  simp only [List.all_eq_true, OrderedMap.mem_values_iff, forall_exists_index]
  exact forall_comm

theorem pointwiseLe_iff :
    pointwiseLe s t = true ↔
      ∀ x a, s.get? x = some a → ∃ b, t.get? x = some b ∧ Domain.le a b = true := by
  simp only [pointwiseLe, List.all_eq_true, Prod.forall, OrderedMap.mem_entries_iff,
    Option.any_eq_true]

theorem pointwiseLe_refl (laws : Domain.UpperBounds α) (s : Store α) : pointwiseLe s s = true :=
  pointwiseLe_iff.2 fun _ a ha => ⟨a, ha, laws.le_refl a⟩

theorem pointwiseLe_trans (laws : Domain.UpperBounds α) (hst : pointwiseLe s t = true)
    (htu : pointwiseLe t u = true) : pointwiseLe s u = true := by
  rw [pointwiseLe_iff] at hst htu ⊢
  intro x a ha
  obtain ⟨b, hb, hab⟩ := hst x a ha
  obtain ⟨c, hc, hbc⟩ := htu x b hb
  exact ⟨c, hc, laws.le_trans hab hbc⟩

theorem pointwiseLe_combine_left {f : α → α → Outcome α}
    (hf : ∀ {a b c : α}, f a b = .ok c → Domain.le a c = true) (h : combine f s t = .ok u) :
    pointwiseLe s u = true := by
  rw [pointwiseLe_iff]
  intro x a ha
  obtain ⟨b, c, -, hc, hab⟩ := combine_get? h ha
  exact ⟨c, hc, hf hab⟩

theorem pointwiseLe_combine_right {f : α → α → Outcome α}
    (hf : ∀ {a b c : α}, f a b = .ok c → Domain.le b c = true) (h : combine f s t = .ok u) :
    pointwiseLe t u = true := by
  rw [pointwiseLe_iff]
  intro x b hb
  have hx : x ∈ s.keys := (combine_keys h).1 ▸ OrderedMap.mem_keys_iff.2 ⟨b, hb⟩
  obtain ⟨a, ha⟩ := OrderedMap.mem_keys_iff.1 hx
  obtain ⟨b', c, hb', hc, hab⟩ := combine_get? h ha
  obtain rfl : b' = b := Option.some.inj (hb'.symm.trans hb)
  exact ⟨c, hc, hf hab⟩

theorem exclusive (hext : Domain.Extremes α) (h : Extremal.isBottom s = true) :
    Extremal.isTop s = false := by
  obtain ⟨x, a, ha, -, hbottom⟩ := isBottom_iff.1 h
  rw [Bool.eq_false_iff]
  intro htop
  have htop' := isTop_iff.1 htop x a ha
  rw [hext.exclusive hbottom] at htop'
  cases htop'

theorem extended (hext : Domain.Extremes α) :
    @Domain.Extended (Store α) _ pointwiseLe (combine Domain.join) (combine Domain.widen) :=
  ⟨fun _ _ => rfl, fun _ _ => rfl, fun _ _ => rfl, exclusive hext⟩

theorem extremes (hext : Domain.Extremes α) : Domain.Extremes (Store α) := (extended hext).extremes

/-- What holds entry by entry between stores with the same identifiers holds between the stores. -/
theorem le_of_pointwiseLe (hext : Domain.Extremes α) (hkeys : u.keys = s.keys)
    (hle : pointwiseLe s u = true) (hbottom : Extremal.isBottom s = false)
    (htop : Extremal.isTop s = false) : Domain.le s u = true := by
  refine (extended hext).le_iff.2 (Or.inr (Or.inr ⟨?_, htop, hle⟩))
  rw [Bool.eq_false_iff]
  intro hu
  obtain ⟨x, c, hc, hrole, hbottom'⟩ := isBottom_iff.1 hu
  have hx : x ∈ s.keys := hkeys ▸ OrderedMap.mem_keys_iff.2 ⟨c, hc⟩
  obtain ⟨a, ha⟩ := OrderedMap.mem_keys_iff.1 hx
  obtain ⟨c', hc', hac⟩ := pointwiseLe_iff.1 hle x a ha
  obtain rfl : c' = c := Option.some.inj (hc'.symm.trans hc)
  have hs : Extremal.isBottom s = true :=
    isBottom_iff.2 ⟨x, a, ha, hrole, hext.bottom_of_le hac hbottom'⟩
  rw [hbottom] at hs
  cases hs

/-- Stores of entries with upper bounds have upper bounds. -/
theorem upperBounds (laws : Domain.UpperBounds α) (hext : Domain.Extremes α) :
    Domain.UpperBounds (Store α) := by
  refine (extended hext).upperBounds (pointwiseLe_refl laws) (pointwiseLe_trans laws) ?_ ?_
  · intro s t u hjoin
    exact le_of_pointwiseLe hext (combine_keys hjoin).2
      (pointwiseLe_combine_left laws.le_join_left hjoin)
  · rintro s t u (hjoin | hwiden)
    · obtain ⟨ht, hu⟩ := combine_keys hjoin
      exact le_of_pointwiseLe hext (hu.trans ht.symm)
        (pointwiseLe_combine_right laws.le_join_right hjoin)
    · obtain ⟨ht, hu⟩ := combine_keys hwiden
      exact le_of_pointwiseLe hext (hu.trans ht.symm)
        (pointwiseLe_combine_right laws.le_widen_right hwiden)

end Store

end FlowAnalysis
