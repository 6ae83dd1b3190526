import FlowAnalysis.Proofs.Interval.Environment
import FlowAnalysis.Proofs.Segment.State

/-!
Displays assigned to containers. The length of the variable is set first, and the items are evaluated after that:
an item that reads the variable finds the new length with the old contents. A list records under each position the
range that the item has in that state, and a dictionary at least that of the last entry under each key that is known
exactly. Items that do not read the variable have the same range before the assignment; for one that does, what it
had before may be lost.
-/

namespace FlowAnalysis

/-- Whether an expression reads something of a name, be it the variable or a part of it. -/
def Expr.Reads (e : Expr) (name : String) : Prop := ∃ x ∈ e.occurrences, x.name = name

/-! ### The contents of a list -/

namespace Segment

variable {bs : List Interval} {ss : List Segment} {key : Region} {k : Bool} {b : Interval} {i : Nat}

/-- The segment of a position of a list of ranges, unless its range is empty. -/
def Recorded (bs : List Interval) (s : Segment) : Prop :=
  ∃ (i : Nat) (b : Interval), bs[i]? = some b ∧ b.isBottom = false ∧ s = ⟨.single i, b⟩

theorem recorded_concat {s : Segment} : Recorded (bs ++ [b]) s ↔
    Recorded bs s ∨ b.isBottom = false ∧ s = ⟨.single bs.length, b⟩ := by
  constructor
  · rintro ⟨i, c, hc, hproper, rfl⟩
    rcases lt_trichotomy i bs.length with hi | rfl | hi
    · rw [List.getElem?_append_left hi] at hc
      exact Or.inl ⟨i, c, hc, hproper, rfl⟩
    · obtain rfl : b = c := by simpa using hc
      exact Or.inr ⟨hproper, rfl⟩
    · rw [List.getElem?_eq_none (by simp; omega)] at hc
      cases hc
  · rintro (⟨i, c, hc, hproper, rfl⟩ | ⟨hproper, rfl⟩)
    · obtain ⟨hi, -⟩ := List.getElem?_eq_some_iff.1 hc
      exact ⟨i, c, by rwa [List.getElem?_append_left hi], hproper, rfl⟩
    · exact ⟨bs.length, b, by simp, hproper, rfl⟩

/-- The segments record ranges one after another from position zero on. -/
structure Lists (bs : List Interval) (ss : List Segment) : Prop where
  tidy : Tidy ss
  mem_iff : ∀ s, s ∈ ss ↔ Recorded bs s

theorem Lists.nil : Lists [] [] where
  tidy := .nil
  mem_iff s := by simp [Recorded]

theorem Lists.apart (h : Lists bs ss) :
    ∀ s ∈ ss, s.key.interval.Apart (Region.single bs.length).interval := by
  intro s hs
  obtain ⟨i, b, hb, -, rfl⟩ := (h.mem_iff s).1 hs
  obtain ⟨hi, -⟩ := List.getElem?_eq_some_iff.1 hb
  exact Region.single_apart (by omega)

/-- The next position is written. -/
theorem Lists.overwrite (h : Lists bs ss) (k : Bool) (b : Interval) :
    ∃ ss', SegmentMap.overwrite ⟨k, some ss⟩ (.single bs.length) b = .ok ⟨k, some ss'⟩ ∧
      Lists (bs ++ [b]) ss' := by
  have hkey : (Region.single bs.length).OfKind true := Region.single_ofKind _
  have hproper : (Region.single bs.length).isBottom = false :=
    Interval.isBottom_eq_false_of_mem (Region.mem_single.2 rfl)
  cases hb : b.isBottom with
  | true =>
      refine ⟨ss, SegmentMap.overwrite_of_isBottom rfl (by simp [isBottom, hb]), h.tidy, fun s => ?_⟩
      rw [h.mem_iff, recorded_concat, hb]
      simp
  | false =>
      have houtside : outside? (.single bs.length) ss = some ss := outside?_eq_some_self fun s hs htouch =>
        absurd (h.apart s hs) ((touches_iff (h.tidy.tight s hs) hkey.tight).1 htouch)
      have htidy : Tidy (ss ++ [⟨.single bs.length, b⟩]) :=
        h.tidy.concat hkey.tight (isBottom_eq_false_iff.2 ⟨hproper, hb⟩) h.apart
      refine ⟨_, ?_, htidy, fun s => ?_⟩
      · rw [SegmentMap.overwrite]
        dsimp only
        rw [hproper, hb, if_neg (by decide), houtside]
        exact SegmentMap.withSegments_eq htidy
      · rw [List.mem_append, h.mem_iff, recorded_concat, hb]
        simp

/-- What is read at a position is what was recorded there. -/
theorem Lists.valuesAt (h : Lists bs ss) (hb : bs[i]? = some b) :
    SegmentMap.valuesAt ⟨k, some ss⟩ (.single i) = b := by
  refine Interval.le_antisymm (Interval.joinAll_le fun c hc => ?_) ?_
  · obtain ⟨s, hs, rfl⟩ := List.mem_map.1 hc
    obtain ⟨hmem, htouch⟩ := List.mem_filter.1 hs
    obtain ⟨j, b', hb', -, rfl⟩ := (h.mem_iff s).1 hmem
    rw [touches_iff (Region.single_ofKind j).tight (Region.single_ofKind i).tight] at htouch
    obtain rfl : j = i := by
      by_contra hne
      exact htouch (Region.single_apart (by exact_mod_cast hne))
    rw [hb] at hb'
    exact Option.some.inj hb' ▸ Interval.le_refl _
  · cases hbottom : b.isBottom with
    | true => exact Interval.le_of_isBottom hbottom
    | false =>
        have hcovers : Covers ss i b :=
          ⟨⟨.single i, b⟩, (h.mem_iff _).2 ⟨i, b, hb, hbottom, rfl⟩, Region.mem_single.2 rfl, Interval.le_refl _⟩
        exact SegmentMap.le_valuesAt h.tidy (Region.single_ofKind i).tight (Region.mem_single.2 rfl) hcovers

end Segment

namespace SegmentState

open Segment (Tidy Covers Lists)

variable {s : SegmentState} {type : Ty} {k : Bool} {l : Identifier} {env env' : Environment} {n : Int}
  {e : Expr} {entry : Expr × Expr} {entries rest : List (Expr × Expr)} {ss ss₁ ss' : List Segment}

/-- The items are written one position after another. -/
theorem exists_listContent (htype : type.hasIntegralKeys = true) {items : List Expr} {bs : List Interval}
    (h : Lists bs ss) (hitems : ∀ e ∈ items, ∃ a, evaluate s.environment e = .ok a) :
    ∃ bs' ss', s.listContent type bs.length items ⟨k, some ss⟩ = .ok ⟨k, some ss'⟩ ∧
      Lists (bs ++ bs') ss' ∧ ∀ (i : Nat) (e : Expr), items[i]? = some e →
        ∃ b, bs'[i]? = some b ∧ evaluate s.environment e = .ok b := by
  induction items generalizing bs ss with
  | nil => exact ⟨[], ss, rfl, by rwa [List.append_nil], fun i e he => nomatch he⟩
  | cons e items ih =>
      obtain ⟨⟨b, hb⟩, hitems⟩ := List.forall_mem_cons.1 hitems
      obtain ⟨ss₁, hwrite, h₁⟩ := h.overwrite k b
      obtain ⟨bs', ss', hrest, h', hvalues⟩ := ih h₁ hitems
      refine ⟨b :: bs', ss', ?_, ?_, fun i e' he => ?_⟩
      · rw [List.length_append, List.length_singleton] at hrest
        -- The keys of a list are whole, so that its next position is a single key.
        rw [listContent, hb]
        change (SegmentMap.overwrite _ (Region.spanning type.hasIntegralKeys _) b >>= _) = _
        rw [htype]
        change (SegmentMap.overwrite _ (Region.single _) b >>= _) = _
        rw [hwrite]
        exact hrest
      · rwa [List.append_assoc, List.singleton_append] at h'
      · cases i with
        | zero => exact ⟨b, rfl, Option.some.inj he ▸ hb⟩
        | succ i => exact hvalues i e' he

/-! ### The contents of a dictionary -/

/-- The key of an entry is known to be a single number. -/
def HasKey (env : Environment) (n : Int) (key : Expr) : Prop :=
  ∃ range, evaluate env key = .ok range ∧ Region.spanning true range = .single n

/-- Of the entries whose key is known to be `n`, the last one has the value `e`. -/
inductive LastEntry (env : Environment) (n : Int) (e : Expr) : List (Expr × Expr) → Prop where
  | here {key : Expr} {rest : List (Expr × Expr)} (hkey : HasKey env n key)
      (hrest : ∀ entry ∈ rest, ¬ HasKey env n entry.1) : LastEntry env n e ((key, e) :: rest)
  | later {entry : Expr × Expr} {rest : List (Expr × Expr)} (h : LastEntry env n e rest) :
      LastEntry env n e (entry :: rest)

theorem lastEntry_singleton : LastEntry env n e [entry] ↔ HasKey env n entry.1 ∧ entry.2 = e := by
  constructor
  · rintro (⟨hkey, -⟩ | ⟨⟨⟩⟩)
    exact ⟨hkey, rfl⟩
  · rintro ⟨hkey, rfl⟩
    exact .here hkey (List.forall_mem_nil _)

theorem LastEntry.exists_mem (h : LastEntry env n e entries) : ∃ key, (key, e) ∈ entries := by
  induction h with
  | @here key _ _ _ => exact ⟨key, List.mem_cons_self⟩
  | later _ ih =>
      obtain ⟨key, hmem⟩ := ih
      exact ⟨key, List.mem_cons_of_mem _ hmem⟩

theorem LastEntry.congr (hkeys : ∀ entry ∈ entries, evaluate env entry.1 = evaluate env' entry.1)
    (h : LastEntry env n e entries) : LastEntry env' n e entries := by
  induction h with
  | here hkey hrest =>
      obtain ⟨hhere, hothers⟩ := List.forall_mem_cons.1 hkeys
      refine .here ?_ fun entry hentry => ?_
      · rwa [HasKey, ← hhere]
      · rw [HasKey, ← hothers entry hentry]
        exact hrest entry hentry
  | later _ ih => exact .later (ih (List.forall_mem_cons.1 hkeys).2)

/-- What entries leave: under a key that is known the value of its last entry, and under every other what was
recorded there. -/
structure Entered (env : Environment) (entries : List (Expr × Expr)) (ss ss' : List Segment) : Prop where
  tidy : Tidy ss'
  holds : ∀ (n : Int) (e : Expr) (a : Interval), LastEntry env n e entries → evaluate env e = .ok a →
    a.isBottom = false → Covers ss' n a
  keeps : ∀ (n : Int) (a : Interval), (∀ entry ∈ entries, ¬ HasKey env n entry.1) → a.isBottom = false →
    Covers ss n a → Covers ss' n a

theorem Entered.nil (h : Tidy ss) : Entered env [] ss ss where
  tidy := h
  holds _ _ _ hlast := nomatch hlast
  keeps _ _ _ _ hcovers := hcovers

theorem Entered.cons (hentry : Entered env [entry] ss ss₁) (hrest : Entered env rest ss₁ ss') :
    Entered env (entry :: rest) ss ss' where
  tidy := hrest.tidy
  holds n e a hlast ha hproper := by
    cases hlast with
    | here hkey hnone =>
        refine hrest.keeps n a hnone hproper (hentry.holds n e a ?_ ha hproper)
        exact .here hkey (List.forall_mem_nil _)
    | later hlast => exact hrest.holds n e a hlast ha hproper
  keeps n a hnone hproper hcovers := by
    obtain ⟨hkey, hnone⟩ := List.forall_mem_cons.1 hnone
    exact hrest.keeps n a hnone hproper
      (hentry.keeps n a (List.forall_mem_singleton.2 hkey) hproper hcovers)

theorem Entered.le_valuesAt {a : Interval} (h : Entered env entries ss ss') (hlast : LastEntry env n e entries)
    (ha : evaluate env e = .ok a) : a.le (SegmentMap.valuesAt ⟨k, some ss'⟩ (.single n)) = true := by
  cases hproper : a.isBottom with
  | true => exact Interval.le_of_isBottom hproper
  | false =>
      exact SegmentMap.le_valuesAt h.tidy (Region.single_ofKind n).tight (Region.mem_single.2 rfl)
        (h.holds n e a hlast ha hproper)

/-- The contents after one more entry. -/
def enter (s : SegmentState) (type : Ty) (content : SegmentMap) (entry : Expr × Expr) : Outcome SegmentMap := do
  let range ← evaluate s.environment entry.1
  let value ← evaluate s.environment entry.2
  let key := Region.spanning type.hasIntegralKeys range
  if key.isSingleton then content.overwrite key value else content.insert key value

theorem dictContent_eq_foldlM (s : SegmentState) (type : Ty) (keys values : List Expr) (m : SegmentMap) :
    s.dictContent type keys values m = (keys.zip values).foldlM (s.enter type) m := by
  induction keys generalizing values m with
  | nil => rfl
  | cons key keys ih =>
      cases values with
      | nil => rfl
      | cons value values =>
          rw [List.zip_cons_cons, List.foldlM_cons, dictContent, enter, bind_assoc]
          refine bind_congr fun range => ?_
          rw [bind_assoc]
          refine bind_congr fun value => ?_
          -- What follows the two kinds of update stands in both branches.
          simp only [ih]
          split <;> rfl

/-- A single key is overwritten and other keys are added to; an empty entry changes nothing. -/
theorem exists_entered {key : Region} (h : Tidy ss) (hkey : key.OfKind true) (value : Interval) :
    ∃ ss', (if key.isSingleton then SegmentMap.overwrite ⟨k, some ss⟩ key value
        else SegmentMap.insert ⟨k, some ss⟩ key value) = .ok ⟨k, some ss'⟩ ∧ Tidy ss' ∧
      (∀ n : Int, (n : Rat) ∈ key.interval → value.isBottom = false → Covers ss' n value) ∧
      ∀ (n : Int) (a : Interval), key ≠ .single n → a.isBottom = false → Covers ss n a → Covers ss' n a := by
  cases hproper : Segment.isBottom ⟨key, value⟩ with
  | true =>
      refine ⟨ss, ?_, h, fun n hn hvalue => ?_, fun n a _ _ hcovers => hcovers⟩
      · rw [SegmentMap.overwrite_of_isBottom rfl hproper, SegmentMap.insert_of_isBottom rfl h hproper, ite_self]
      · rw [Segment.isBottom_eq_false_iff.2 ⟨Interval.isBottom_eq_false_of_mem hn, hvalue⟩] at hproper
        cases hproper
  | false =>
      split
      · rename_i hsingle
        obtain ⟨ss', hwrite, htidy, hholds, hkeeps⟩ :=
          SegmentMap.exists_overwrite (m := ⟨k, some ss⟩) rfl h hkey hproper
        refine ⟨ss', hwrite, htidy, fun n hn _ => hholds n hn, fun n a hne => hkeeps n a fun hn => hne ?_⟩
        exact hkey.eq_single hsingle hn
      · obtain ⟨ss', hwrite, htidy, hholds, hkeeps⟩ :=
          SegmentMap.exists_insert (m := ⟨k, some ss⟩) rfl h hkey hproper
        exact ⟨ss', hwrite, htidy, fun n hn _ => hholds n hn, fun n a _ => hkeeps n a trivial⟩

theorem exists_enter (htype : type.hasIntegralKeys = true) (h : Tidy ss)
    (hkey : ∃ a, evaluate s.environment entry.1 = .ok a)
    (hvalue : ∃ a, evaluate s.environment entry.2 = .ok a) :
    ∃ ss', s.enter type ⟨k, some ss⟩ entry = .ok ⟨k, some ss'⟩ ∧ Entered s.environment [entry] ss ss' := by
  obtain ⟨range, hrange⟩ := hkey
  obtain ⟨b, hb⟩ := hvalue
  obtain ⟨ss', hwrite, htidy, hholds, hkeeps⟩ := exists_entered (k := k) h (Region.spanning_ofKind true range) b
  refine ⟨ss', ?_, htidy, fun n e a hlast ha => ?_, fun n a hnone => hkeeps n a fun hsingle => ?_⟩
  · rw [enter, hrange, hb, htype]
    exact hwrite
  · obtain ⟨⟨range', hrange', hsingle⟩, rfl⟩ := lastEntry_singleton.1 hlast
    obtain rfl : range = range' := Except.ok.inj (hrange.symm.trans hrange')
    obtain rfl : a = b := Except.ok.inj (ha.symm.trans hb)
    exact hholds n (hsingle ▸ Region.mem_single.2 rfl)
  · exact hnone entry (List.mem_singleton.2 rfl) ⟨range, hrange, hsingle⟩

theorem exists_foldlM_enter (htype : type.hasIntegralKeys = true) (entries : List (Expr × Expr)) (h : Tidy ss)
    (hkeys : ∀ entry ∈ entries, ∃ a, evaluate s.environment entry.1 = .ok a)
    (hvalues : ∀ entry ∈ entries, ∃ a, evaluate s.environment entry.2 = .ok a) :
    ∃ ss', entries.foldlM (s.enter type) ⟨k, some ss⟩ = .ok ⟨k, some ss'⟩ ∧
      Entered s.environment entries ss ss' := by
  induction entries generalizing ss with
  | nil => exact ⟨ss, rfl, .nil h⟩
  | cons entry entries ih =>
      obtain ⟨hkey, hkeys⟩ := List.forall_mem_cons.1 hkeys
      obtain ⟨hvalue, hvalues⟩ := List.forall_mem_cons.1 hvalues
      obtain ⟨ss₁, henter, hentry⟩ := exists_enter htype (k := k) h hkey hvalue
      obtain ⟨ss', hfold, hrest⟩ := ih hentry.tidy hkeys hvalues
      refine ⟨ss', ?_, hentry.cons hrest⟩
      rw [List.foldlM_cons, henter]
      exact hfold

/-! ### Assigned displays -/

theorem value_setScalar_lengthOf {x : Identifier} (h : x.name ≠ l.name) (size : Interval) :
    (s.setScalar l.lengthOf size).value x = s.value x :=
  value_setScalar_of_ne fun heq => h (by rw [heq, Identifier.lengthOf])

theorem related_setScalar (s : SegmentState) (l : Identifier) (size : Interval) :
    (s.setScalar l.lengthOf size).environment.Related Eq (fun x => x.name ≠ l.name) s.environment where
  value x hx := value_setScalar_lengthOf hx size
  length x hx := value_setScalar_lengthOf (x := x.lengthOf) hx size
  element x hx := by
    rintro key _ rfl
    have hlength : (s.setScalar l.lengthOf size).value x.lengthOf = s.value x.lengthOf :=
      value_setScalar_lengthOf (x := x.lengthOf) hx size
    have hnone : (s.setScalar l.lengthOf size).hasNone x = s.hasNone x := by rw [hasNone, hasNone, hlength]
    have hregion : (s.setScalar l.lengthOf size).keyRegion x key = s.keyRegion x key := by
      rw [keyRegion, keyRegion, hlength]
    change (s.setScalar l.lengthOf size).element x key = s.element x key
    simp only [element, hnone, hregion, contents?_setScalar]

/-- Setting the length of a variable matters only to expressions that read the variable. -/
theorem evaluate_setScalar (h : ¬ e.Reads l.name) (size : Interval) :
    evaluate (s.setScalar l.lengthOf size).environment e = evaluate s.environment e :=
  evaluate_congr (related_setScalar s l size) fun x hx hname => h ⟨x, hx, hname⟩

theorem hasLength_of_isSegmented (h : l.isSegmented = true) :
    l.hasLength = true ∧ l.type.isNumeric = false := by
  obtain ⟨hplain, htype⟩ := Bool.and_eq_true_iff.1 h
  rw [Identifier.hasLength, hplain]
  split at htype
  · rename_i item heq
    rw [heq]
    exact ⟨rfl, rfl⟩
  · rename_i key value heq
    rw [heq]
    exact ⟨rfl, rfl⟩
  · cases htype

section Assign

variable (hs : s.Proper) (hsegmented : l.isSegmented = true) (hl : s.contents.contains l = true)

include hs hsegmented hl

/-- The variable gets the contents that its value has once the new length is set. -/
theorem exists_assign (display : Expr) {size : Interval}
    (hsize : length s.environment display = .ok size) (hproper : size.isBottom = false)
    (hempty : size.upper = 0 → (s.setScalar l.lengthOf size).contentOf l.type display = pure (noContent l.type))
    (hcontent : (s.setScalar l.lengthOf size).contentOf l.type display = .ok ⟨k, some ss⟩) (hss : Tidy ss) :
    ∃ s', s.assign (.var l) display = .ok s' ∧ s'.contents? l = some ⟨k, some ss⟩ := by
  obtain ⟨hlength, htype⟩ := hasLength_of_isSegmented hsegmented
  have hcontainer : s.assignContainer l display =
      .ok ((s.setScalar l.lengthOf size).setContents l ⟨k, some ss⟩) := by
    rw [assignContainer, hsize]
    change (if (s.setScalar l.lengthOf size).contents.contains l = true then _ else _) = _
    rw [contains_setScalar, if_pos hl]
    -- A display of no items is not evaluated, and would have had no contents either.
    split
    · rename_i hzero
      rw [← hempty hzero, hcontent]
      rfl
    · rw [hcontent]
      rfl
  have hresult : ((s.setScalar l.lengthOf size).setContents l ⟨k, some ss⟩).Proper :=
    (hs.setScalar hproper).setContents rfl hss
  refine ⟨(s.setScalar l.lengthOf size).setContents l ⟨k, some ss⟩, ?_, ?_⟩
  · rw [assign, htype, if_neg Bool.false_ne_true, if_pos hlength, hcontainer]
    change Except.ok _ = _
    rw [hresult.normalized]
  · rw [contents?_setContents, if_pos rfl]

/-- A list holds the ranges of the items of its display, one after another. -/
theorem exists_assign_list (type : Ty) {item : Ty} {items : List Expr} (htype : l.type = .list item)
    (hitems : ∀ e ∈ items, ∃ a, evaluate s.environment e = .ok a) :
    ∃ s' bs ss, s.assign (.var l) (.list type items) = .ok s' ∧
      s'.contents? l = some ⟨l.type.hasIntegralKeys, some ss⟩ ∧ Lists bs ss ∧
      ∀ (i : Nat) (e : Expr), items[i]? = some e → ∃ b, bs[i]? = some b ∧
        evaluate (s.setScalar l.lengthOf (.point (.fin (items.length : Int)))).environment e = .ok b := by
  have hintegral : l.type.hasIntegralKeys = true := by
    rw [htype]
    rfl
  obtain ⟨bs, ss, hcontent, hlists, hvalues⟩ :=
    exists_listContent (s := s.setScalar l.lengthOf (.point (.fin (items.length : Int)))) hintegral Lists.nil
      fun e he => (hitems e he).elim fun a ha => exists_evaluate ha _
  have hsize : (Interval.point (.fin (items.length : Int))).isBottom = false :=
    Interval.isBottom_eq_false_of_mem (Interval.mem_point.2 rfl)
  have hempty : (Interval.point (.fin (items.length : Int))).upper = 0 → items = [] := by
    intro hzero
    rw [(Interval.point_bounds _).2] at hzero
    exact List.length_eq_zero_iff.1 (by exact_mod_cast Bound.fin.inj hzero)
  obtain ⟨s', hassign, hm⟩ := exists_assign hs hsegmented hl (.list type items) rfl hsize
    (fun hzero => by rw [hempty hzero]; rfl) hcontent hlists.tidy
  exact ⟨s', bs, ss, hassign, hm, hlists, hvalues⟩

/-- A dictionary holds what the entries of its display leave. -/
theorem exists_assign_dict (type : Ty) {key value : Ty} {keys values : List Expr} (htype : l.type = .dict key value)
    (hkey : key.isIntegral = true) (hkeys : ∀ e ∈ keys, ∃ a, evaluate s.environment e = .ok a)
    (hvalues : ∀ e ∈ values, ∃ a, evaluate s.environment e = .ok a) :
    ∃ s' ss, s.assign (.var l) (.dict type keys values) = .ok s' ∧
      s'.contents? l = some ⟨l.type.hasIntegralKeys, some ss⟩ ∧
      Entered (s.setScalar l.lengthOf (.distinct keys.length)).environment (keys.zip values) [] ss := by
  have hintegral : l.type.hasIntegralKeys = true := by
    rw [htype]
    exact hkey
  obtain ⟨ss, hcontent, hentered⟩ :=
    exists_foldlM_enter (s := s.setScalar l.lengthOf (.distinct keys.length)) (k := l.type.hasIntegralKeys)
      hintegral (keys.zip values) Tidy.nil
      (fun entry hentry => (hkeys _ (List.of_mem_zip hentry).1).elim fun a ha => exists_evaluate ha _)
      (fun entry hentry => (hvalues _ (List.of_mem_zip hentry).2).elim fun a ha => exists_evaluate ha _)
  rw [← dictContent_eq_foldlM] at hcontent
  have hsize : (Interval.distinct keys.length).isBottom = false := by
    refine Interval.isBottom_eq_false_of_mem (q := keys.length) (Interval.mem_of.2 ⟨?_, le_rfl⟩)
    split
    · exact Bound.fin_le_fin.2 (Nat.cast_nonneg _)
    · exact Bound.fin_le_fin.2 (by exact_mod_cast Nat.one_le_iff_ne_zero.2 ‹_›)
  have hempty : (Interval.distinct keys.length).upper = 0 → keys = [] := by
    intro hzero
    rw [Interval.distinct, (Interval.of_bounds hsize).2] at hzero
    exact List.length_eq_zero_iff.1 (by exact_mod_cast Bound.fin.inj hzero)
  obtain ⟨s', hassign, hm⟩ := exists_assign hs hsegmented hl (.dict type keys values) rfl hsize
    (fun hzero => by rw [hempty hzero]; rfl) hcontent hentered.tidy
  exact ⟨s', ss, hassign, hm, hentered⟩

end Assign

/-- A display is evaluated once the length of the variable is set. If all its items have a range before that, the
assignment succeeds. A list then holds under each position exactly the range of the item with the new length, and
a dictionary holds at least that of the last entry under each key that is known exactly. An item that does not
read the variable has the same range before the assignment. -/
theorem display_assigned (hs : s.Proper) (hsegmented : l.isSegmented = true)
    (hl : s.contents.contains l = true) :
    (∀ (type item : Ty) (items : List Expr), l.type = .list item →
      (∀ e ∈ items, ∃ a, evaluate s.environment e = .ok a) →
      ∃ s' m, s.assign (.var l) (.list type items) = .ok s' ∧ s'.contents? l = some m ∧
        ∀ (i : Nat) (e : Expr), items[i]? = some e →
          evaluate (s.setScalar l.lengthOf (.point (.fin (items.length : Int)))).environment e =
            .ok (m.valuesAt (.single i)) ∧
          (¬ e.Reads l.name → evaluate s.environment e = .ok (m.valuesAt (.single i)))) ∧
    ∀ (type key value : Ty) (keys values : List Expr), l.type = .dict key value → key.isIntegral = true →
      (∀ e ∈ keys, ∃ a, evaluate s.environment e = .ok a) →
      (∀ e ∈ values, ∃ a, evaluate s.environment e = .ok a) →
      ∃ s' m, s.assign (.var l) (.dict type keys values) = .ok s' ∧ s'.contents? l = some m ∧
        ∀ (n : Int) (e : Expr),
          (LastEntry (s.setScalar l.lengthOf (.distinct keys.length)).environment n e (keys.zip values) →
            ∃ a, evaluate (s.setScalar l.lengthOf (.distinct keys.length)).environment e = .ok a ∧
              a.le (m.valuesAt (.single n)) = true) ∧
          (LastEntry s.environment n e (keys.zip values) → (∀ key ∈ keys, ¬ key.Reads l.name) →
            ¬ e.Reads l.name → ∃ a, evaluate s.environment e = .ok a ∧
              a.le (m.valuesAt (.single n)) = true) := by
  constructor
  · intro type item items htype hitems
    obtain ⟨s', bs, ss, hassign, hm, hlists, hvalues⟩ := exists_assign_list hs hsegmented hl type htype hitems
    refine ⟨s', _, hassign, hm, fun i e he => ?_⟩
    have hrecorded : evaluate (s.setScalar l.lengthOf (.point (.fin (items.length : Int)))).environment e =
        .ok (SegmentMap.valuesAt ⟨l.type.hasIntegralKeys, some ss⟩ (.single i)) := by
      obtain ⟨b, hb, hvalue⟩ := hvalues i e he
      rw [hvalue, hlists.valuesAt hb]
    refine ⟨hrecorded, fun hreads => ?_⟩
    rwa [evaluate_setScalar hreads] at hrecorded
  · intro type key value keys values htype hkey hkeys hvalues
    obtain ⟨s', ss, hassign, hm, hentered⟩ :=
      exists_assign_dict hs hsegmented hl type htype hkey hkeys hvalues
    have hholds : ∀ n e, LastEntry (s.setScalar l.lengthOf (.distinct keys.length)).environment n e
        (keys.zip values) → ∃ a, evaluate (s.setScalar l.lengthOf (.distinct keys.length)).environment e = .ok a ∧
          a.le (SegmentMap.valuesAt ⟨l.type.hasIntegralKeys, some ss⟩ (.single n)) = true := by
      intro n e hlast
      obtain ⟨key, hmem⟩ := hlast.exists_mem
      obtain ⟨a₀, ha₀⟩ := hvalues e (List.of_mem_zip hmem).2
      obtain ⟨a, ha⟩ := exists_evaluate ha₀ (s.setScalar l.lengthOf (.distinct keys.length)).environment
      exact ⟨a, ha, hentered.le_valuesAt hlast ha⟩
    refine ⟨s', _, hassign, hm, fun n e => ⟨hholds n e, fun hlast hreads he => ?_⟩⟩
    have hsame : ∀ entry ∈ keys.zip values, evaluate s.environment entry.1 =
        evaluate (s.setScalar l.lengthOf (.distinct keys.length)).environment entry.1 := fun entry hentry =>
      (evaluate_setScalar (hreads entry.1 (List.of_mem_zip hentry).1) _).symm
    obtain ⟨a, ha, hle⟩ := hholds n e (hlast.congr hsame)
    rw [evaluate_setScalar he] at ha
    exact ⟨a, ha, hle⟩

def Pair.second : Expr := .item .int (.var Pair.numbers) (.literal (.int 1))

/-- A variable that holds a dictionary from whole numbers to whole numbers. -/
def Pair.counts : Identifier := ⟨"d", .dict .int .int, .variable⟩

/-- A list of two is replaced by its second item and five, and a dictionary by one that is entered its own length
under a key that it has. -/
theorem display_assigned_reading :
    (∃ s' m, Pair.state.assign (.var Pair.numbers) (.list (.list .int) [Pair.second, .literal (.int 5)]) = .ok s' ∧
      s'.contents? Pair.numbers = some m ∧ .ok (m.valuesAt (.single 0)) =
        evaluate (Pair.state.setScalar Pair.numbers.lengthOf (.point 2)).environment Pair.second ∧
      m.valuesAt (.single 1) = .point 5) ∧
    ∃ s' m, (ofVariables [Pair.counts]).assign (.var Pair.counts)
        (.dict (.dict .int .int) [.literal (.int 1), .literal (.int 1)]
          [.literal (.int 5), .length (.var Pair.counts)]) = .ok s' ∧
      s'.contents? Pair.counts = some m ∧ (Interval.of 1 2).le (m.valuesAt (.single 1)) = true := by
  constructor
  · obtain ⟨s', m, hassign, hm, hread⟩ := (display_assigned (l := Pair.numbers) Pair.proper rfl
      (by decide +kernel)).1 (.list .int) .int [Pair.second, .literal (.int 5)] rfl
      (List.forall_mem_cons.2 ⟨⟨_, rfl⟩, List.forall_mem_singleton.2 ⟨_, rfl⟩⟩)
    refine ⟨s', m, hassign, hm, (hread 0 _ rfl).1.symm, ?_⟩
    have hfive : evaluate Pair.state.environment (.literal (.int 5)) = .ok (m.valuesAt (.single 1)) :=
      (hread 1 _ rfl).2 (by simp [Expr.Reads, Expr.occurrences])
    exact (Except.ok.inj hfive).symm.trans (by decide +kernel)
  · obtain ⟨s', m, hassign, hm, hread⟩ := (display_assigned (l := Pair.counts) (ofVariables_proper [Pair.counts]) rfl
      (by decide +kernel)).2 (.dict .int .int) .int .int [.literal (.int 1), .literal (.int 1)]
      [.literal (.int 5), .length (.var Pair.counts)] rfl rfl
      (List.forall_mem_cons.2 ⟨⟨_, rfl⟩, List.forall_mem_singleton.2 ⟨_, rfl⟩⟩)
      (List.forall_mem_cons.2 ⟨⟨_, rfl⟩, List.forall_mem_singleton.2 ⟨_, rfl⟩⟩)
    refine ⟨s', m, hassign, hm, ?_⟩
    obtain ⟨a, ha, hle⟩ := (hread 1 (.length (.var Pair.counts))).1
      (.later (.here ⟨_, rfl, by decide +kernel⟩ (List.forall_mem_nil _)))
    have hlength : Interval.of 1 2 = a := by
      rw [← Except.ok.inj ha]
      decide +kernel
    rwa [hlength]

/-- An item that reads the variable is not recorded with the range that it has before the assignment: a list of two
that is replaced by the list of its second item holds nothing at all, since position one is past the new length. -/
theorem display_reads_new_length :
    evaluate Pair.state.environment Pair.second = .ok (.point 20) ∧
      ∃ s' m, Pair.state.assign (.var Pair.numbers) (.list (.list .int) [Pair.second]) = .ok s' ∧
        s'.contents? Pair.numbers = some m ∧ (Interval.point 20).le (m.valuesAt (.single 0)) = false := by
  have hbefore : (evaluate Pair.state.environment Pair.second).toOption = some (.point 20) := by decide +kernel
  have hafter : ((Pair.state.assign (.var Pair.numbers) (.list (.list .int) [Pair.second])).toOption.bind
      fun s' => (s'.contents? Pair.numbers).map fun m => (Interval.point 20).le (m.valuesAt (.single 0))) =
        some false := by decide +kernel
  obtain ⟨s', hassign, hm⟩ := Option.bind_eq_some_iff.1 hafter
  obtain ⟨m, hm, hle⟩ := Option.map_eq_some_iff.1 hm
  exact ⟨toOption_eq_some.1 hbefore, s', m, toOption_eq_some.1 hassign, hm, hle⟩

end SegmentState

end FlowAnalysis
