import FlowAnalysis.Proofs.Number.Arithmetic
import FlowAnalysis.Proofs.Segment.State

/-!
Items of containers. A state describes a list or a dictionary if it knows its length and holds every entry in some
segment. Writing an item makes it describe the container with the new entry, its length included, and reading an
item finds what is stored. A strong update is sound because a region with a single key is the key itself, and a
dictionary grows for certain only if no segment could have held the key before.
-/

namespace FlowAnalysis

/-- A list or a dictionary of numbers as a program holds it. -/
inductive Container where
  | list (items : List Rat)
  | dict (entries : OrderedMap Int Rat)

namespace Container

variable {c c' : Container} {k j : Int} {x : Rat}

def size : Container → Nat
  | list items => items.length
  | dict entries => entries.size

/-- What is held at a position of a list or under a key of a dictionary. -/
def at? : Container → Int → Option Rat
  | list items, i => if 0 ≤ i then items[i.toNat]? else none
  | dict entries, k => entries.get? k

/-- Where an index points to: a negative one counts from the end of a list. -/
def position : Container → Int → Int
  | list items, k => if k < 0 then k + items.length else k
  | dict _, k => k

/-- Whether an index points into a container. A dictionary takes any key. -/
def reaches (c : Container) (k : Int) : Bool :=
  match c with
  | list items => 0 ≤ c.position k && c.position k < items.length
  | dict _ => true

def get? (c : Container) (k : Int) : Option Rat := c.at? (c.position k)

def withItem : Container → Int → Rat → Container
  | list items, k, x => list (items.set ((list items).position k).toNat x)
  | dict entries, k, x => dict (entries.insert k x)

/-- Writes an item. In a list it has to be there. -/
def set? (c : Container) (k : Int) (x : Rat) : Option Container :=
  if c.reaches k then some (c.withItem k x) else none

/-- The type of a variable that may hold the container: keys are whole numbers. -/
def OfType : Container → Ty → Prop
  | list _, .list _ => True
  | dict _, .dict key _ => key.isIntegral = true
  | _, _ => False

theorem exists_of_ofType_list {items : List Rat} {type : Ty} (h : (list items).OfType type) :
    ∃ item, type = .list item := by
  cases type with
  | list item => exact ⟨item, rfl⟩
  | _ => cases h

theorem exists_of_ofType_dict {entries : OrderedMap Int Rat} {type : Ty} (h : (dict entries).OfType type) :
    ∃ key value, type = .dict key value ∧ key.isIntegral = true := by
  cases type with
  | dict key value => exact ⟨key, value, rfl, h⟩
  | _ => cases h

theorem list_reaches_iff {items : List Rat} : (list items).reaches k = true ↔
    0 ≤ (list items).position k ∧ (list items).position k < items.length := by
  rw [reaches, Bool.and_eq_true, decide_eq_true_iff, decide_eq_true_iff]

theorem reaches_of_get? (h : c.get? k = some x) : c.reaches k = true := by
  cases c with
  | dict entries => rfl
  | list items =>
      rw [get?, at?] at h
      split at h
      · rename_i hpos
        obtain ⟨hlt, -⟩ := List.getElem?_eq_some_iff.1 h
        rw [list_reaches_iff]
        exact ⟨hpos, by omega⟩
      · cases h

theorem set?_eq_some_iff : c.set? k x = some c' ↔ c.reaches k = true ∧ c.withItem k x = c' :=
  Option.ite_none_right_eq_some.trans (and_congr_right' Option.some_inj)

/-- Writing an item changes that item and no other. -/
theorem at?_withItem (h : c.reaches k = true) (x : Rat) (j : Int) :
    (c.withItem k x).at? j = if j = c.position k then some x else c.at? j := by
  cases c with
  | dict entries => exact OrderedMap.get?_insert entries k j x
  | list items =>
      obtain ⟨hpos, hlt⟩ := list_reaches_iff.1 h
      rw [withItem, at?, at?]
      split
      · rename_i hj
        rw [List.getElem?_set]
        by_cases heq : j = (list items).position k
        · rw [if_pos (by rw [heq]), if_pos (by omega), if_pos heq]
        · rw [if_neg (by omega), if_neg heq]
      · rename_i hneg
        rw [if_neg (by omega)]

theorem ofType_withItem {type : Ty} (h : c.OfType type) (k : Int) (x : Rat) :
    (c.withItem k x).OfType type := by
  cases c with
  | list items =>
      obtain ⟨item, rfl⟩ := exists_of_ofType_list h
      exact h
  | dict entries =>
      obtain ⟨key, value, rfl, -⟩ := exists_of_ofType_dict h
      exact h

theorem size_withItem_list (items : List Rat) (k : Int) (x : Rat) :
    ((list items).withItem k x).size = items.length :=
  List.length_set

/-- A dictionary grows by a key that is new. -/
theorem size_withItem_dict (entries : OrderedMap Int Rat) (k : Int) (x : Rat) :
    ((dict entries).withItem k x).size =
      if ((dict entries).at? k).isSome then entries.size else entries.size + 1 := by
  have hkeys := congrArg List.length (OrderedMap.keys_insert entries k x)
  rw [OrderedMap.length_keys] at hkeys
  rw [withItem, size, hkeys]
  have hiff : k ∈ entries.keys ↔ ((dict entries).at? k).isSome = true := by
    rw [OrderedMap.mem_keys_iff, Option.isSome_iff_exists]
    rfl
  by_cases hmem : k ∈ entries.keys
  · rw [if_pos hmem, if_pos (hiff.1 hmem), OrderedMap.length_keys]
  · rw [if_neg hmem, if_neg (mt hiff.2 hmem), List.length_append, OrderedMap.length_keys]
    rfl

theorem size_of_at? (h : c.at? j = some x) : 0 < c.size := by
  cases c with
  | dict entries =>
      have hkey : j ∈ entries.keys := OrderedMap.mem_keys_iff.2 ⟨x, h⟩
      have hlength := List.length_pos_of_mem hkey
      rwa [OrderedMap.length_keys] at hlength
  | list items =>
      rw [at?] at h
      split at h
      · obtain ⟨hlt, -⟩ := List.getElem?_eq_some_iff.1 h
        exact Nat.zero_lt_of_lt hlt
      · cases h

end Container

theorem Identifier.role_ne_length {x : Identifier} (h : x.isPlain = true) : x.role ≠ .length := by
  rw [Identifier.isPlain, beq_iff_eq] at h
  rw [h]
  decide

/-! ### Lengths -/

/-- A length grows by one, for certain if the key is new. -/
theorem SegmentState.mem_grown {size : Interval} {n : Nat} (hn : n < 2 ^ 53) (h : (n : Rat) ∈ size) :
    (∀ fresh, ((n + 1 : Nat) : Rat) ∈ grown size fresh) ∧ (0 < n → (n : Rat) ∈ grown size false) := by
  have hsmall : |(n : Int)| < 2 ^ 53 := by
    rw [Nat.abs_cast]
    exact_mod_cast hn
  obtain ⟨hlower, hupper⟩ := Interval.mem_iff.1 h
  have hlower' := Bound.add_one_le hsmall hlower
  have hupper' := Bound.le_add_one hsmall hupper
  have hcast : (((n : Int) + 1 : Int) : Rat) = ((n + 1 : Nat) : Rat) := by push_cast; rfl
  rw [hcast] at hlower' hupper'
  have hgrows : Bound.fin n ≤ .fin ((n + 1 : Nat) : Rat) :=
    Bound.fin_le_fin.2 (Nat.cast_le.2 (Nat.le_succ n))
  have hone : ∀ {i : Nat}, 0 < i → (1 : Bound) ≤ .fin i := fun hi =>
    Bound.fin_le_fin.2 (Nat.one_le_cast.2 hi)
  constructor
  · intro fresh
    rw [grown, Interval.mem_of]
    refine ⟨?_, hupper'⟩
    split
    · exact hlower'
    · rw [Bound.max_eq]
      exact max_le (hlower.trans hgrows) (hone n.succ_pos)
  · intro hpos
    rw [grown, Interval.mem_of, if_neg Bool.false_ne_true, Bound.max_eq]
    exact ⟨max_le hlower (hone hpos), hgrows.trans hupper'⟩

namespace SegmentState

open Segment (Tidy Covers)
open SegmentMap (Updated)

variable {s : SegmentState} {v : Identifier} {c : Container} {m : SegmentMap} {key : Region}
  {value range : Interval} {k : Int} {x : Rat}

/-- The state knows a container that a variable holds: its length, and a segment for every entry. -/
structure Describes (s : SegmentState) (v : Identifier) (c : Container) : Prop where
  plain : v.isPlain = true
  ofType : c.OfType v.type
  size : (c.size : Rat) ∈ s.value v.lengthOf
  content : ∃ m, s.contents? v = some m ∧ ∀ k x, c.at? k = some x →
    ∃ segment ∈ m.toList, (k : Rat) ∈ segment.key.interval ∧ x ∈ segment.value

theorem Describes.hasLength (h : s.Describes v c) : v.hasLength = true := by
  rw [Identifier.hasLength, h.plain, Bool.true_and]
  cases c with
  | list items =>
      obtain ⟨item, htype⟩ := Container.exists_of_ofType_list h.ofType
      rw [htype]
      rfl
  | dict entries =>
      obtain ⟨key, value, htype, -⟩ := Container.exists_of_ofType_dict h.ofType
      rw [htype]
      rfl

theorem Describes.hasIntegralKeys (h : s.Describes v c) : v.type.hasIntegralKeys = true := by
  cases c with
  | list items =>
      obtain ⟨item, htype⟩ := Container.exists_of_ofType_list h.ofType
      rw [htype]
      rfl
  | dict entries =>
      obtain ⟨key, value, htype, hkey⟩ := Container.exists_of_ofType_dict h.ofType
      rw [htype]
      exact hkey

/-- Where an index points to is among the keys that it may mean. -/
theorem Describes.mem_keyRegion (h : s.Describes v c) (hsmall : c.size < 2 ^ 53) (hk : (k : Rat) ∈ range)
    (hreaches : c.reaches k = true) : (c.position k : Rat) ∈ s.keyRegion v range := by
  cases c with
  | dict entries =>
      obtain ⟨key, value, htype, -⟩ := Container.exists_of_ofType_dict h.ofType
      rw [keyRegion, htype]
      exact hk
  | list items =>
      obtain ⟨item, htype⟩ := Container.exists_of_ofType_list h.ofType
      obtain ⟨hpos, hlt⟩ := Container.list_reaches_iff.1 hreaches
      have hposition : ((Container.list items).position k : Rat) ∈
          Interval.of 0 ((s.value v.lengthOf).upper.sub 1) := by
        have hlength : |(items.length : Int)| < 2 ^ 53 := by
          rw [Nat.abs_cast]
          exact_mod_cast hsmall
        have hupper := Bound.le_sub_one hlength (Interval.mem_iff.1 h.size).2
        refine Interval.mem_of.2 ⟨Bound.fin_le_fin.2 (Int.cast_nonneg hpos), le_trans ?_ hupper⟩
        exact Bound.fin_le_fin.2 (Int.cast_le.2 (by omega))
      rw [keyRegion, htype]
      dsimp only
      split
      · exact hposition
      · rename_i hlower
        have hnonneg : 0 ≤ k := by
          have hle := (not_lt.1 hlower).trans (Interval.mem_iff.1 hk).1
          exact Int.cast_nonneg_iff.1 (Bound.fin_le_fin.1 hle)
        rw [Container.position, if_neg (not_lt.2 hnonneg)] at hposition ⊢
        exact Interval.mem_meet.2 ⟨hk, hposition⟩

/-! ### Writing -/

/-- A strong update of a single key, or a weak one of several, holds the new value under the key that is written
and keeps what is held under all others. -/
theorem exists_written {ss : List Segment} {i : Int} (hm : m.segments = some ss) (h : Tidy ss)
    (hkey : key.OfKind true) (hi : (i : Rat) ∈ key.interval) (hvalue : value.isBottom = false) :
    ∃ ss', (if key.isSingleton then m.overwrite key value else m.update [⟨key, value⟩]) =
      .ok ⟨m.integral, some ss'⟩ ∧ Updated ss key value (fun n => n ≠ i) ss' := by
  have hproper : Segment.isBottom ⟨key, value⟩ = false :=
    Segment.isBottom_eq_false_iff.2 ⟨Interval.isBottom_eq_false_of_mem hi, hvalue⟩
  split
  · rename_i hsingle
    obtain ⟨ss', hwrite, htidy, hholds, hkeeps⟩ := SegmentMap.exists_overwrite hm h hkey hproper
    refine ⟨ss', hwrite, htidy, hholds, fun n a hne => hkeeps n a fun hn => hne ?_⟩
    exact Int.cast_injective (Region.eq_of_isSingleton hsingle hn hi)
  · obtain ⟨ss', hwrite, htidy, hholds, hkeeps⟩ := SegmentMap.exists_update hm h hkey hproper
    exact ⟨ss', hwrite, htidy, hholds, fun n a _ => hkeeps n a trivial⟩

/-- A key under which a container holds something is not new. -/
theorem keys_overlaps (h : Tidy m.toList) (hkey : key.Tight) {i : Int} (hi : (i : Rat) ∈ key.interval)
    {t : Segment} (ht : t ∈ m.toList) (hmem : (i : Rat) ∈ t.key.interval) :
    m.keys.overlaps key = true := by
  have hkeys : ∀ r ∈ m.toList.map Segment.key, r.Tight := fun r hr => by
    obtain ⟨u, hu, rfl⟩ := List.mem_map.1 hr
    exact h.tight u hu
  obtain ⟨htight, hinterval⟩ := Region.joinAll_tight ⟨.bottom, m.integral⟩ hkeys
  refine (Region.Tight.overlaps_iff htight hkey).2 (Interval.not_apart_iff.2 ⟨i, ?_, hi⟩)
  rw [hinterval]
  exact Interval.mem_of_le (Interval.le_joinAll (List.mem_map_of_mem (List.mem_map_of_mem ht))) hmem

/-- The entries of a container with a new item lie in segments that hold it and keep all others. -/
theorem Describes.content_withItem (h : s.Describes v c) (hm : s.contents? v = some m)
    (hreaches : c.reaches k = true) (hk : (c.position k : Rat) ∈ key.interval) (hx : x ∈ value)
    {ss' : List Segment} (hupdated : Updated m.toList key value (fun n => n ≠ c.position k) ss') (j : Int)
    (y : Rat) (hj : (c.withItem k x).at? j = some y) :
    ∃ t ∈ ss', (j : Rat) ∈ t.key.interval ∧ y ∈ t.value := by
  rw [Container.at?_withItem hreaches] at hj
  split at hj
  · rename_i heq
    subst heq
    obtain rfl := Option.some.inj hj
    obtain ⟨t, ht, hmem, hle⟩ := hupdated.holds _ hk
    exact ⟨t, ht, hmem, Interval.mem_of_le hle hx⟩
  · rename_i hne
    obtain ⟨m', hm', hentries⟩ := h.content
    obtain rfl := Option.some.inj (hm'.symm.trans hm)
    obtain ⟨t, ht, hmem, hy⟩ := hentries j y hj
    have hpoint : y ∈ Interval.point (.fin y) := Interval.mem_point.2 rfl
    have hcovers : Covers m'.toList j (.point (.fin y)) := ⟨t, ht, hmem, Interval.point_le hy⟩
    obtain ⟨u, hu, hmem, hle⟩ := hupdated.keeps j _ hne (Interval.isBottom_eq_false_of_mem hpoint) hcovers
    exact ⟨u, hu, hmem, Interval.mem_of_le hle hpoint⟩

theorem assignRegion_eq (s : SegmentState) (v : Identifier) (m : SegmentMap) (key : Region) (value : Interval) :
    s.assignRegion v m key value = (if key.isSingleton then m.overwrite key value
      else m.update [⟨key, value⟩]).map fun m' => match v.type with
        | .dict _ _ => (s.setScalar v.lengthOf
            (grown (s.value v.lengthOf) (!m.keys.overlaps key))).setContents v m'
        | _ => s.setContents v m' := by
  unfold SegmentState.assignRegion
  by_cases hsingle : key.isSingleton = true
  · rw [if_pos hsingle, if_pos hsingle]
    cases m.overwrite key value <;> cases v.type <;> rfl
  · rw [if_neg hsingle, if_neg hsingle]
    cases m.update [⟨key, value⟩] <;> cases v.type <;> rfl

theorem assignRegion_of_written {m' : SegmentMap} (h : (if key.isSingleton then m.overwrite key value
      else m.update [⟨key, value⟩]) = .ok m') :
    s.assignRegion v m key value = .ok (match v.type with
      | .dict _ _ => (s.setScalar v.lengthOf
          (grown (s.value v.lengthOf) (!m.keys.overlaps key))).setContents v m'
      | _ => s.setContents v m') := by
  rw [assignRegion_eq, h]
  rfl

/-- The length of a dictionary after a write, which is longer for certain if none of the keys was there. -/
theorem Describes.mem_grown {entries : OrderedMap Int Rat} (hs : s.Proper) (h : s.Describes v (.dict entries))
    (hsmall : (Container.dict entries).size < 2 ^ 53) (hm : s.contents? v = some m) (hkey : key.Tight)
    (hk : (k : Rat) ∈ key.interval) (x : Rat) : (((Container.dict entries).withItem k x).size : Rat) ∈
      grown (s.value v.lengthOf) (!m.keys.overlaps key) := by
  obtain ⟨hgrows, hstays⟩ := SegmentState.mem_grown hsmall h.size
  rw [Container.size_withItem_dict]
  split
  · rename_i hold
    obtain ⟨y, hy⟩ := Option.isSome_iff_exists.1 hold
    obtain ⟨m', hm', hentries⟩ := h.content
    obtain rfl := Option.some.inj (hm'.symm.trans hm)
    obtain ⟨t, ht, hmem, -⟩ := hentries k y hy
    rw [keys_overlaps (hs.tidy v m' hm) hkey hk ht hmem]
    exact hstays (Container.size_of_at? hy)
  · exact hgrows _

/-- Writing under the keys of a region that holds the position that is written. -/
theorem Describes.assignRegion (hs : s.Proper) (h : s.Describes v c) (hsmall : c.size < 2 ^ 53)
    (hm : s.contents? v = some m) (hreaches : c.reaches k = true) (hkey : key.OfKind true)
    (hk : (c.position k : Rat) ∈ key.interval) (hx : x ∈ value) :
    ∃ s', s.assignRegion v m key value = .ok s' ∧ s'.Proper ∧ s'.Describes v (c.withItem k x) := by
  have htidy := hs.tidy v m hm
  obtain ⟨ss', hwrite, hupdated⟩ := exists_written (hs.segments (Identifier.role_ne_length h.plain) hm)
    htidy hkey hk (Interval.isBottom_eq_false_of_mem hx)
  have hdescribes : ∀ s₁ : SegmentState, ((c.withItem k x).size : Rat) ∈ s₁.value v.lengthOf →
      (s₁.setContents v ⟨m.integral, some ss'⟩).Describes v (c.withItem k x) := fun s₁ hsize =>
    ⟨h.plain, Container.ofType_withItem h.ofType k x, hsize, ⟨m.integral, some ss'⟩,
      by rw [contents?_setContents, if_pos rfl], h.content_withItem hm hreaches hk hx hupdated⟩
  rw [assignRegion_of_written hwrite]
  cases c with
  | list items =>
      obtain ⟨item, htype⟩ := Container.exists_of_ofType_list h.ofType
      rw [htype]
      refine ⟨_, rfl, hs.setContents rfl hupdated.tidy, hdescribes s ?_⟩
      rw [Container.size_withItem_list]
      exact h.size
  | dict entries =>
      obtain ⟨keyType, valueType, htype, -⟩ := Container.exists_of_ofType_dict h.ofType
      have hgrown := h.mem_grown hs hsmall hm hkey.tight hk x
      have hproper := hs.setScalar (x := v.lengthOf) (Interval.isBottom_eq_false_of_mem hgrown)
      rw [htype]
      refine ⟨_, rfl, hproper.setContents rfl hupdated.tidy, hdescribes _ ?_⟩
      rcases value_setScalar_self s v.lengthOf (grown (s.value v.lengthOf) (!m.keys.overlaps key)) with
        hvalue | hvalue
      · rwa [hvalue]
      -- A length that is not kept is any from zero up.
      · rw [hvalue]
        exact Interval.mem_of.2 ⟨Bound.fin_le_fin.2 (Nat.cast_nonneg _), Bound.le_posInf _⟩

/-- Writing an item. -/
theorem Describes.assign {type : Ty} {left right : Expr} (hs : s.Proper) (h : s.Describes v c)
    (hsmall : c.size < 2 ^ 53) (hleft : evaluate s.environment left = .ok range)
    (hright : evaluate s.environment right = .ok value) (hk : (k : Rat) ∈ range) (hx : x ∈ value)
    (hreaches : c.reaches k = true) :
    ∃ s', s.assign (.item type (.var v) left) right = .ok s' ∧ s'.Proper ∧
      s'.Describes v (c.withItem k x) := by
  obtain ⟨m, hm, -⟩ := h.content
  have hregion := h.mem_keyRegion hsmall hk hreaches
  obtain ⟨s', hassign, hproper, hdescribes⟩ := h.assignRegion hs hsmall hm hreaches
    (Region.spanning_ofKind true _) (Region.mem_spanning hregion true) hx
  refine ⟨s', ?_, hproper, hdescribes⟩
  have hitem : s.assignItem v left right = .ok (some s') := by
    refine bind_eq_ok.2 ⟨range, hleft, bind_eq_ok.2 ⟨value, hright, ?_⟩⟩
    rw [Interval.isBottom_eq_false_of_mem hk, Interval.isBottom_eq_false_of_mem hx, Bool.or_self,
      if_neg Bool.false_ne_true, hm]
    dsimp only
    rw [Interval.isBottom_eq_false_of_mem hregion, if_neg Bool.false_ne_true, h.hasIntegralKeys]
    exact bind_eq_ok.2 ⟨s', hassign, rfl⟩
  rw [SegmentState.assign, if_pos h.hasLength]
  exact bind_eq_ok.2 ⟨some s', hitem, congrArg Except.ok hproper.normalized⟩

/-! ### Reading -/

/-- Reading an item finds what is stored. -/
theorem Describes.element (hs : s.Proper) (h : s.Describes v c) (hsmall : c.size < 2 ^ 53)
    (hk : (k : Rat) ∈ range) (hx : c.get? k = some x) : x ∈ s.element v range := by
  obtain ⟨m, hm, hentries⟩ := h.content
  obtain ⟨t, ht, hmem, hxt⟩ := hentries _ x hx
  have hregion := h.mem_keyRegion hsmall hk (Container.reaches_of_get? hx)
  have hsome : s.hasNone v = false := by
    rw [hasNone, decide_eq_false_iff_not]
    intro hzero
    have hupper := (Interval.mem_iff.1 h.size).2
    rw [hzero] at hupper
    have hpos := Container.size_of_at? hx
    exact absurd (Bound.fin_le_fin.1 hupper) (not_le.2 (Nat.cast_pos.2 hpos))
  have hle : (Interval.point (.fin x)).le
      (m.valuesAt (.spanning v.type.hasIntegralKeys (s.keyRegion v range))) = true :=
    SegmentMap.le_valuesAt (hs.tidy v m hm) (Region.spanning_tight _ _) (Region.mem_spanning hregion _)
      ⟨t, ht, hmem, Interval.point_le hxt⟩
  rw [SegmentState.element, hsome, if_neg Bool.false_ne_true, hm]
  dsimp only
  rw [Interval.isBottom_eq_false_of_mem hregion, if_neg Bool.false_ne_true]
  exact Interval.mem_of_le hle (Interval.mem_point.2 rfl)

/-- Writing and reading items is sound. In a proper state that describes a container, a write that succeeds on the
container succeeds on the state, for any index and value that the expressions may have; the state after it is
proper again and describes the container after it. A read finds what the container holds under any index of the
range that is read. -/
theorem items_sound (hs : s.Proper) (h : s.Describes v c) (hsmall : c.size < 2 ^ 53) :
    (∀ (type : Ty) (left right : Expr) (range value : Interval) (k : Int) (x : Rat) (c' : Container),
      evaluate s.environment left = .ok range → evaluate s.environment right = .ok value →
      (k : Rat) ∈ range → x ∈ value → c.set? k x = some c' →
      ∃ s', s.assign (.item type (.var v) left) right = .ok s' ∧ Extremal.isBottom s' = false ∧
        s'.Describes v c' ∧ s'.Proper) ∧
    ∀ (range : Interval) (k : Int) (x : Rat), (k : Rat) ∈ range → c.get? k = some x →
      x ∈ s.element v range := by
  refine ⟨fun type left right range value k x c' hleft hright hk hx hset => ?_,
    fun range k x hk hx => h.element hs hsmall hk hx⟩
  obtain ⟨hreaches, rfl⟩ := Container.set?_eq_some_iff.1 hset
  obtain ⟨s', hassign, hproper, hdescribes⟩ := h.assign hs hsmall hleft hright hk hx hreaches
  exact ⟨s', hassign, hproper.notBottom, hdescribes, hproper⟩

theorem Pair.describes : Pair.state.Describes Pair.numbers (.list [10, 20]) where
  plain := rfl
  ofType := trivial
  size := by decide +kernel
  content := by
    refine ⟨⟨true, some Pair.segments⟩, by rw [Pair.state, contents?_setContents, if_pos rfl], ?_⟩
    intro k x hx
    rw [Container.at?] at hx
    split at hx
    · rename_i hpos
      obtain ⟨hlt, hx⟩ := List.getElem?_eq_some_iff.1 hx
      have hlt : k.toNat < 2 := hlt
      obtain rfl | rfl : k = 0 ∨ k = 1 := by omega
      · obtain rfl : 10 = x := hx
        exact ⟨_, List.mem_cons_self, Interval.mem_point.2 rfl, Interval.mem_point.2 rfl⟩
      · obtain rfl : 20 = x := hx
        exact ⟨_, List.mem_cons_of_mem _ List.mem_cons_self, Interval.mem_point.2 rfl,
          Interval.mem_point.2 rfl⟩
    · cases hx

/-- The last item of a list of two is overwritten through a negative index. -/
theorem items_sound_negative :
    ∃ s', Pair.state.Proper ∧ Pair.state.Describes Pair.numbers (.list [10, 20]) ∧
      Pair.state.assign (.item .int (.var Pair.numbers) (.literal (.int (-1)))) (.literal (.int 5)) =
        .ok s' ∧ s'.Describes Pair.numbers (.list [10, 5]) ∧
      20 ∈ Pair.state.element Pair.numbers (.of (.fin (-2)) (.fin (-1))) := by
  obtain ⟨hwrite, hread⟩ := items_sound Pair.proper Pair.describes (by decide)
  obtain ⟨s', hassign, -, hdescribes, -⟩ := hwrite .int (.literal (.int (-1))) (.literal (.int 5)) _ _ (-1) 5
    (.list [10, 5]) rfl rfl (by decide +kernel) (by decide +kernel) rfl
  exact ⟨s', Pair.proper, Pair.describes, hassign, hdescribes, hread _ (-1) 20 (by decide +kernel) rfl⟩

end SegmentState

end FlowAnalysis
