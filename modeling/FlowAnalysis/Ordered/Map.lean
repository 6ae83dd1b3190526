/-!
Maps that remember the order in which their keys came.

A new key goes to the end, a new value for an old key stays where the key is, and removing a key
closes the gap. The order shows in every listing, while equality looks at the entries alone.
-/
namespace FlowAnalysis

/-- Entries with distinct keys in the order of their first insertion. -/
structure OrderedMap (κ α : Type) where
  entries : List (κ × α)
  nodup : (entries.map Prod.fst).Nodup

namespace OrderedMap

variable {κ α β : Type}

def empty : OrderedMap κ α := ⟨[], List.nodup_nil⟩

instance : Inhabited (OrderedMap κ α) := ⟨empty⟩

def keys (m : OrderedMap κ α) : List κ := m.entries.map Prod.fst

def values (m : OrderedMap κ α) : List α := m.entries.map Prod.snd

def size (m : OrderedMap κ α) : Nat := m.entries.length

def isEmpty (m : OrderedMap κ α) : Bool := m.entries.isEmpty

/-- The entries, each with a value computed from it, where there is one. -/
def filterMap (m : OrderedMap κ α) (f : κ → α → Option β) : OrderedMap κ β :=
  ⟨m.entries.filterMap fun e => (f e.1 e.2).map fun b => (e.1, b), by
    have h : (m.entries.filterMap fun e => (f e.1 e.2).map fun b => (e.1, b)).map Prod.fst
        |>.Sublist (m.entries.map Prod.fst) := by
      generalize m.entries = entries
      induction entries with
      | nil => exact .slnil
      | cons e rest ih =>
          rw [List.filterMap_cons]
          cases h : f e.1 e.2 with
          | none => simpa [h] using ih.cons e.1
          | some b => simpa [h] using ih.cons_cons e.1
    exact m.nodup.sublist h⟩

/-- The same keys with other values. -/
def mapValues (m : OrderedMap κ α) (f : α → β) : OrderedMap κ β :=
  ⟨m.entries.map fun e => (e.1, f e.2), by
    have h : (m.entries.map fun e => (e.1, f e.2)).map Prod.fst = m.entries.map Prod.fst := by
      rw [List.map_map]
      rfl
    exact h.symm ▸ m.nodup⟩

theorem map_fst_zip_sublist (ks : List κ) (vs : List β) :
    ((ks.zip vs).map Prod.fst).Sublist ks := by
  induction ks generalizing vs with
  | nil => exact .slnil
  | cons k ks ih =>
      cases vs with
      | nil => exact List.nil_sublist _
      | cons v vs => exact (ih vs).cons_cons k

/-- The same keys with the values of a list, one for each. -/
def withValues (m : OrderedMap κ α) (vs : List β) : OrderedMap κ β :=
  ⟨m.keys.zip vs, m.nodup.sublist (map_fst_zip_sublist m.keys vs)⟩

variable [DecidableEq κ]

def get? (m : OrderedMap κ α) (k : κ) : Option α :=
  (m.entries.find? fun e => decide (e.1 = k)).map Prod.snd

def contains (m : OrderedMap κ α) (k : κ) : Bool := decide (k ∈ m.keys)

/-- The same entries with `v` in the place of every value of `k`. -/
def replaced (k : κ) (v : α) (entries : List (κ × α)) : List (κ × α) :=
  entries.map fun e => if e.1 = k then (k, v) else e

theorem map_fst_replaced (k : κ) (v : α) (entries : List (κ × α)) :
    (replaced k v entries).map Prod.fst = entries.map Prod.fst := by
  rw [replaced, List.map_map]
  apply List.map_congr_left
  intro e _
  by_cases h : e.1 = k <;> simp [h]

/-- Sets the value of `k`: in its place if there is one, else at the end. -/
def insert (m : OrderedMap κ α) (k : κ) (v : α) : OrderedMap κ α :=
  if h : k ∈ m.keys then
    ⟨replaced k v m.entries, (map_fst_replaced k v m.entries).symm ▸ m.nodup⟩
  else
    ⟨m.entries ++ [(k, v)], by
      rw [List.map_append, List.nodup_append]
      refine ⟨m.nodup, List.nodup_cons.2 ⟨List.not_mem_nil, List.nodup_nil⟩, ?_⟩
      intro a ha b hb hab
      have hk : a = k := hab.trans (List.mem_singleton.1 hb)
      exact h (hk ▸ ha)⟩

/-- Inserts the entries of a list one after another. -/
def ofList (entries : List (κ × α)) : OrderedMap κ α :=
  entries.foldl (fun m e => m.insert e.1 e.2) empty

/-- Takes `k` out; the entries after it move up. -/
def erase (m : OrderedMap κ α) (k : κ) : OrderedMap κ α :=
  ⟨m.entries.filter fun e => decide (e.1 ≠ k),
    m.nodup.sublist (List.filter_sublist.map Prod.fst)⟩

/-- Whether both have the same keys with equal values, in whatever order. -/
def same (equal : α → α → Bool) (m n : OrderedMap κ α) : Bool :=
  m.size == n.size && m.entries.all fun e => (n.get? e.1).any (equal e.2)

theorem contains_eq_true_iff {m : OrderedMap κ α} {k : κ} : m.contains k = true ↔ k ∈ m.keys :=
  decide_eq_true_iff

theorem get?_eq_none_iff {m : OrderedMap κ α} {k : κ} : m.get? k = none ↔ k ∉ m.keys := by
  rw [get?, Option.map_eq_none_iff, List.find?_eq_none, keys, List.mem_map]
  constructor
  · rintro h ⟨e, he, hk⟩
    exact h e he (decide_eq_true hk)
  · intro h e he hk
    exact h ⟨e, he, of_decide_eq_true hk⟩

/-- Setting a value keeps the keys in their places; a new key comes last. -/
theorem keys_insert (m : OrderedMap κ α) (k : κ) (v : α) :
    (m.insert k v).keys = if k ∈ m.keys then m.keys else m.keys ++ [k] := by
  by_cases h : k ∈ m.keys
  · rw [insert, dif_pos h, if_pos h]
    exact map_fst_replaced k v m.entries
  · rw [insert, dif_neg h, if_neg h]
    simp [keys]

theorem find?_replaced_self {k : κ} {v : α} {entries : List (κ × α)}
    (h : k ∈ entries.map Prod.fst) :
    (replaced k v entries).find? (fun e => decide (e.1 = k)) = some (k, v) := by
  induction entries with
  | nil => exact absurd h List.not_mem_nil
  | cons e rest ih =>
      rw [replaced, List.map_cons, ← replaced]
      by_cases hk : e.1 = k
      · simp [hk]
      · rw [if_neg hk, List.find?_cons_of_neg (by simpa using hk)]
        exact ih ((List.mem_cons.1 h).resolve_left fun heq => hk heq.symm)

theorem find?_replaced_of_ne {k a : κ} (h : a ≠ k) (v : α) (entries : List (κ × α)) :
    (replaced k v entries).find? (fun e => decide (e.1 = a)) =
      entries.find? fun e => decide (e.1 = a) := by
  induction entries with
  | nil => rfl
  | cons e rest ih =>
      rw [replaced, List.map_cons, ← replaced]
      by_cases hk : e.1 = k
      · have hka : k ≠ a := h.symm
        have hea : e.1 ≠ a := hk ▸ hka
        rw [if_pos hk, List.find?_cons_of_neg (by simpa using hka),
          List.find?_cons_of_neg (by simpa using hea), ih]
      · rw [if_neg hk, List.find?_cons, List.find?_cons, ih]

/-- A value that was set is found, and no other value changes. -/
theorem get?_insert (m : OrderedMap κ α) (k a : κ) (v : α) :
    (m.insert k v).get? a = if a = k then some v else m.get? a := by
  by_cases h : k ∈ m.keys
  · rw [insert, dif_pos h]
    by_cases ha : a = k
    · subst ha
      rw [if_pos rfl, get?, find?_replaced_self h, Option.map_some]
    · rw [if_neg ha, get?, find?_replaced_of_ne ha, get?]
  · rw [insert, dif_neg h, get?, List.find?_append, Option.map_or]
    by_cases ha : a = k
    · subst ha
      have hnone := get?_eq_none_iff.2 h
      rw [get?] at hnone
      simp [hnone]
    · have hka : ¬ k = a := fun heq => ha heq.symm
      simp [ha, hka, get?]

end OrderedMap

end FlowAnalysis
