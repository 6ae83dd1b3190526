/-!
Sets that remember the order in which their members came.

A member is added at the end, adding it again changes nothing, and removing one closes the gap.
The order shows in every listing, while two sets with the same members are the same set.
-/
namespace FlowAnalysis

/-- Distinct members in the order of their first insertion. -/
structure OrderedSet (α : Type) where
  toList : List α
  nodup : toList.Nodup

namespace OrderedSet

variable {α : Type}

def empty : OrderedSet α := ⟨[], List.nodup_nil⟩

instance : Inhabited (OrderedSet α) := ⟨empty⟩

instance : Membership α (OrderedSet α) := ⟨fun s a => a ∈ s.toList⟩

def size (s : OrderedSet α) : Nat := s.toList.length

def isEmpty (s : OrderedSet α) : Bool := s.toList.isEmpty

def filter (s : OrderedSet α) (keep : α → Bool) : OrderedSet α :=
  ⟨s.toList.filter keep, s.nodup.sublist List.filter_sublist⟩

theorem mem_filter {s : OrderedSet α} {keep : α → Bool} {b : α} :
    b ∈ s.filter keep ↔ b ∈ s ∧ keep b = true := List.mem_filter

variable [DecidableEq α]

instance (a : α) (s : OrderedSet α) : Decidable (a ∈ s) :=
  inferInstanceAs (Decidable (a ∈ s.toList))

def contains (s : OrderedSet α) (a : α) : Bool := decide (a ∈ s)

/-- Adds `a` at the end, unless it is there already. -/
def insert (s : OrderedSet α) (a : α) : OrderedSet α :=
  if h : a ∈ s.toList then s
  else
    ⟨s.toList ++ [a], by
      rw [List.nodup_append]
      refine ⟨s.nodup, List.nodup_cons.2 ⟨List.not_mem_nil, List.nodup_nil⟩, ?_⟩
      intro b hb c hc hbc
      rw [List.mem_singleton.1 hc] at hbc
      exact h (hbc ▸ hb)⟩

/-- Adds the members of a list one after another. -/
def insertAll (s : OrderedSet α) (xs : List α) : OrderedSet α := xs.foldl insert s

def ofList (xs : List α) : OrderedSet α := empty.insertAll xs

def singleton (a : α) : OrderedSet α := empty.insert a

/-- The members of both, those of `s` first. -/
def union (s t : OrderedSet α) : OrderedSet α := s.insertAll t.toList

/-- Takes `a` out; the members after it move up. -/
def erase (s : OrderedSet α) (a : α) : OrderedSet α := s.filter fun b => decide (b ≠ a)

def subset (s t : OrderedSet α) : Bool := s.toList.all t.contains

/-- Whether both have the same members, in whatever order. -/
def same (s t : OrderedSet α) : Bool := s.size == t.size && s.subset t

theorem mem_insert {s : OrderedSet α} {a b : α} : b ∈ s.insert a ↔ b ∈ s ∨ b = a := by
  unfold insert
  split
  · rename_i h
    refine ⟨Or.inl, ?_⟩
    rintro (hb | rfl)
    · exact hb
    · exact h
  · change b ∈ s.toList ++ [a] ↔ b ∈ s.toList ∨ b = a
    simp

theorem mem_insertAll {s : OrderedSet α} {xs : List α} {b : α} :
    b ∈ s.insertAll xs ↔ b ∈ s ∨ b ∈ xs := by
  induction xs generalizing s with
  | nil => simp [insertAll]
  | cons x xs ih =>
      change b ∈ (s.insert x).insertAll xs ↔ _
      rw [ih, mem_insert, List.mem_cons, or_assoc]

theorem mem_ofList {xs : List α} {b : α} : b ∈ ofList xs ↔ b ∈ xs := by
  rw [ofList, mem_insertAll]
  refine ⟨?_, Or.inr⟩
  rintro (h | h)
  · exact absurd h List.not_mem_nil
  · exact h

theorem mem_erase {s : OrderedSet α} {a b : α} : b ∈ s.erase a ↔ b ∈ s ∧ b ≠ a := by
  rw [erase, mem_filter, decide_eq_true_iff]

theorem subset_eq_true_iff {s t : OrderedSet α} : s.subset t = true ↔ ∀ a ∈ s, a ∈ t := by
  simp only [subset, List.all_eq_true, contains, decide_eq_true_iff]
  exact Iff.rfl

end OrderedSet

end FlowAnalysis
