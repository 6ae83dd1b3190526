import FlowAnalysis.Proofs.Segment.Widening
import FlowAnalysis.Proofs.Store

/-!
Lattices of stores. Where the elements that an identifier may have form a lattice, so do the stores of
such elements over the same identifiers. A bottom store is below every other, whatever its remaining
entries are; any other store is below those that are above it entry by entry.
-/

namespace FlowAnalysis

namespace Domain

variable {α : Type} [Domain α]

/-- `c` is above `a` and `b`, and below whatever else among the elements with `P` is above both. -/
structure LeastAbove (P : α → Prop) (a b c : α) : Prop where
  left : le a c = true
  right : le b c = true
  least : ∀ d, P d → le a d = true → le b d = true → le c d = true

/-- `c` is below `a` and `b`, and above whatever else among the elements with `P` is below both. -/
structure GreatestBelow (P : α → Prop) (a b c : α) : Prop where
  left : le c a = true
  right : le c b = true
  greatest : ∀ d, P d → le d a = true → le d b = true → le d c = true

/-- The elements with `P` form a lattice, and widening goes above the join. Elements that are below
each other need not be equal: it is enough that both are bottom or neither, and so for top. -/
structure LatticeOn (P : α → Prop) : Prop where
  exclusive : ∀ {a}, P a → Extremal.isBottom a = true → Extremal.isTop a = false
  bottom_le : ∀ {a b}, P a → P b → Extremal.isBottom a = true → le a b = true
  le_top : ∀ {a b}, P a → P b → Extremal.isTop b = true → le a b = true
  le_refl : ∀ {a}, P a → le a a = true
  le_trans : ∀ {a b c}, P a → P b → P c → le a b = true → le b c = true → le a c = true
  le_antisymm : ∀ {a b}, P a → P b → le a b = true → le b a = true →
    Extremal.isBottom a = Extremal.isBottom b ∧ Extremal.isTop a = Extremal.isTop b
  join : ∀ {a b}, P a → P b → Answers (fun c => P c ∧ LeastAbove P a b c) (Domain.join a b)
  meet : ∀ {a b}, P a → P b → Answers (fun c => P c ∧ GreatestBelow P a b c) (Domain.meet a b)
  widen : ∀ {a b}, P a → P b →
    Answers (fun c => P c ∧ ∀ j, Domain.join a b = .ok j → le j c = true) (Domain.widen a b)

namespace LatticeOn

variable {P : α → Prop} {a b : α}

/-- Nothing but bottom is below bottom. -/
theorem isBottom_of_le (h : LatticeOn P) (ha : P a) (hb : P b) (hle : le a b = true)
    (hbottom : Extremal.isBottom b = true) : Extremal.isBottom a = true := by
  rw [(h.le_antisymm ha hb hle (h.bottom_le hb ha hbottom)).1, hbottom]

/-- Nothing but top is above top. -/
theorem isTop_of_le (h : LatticeOn P) (ha : P a) (hb : P b) (hle : le a b = true)
    (htop : Extremal.isTop a = true) : Extremal.isTop b = true := by
  rw [← (h.le_antisymm ha hb hle (h.le_top hb ha htop)).2, htop]

end LatticeOn

end Domain

namespace Store

variable {α : Type} {identifiers : List Identifier} {P : Identifier → α → Prop} {s t u : Store α}

theorem Fits.get? (ht : Fits identifiers P t) (hs : Fits identifiers P s) {x : Identifier} {a : α}
    (ha : s.get? x = some a) : ∃ b, t.get? x = some b := by
  have hx : x ∈ s.keys := OrderedMap.mem_keys_iff.2 ⟨a, ha⟩
  rw [hs.keys_eq, ← ht.keys_eq] at hx
  exact OrderedMap.mem_keys_iff.1 hx

/-- `u` has the identifiers of `s`, in their order, and under each of them what `f` makes of the entries
of `s` and `t`. -/
structure Entrywise (f : α → α → Outcome α) (s t u : Store α) : Prop where
  keys_eq : u.keys = s.keys
  entry : ∀ x a b, s.get? x = some a → t.get? x = some b → ∃ c, u.get? x = some c ∧ f a b = .ok c

theorem combine_entrywise {f : α → α → Outcome α} (h : combine f s t = .ok u) :
    Entrywise f s t u := by
  refine ⟨(combine_keys h).2, fun x a b ha hb => ?_⟩
  obtain ⟨b', c, hb', hc, hf⟩ := combine_get? h ha
  obtain rfl : b' = b := Option.some.inj (hb'.symm.trans hb)
  exact ⟨c, hc, hf⟩

/-- Stores over the same identifiers are combined if their entries can be, and what holds of entries and
their combination holds throughout. -/
theorem Fits.combined {f : α → α → Outcome α} {R : Identifier → α → α → α → Prop}
    (hs : Fits identifiers P s) (ht : Fits identifiers P t)
    (hf : ∀ x a b, P x a → P x b → Answers (fun c => P x c ∧ R x a b c) (f a b)) :
    Answers (fun u => Fits identifiers P u ∧ ∀ x a b c, s.get? x = some a → t.get? x = some b →
      u.get? x = some c → R x a b c) (Store.combine f s t) := by
  obtain ⟨u, hu, hfits⟩ := hs.combine ht fun x a b ha hb => (hf x a b ha hb).mono fun _ h => h.1
  refine ⟨u, hu, hfits, fun x a b c ha hb hc => ?_⟩
  obtain ⟨c', hc', hc''⟩ := (combine_entrywise hu).entry x a b ha hb
  obtain rfl : c' = c := Option.some.inj (hc'.symm.trans hc)
  exact ((hf x a b (hs.entry x a ha) (ht.entry x b hb)).result hc'').2

variable [Domain α]

def EntriesLe (s t : Store α) : Prop :=
  ∀ x a b, s.get? x = some a → t.get? x = some b → Domain.le a b = true

theorem pointwiseLe_iff_entriesLe (hs : Fits identifiers P s) (ht : Fits identifiers P t) :
    pointwiseLe s t = true ↔ EntriesLe s t := by
  rw [pointwiseLe_iff]
  constructor
  · intro h x a b ha hb
    obtain ⟨b', hb', hle⟩ := h x a ha
    rwa [Option.some.inj (hb.symm.trans hb')]
  · intro h x a ha
    obtain ⟨b, hb⟩ := ht.get? hs ha
    exact ⟨b, hb, h x a b ha hb⟩

section Order

variable (laws : ∀ x, Domain.LatticeOn (P x)) (hs : Fits identifiers P s)
  (ht : Fits identifiers P t)

include laws hs

theorem Fits.exclusive (h : Extremal.isBottom s = true) : Extremal.isTop s = false := by
  obtain ⟨x, a, ha, -, hbottom⟩ := isBottom_iff.1 h
  rw [Bool.eq_false_iff]
  intro htop
  have htop' := isTop_iff.1 htop x a ha
  rw [(laws x).exclusive (hs.entry x a ha) hbottom] at htop'
  cases htop'

include ht

/-- A store that is above a bottom one entry by entry may be anything, but below one there is only
bottom: the entry that makes the greater store bottom has a bottom entry below it. -/
theorem EntriesLe.isBottom (hle : EntriesLe s t) (h : Extremal.isBottom t = true) :
    Extremal.isBottom s = true := by
  obtain ⟨x, b, hb, hrole, hbottom⟩ := isBottom_iff.1 h
  obtain ⟨a, ha⟩ := hs.get? ht hb
  exact isBottom_iff.2 ⟨x, a, ha, hrole,
    (laws x).isBottom_of_le (hs.entry x a ha) (ht.entry x b hb) (hle x a b ha hb) hbottom⟩

theorem EntriesLe.isTop (hle : EntriesLe s t) (h : Extremal.isTop s = true) :
    Extremal.isTop t = true := by
  rw [isTop_iff] at h ⊢
  intro x b hb
  obtain ⟨a, ha⟩ := hs.get? ht hb
  exact (laws x).isTop_of_le (hs.entry x a ha) (ht.entry x b hb) (hle x a b ha hb) (h x a ha)

theorem entriesLe_of_isTop (h : Extremal.isTop t = true) : EntriesLe s t := fun x a b ha hb =>
  (laws x).le_top (hs.entry x a ha) (ht.entry x b hb) (isTop_iff.1 h x b hb)

/-- Bottom is below everything, and besides that the order is that of the entries: what top settles is
so entry by entry. -/
theorem le_iff_entriesLe :
    Domain.le s t = true ↔ Extremal.isBottom s = true ∨ EntriesLe s t := by
  change (Extremal.settledLe s t).getD (pointwiseLe s t) = true ↔ _
  rw [Extremal.settledLe_getD_iff, pointwiseLe_iff_entriesLe hs ht]
  constructor
  · rintro (hbottom | htop | ⟨-, -, hle⟩)
    · exact Or.inl hbottom
    · exact Or.inr (entriesLe_of_isTop laws hs ht htop)
    · exact Or.inr hle
  · rintro (hbottom | hle)
    · exact Or.inl hbottom
    · by_cases hbottom : Extremal.isBottom t = true
      · exact Or.inl (hle.isBottom laws hs ht hbottom)
      · by_cases htop : Extremal.isTop s = true
        · exact Or.inr (Or.inl (hle.isTop laws hs ht htop))
        · exact Or.inr (Or.inr ⟨Bool.eq_false_iff.2 hbottom, Bool.eq_false_iff.2 htop, hle⟩)

end Order

section Laws

variable (laws : ∀ x, Domain.LatticeOn (P x))

include laws

theorem Fits.le_refl (hs : Fits identifiers P s) : Domain.le s s = true := by
  refine (le_iff_entriesLe laws hs hs).2 (Or.inr fun x a b ha hb => ?_)
  obtain rfl : a = b := Option.some.inj (ha.symm.trans hb)
  exact (laws x).le_refl (hs.entry x a ha)

theorem Fits.le_trans (hs : Fits identifiers P s) (ht : Fits identifiers P t)
    (hu : Fits identifiers P u) (hst : Domain.le s t = true) (htu : Domain.le t u = true) :
    Domain.le s u = true := by
  rw [le_iff_entriesLe laws hs hu]
  rcases (le_iff_entriesLe laws hs ht).1 hst with hbottom | hst
  · exact Or.inl hbottom
  · rcases (le_iff_entriesLe laws ht hu).1 htu with hbottom | htu
    · exact Or.inl (hst.isBottom laws hs ht hbottom)
    · refine Or.inr fun x a c ha hc => ?_
      obtain ⟨b, hb⟩ := ht.get? hs ha
      exact (laws x).le_trans (hs.entry x a ha) (ht.entry x b hb) (hu.entry x c hc)
        (hst x a b ha hb) (htu x b c hb hc)

theorem Fits.le_antisymm (hs : Fits identifiers P s) (ht : Fits identifiers P t)
    (hst : Domain.le s t = true) (hts : Domain.le t s = true) :
    Extremal.isBottom s = Extremal.isBottom t ∧ Extremal.isTop s = Extremal.isTop t := by
  have hle : ∀ {s t : Store α}, Fits identifiers P s → Fits identifiers P t →
      Domain.le s t = true → (Extremal.isBottom t = true → Extremal.isBottom s = true) ∧
        (Extremal.isTop s = true → Extremal.isTop t = true) := by
    intro s t hs ht hle
    rcases (le_iff_entriesLe laws hs ht).1 hle with hbottom | hle
    · exact ⟨fun _ => hbottom, fun htop => by simp [hs.exclusive laws hbottom] at htop⟩
    · exact ⟨hle.isBottom laws hs ht, hle.isTop laws hs ht⟩
  obtain ⟨hbottom, htop⟩ := hle hs ht hst
  obtain ⟨hbottom', htop'⟩ := hle ht hs hts
  exact ⟨Bool.eq_iff_iff.2 ⟨hbottom', hbottom⟩, Bool.eq_iff_iff.2 ⟨htop, htop'⟩⟩

theorem Fits.bottom_le (hs : Fits identifiers P s) (ht : Fits identifiers P t)
    (h : Extremal.isBottom s = true) : Domain.le s t = true :=
  (le_iff_entriesLe laws hs ht).2 (Or.inl h)

theorem Fits.le_top (hs : Fits identifiers P s) (ht : Fits identifiers P t)
    (h : Extremal.isTop t = true) : Domain.le s t = true :=
  (le_iff_entriesLe laws hs ht).2 (Or.inr (entriesLe_of_isTop laws hs ht h))

/-- What bottom or top settles like a join is the store that is above the other one. -/
theorem Fits.settledJoin (hs : Fits identifiers P s) (ht : Fits identifiers P t)
    (h : Extremal.settledJoin s t = some u) :
    Fits identifiers P u ∧ Domain.LeastAbove (Fits identifiers P) s t u := by
  rcases Extremal.settledJoin_eq_some h with ⟨rfl, hset⟩ | ⟨rfl, hset⟩
  · have hle := hset.elim (ht.bottom_le laws hs) (ht.le_top laws hs)
    exact ⟨hs, hs.le_refl laws, hle, fun _ _ hd _ => hd⟩
  · have hle := hset.elim (hs.bottom_le laws ht) (hs.le_top laws ht)
    exact ⟨ht, hle, ht.le_refl laws, fun _ _ _ hd => hd⟩

/-- Joins of proper stores are least: whatever is above both stores is above them entry by entry. -/
theorem Fits.join (hs : Fits identifiers P s) (ht : Fits identifiers P t) :
    Answers (fun u => Fits identifiers P u ∧ Domain.LeastAbove (Fits identifiers P) s t u)
      (Domain.join s t) := by
  change Answers _ ((Extremal.settledJoin s t).elim (Store.combine Domain.join s t) pure)
  cases hsettled : Extremal.settledJoin s t with
  | some u => exact .pure (hs.settledJoin laws ht hsettled)
  | none =>
      obtain ⟨⟨hsproper, -⟩, htproper, -⟩ := Extremal.settledJoin_eq_none hsettled
      refine (hs.combined (R := fun x => Domain.LeastAbove (P x)) ht
        fun x _ _ => (laws x).join).mono ?_
      rintro u ⟨hu, hlub⟩
      refine ⟨hu, ?_, ?_, ?_⟩
      · refine (le_iff_entriesLe laws hs hu).2 (Or.inr fun x a c ha hc => ?_)
        obtain ⟨b, hb⟩ := ht.get? hs ha
        exact (hlub x a b c ha hb hc).left
      · refine (le_iff_entriesLe laws ht hu).2 (Or.inr fun x b c hb hc => ?_)
        obtain ⟨a, ha⟩ := hs.get? ht hb
        exact (hlub x a b c ha hb hc).right
      · intro d hd hsd htd
        have hsd := ((le_iff_entriesLe laws hs hd).1 hsd).resolve_left (by simp [hsproper])
        have htd := ((le_iff_entriesLe laws ht hd).1 htd).resolve_left (by simp [htproper])
        refine (le_iff_entriesLe laws hu hd).2 (Or.inr fun x c e hc he => ?_)
        obtain ⟨a, ha⟩ := hs.get? hu hc
        obtain ⟨b, hb⟩ := ht.get? hu hc
        exact (hlub x a b c ha hb hc).least e (hd.entry x e he) (hsd x a e ha he) (htd x b e hb he)

/-- Meets of proper stores are greatest: a store below both is bottom or below them entry by entry. -/
theorem Fits.meet (hs : Fits identifiers P s) (ht : Fits identifiers P t) :
    Answers (fun u => Fits identifiers P u ∧ Domain.GreatestBelow (Fits identifiers P) s t u)
      (Domain.meet s t) := by
  change Answers _ ((Extremal.settledMeet s t).elim (Store.combine Domain.meet s t) pure)
  cases hsettled : Extremal.settledMeet s t with
  | some u =>
      refine .pure ?_
      rcases Extremal.settledMeet_eq_some hsettled with ⟨rfl, hset⟩ | ⟨rfl, hset⟩
      · have hle := hset.elim (hs.le_top laws ht) (hs.bottom_le laws ht)
        exact ⟨hs, hs.le_refl laws, hle, fun _ _ hd _ => hd⟩
      · have hle := hset.elim (ht.le_top laws hs) (ht.bottom_le laws hs)
        exact ⟨ht, hle, ht.le_refl laws, fun _ _ _ hd => hd⟩
  | none =>
      refine (hs.combined (R := fun x => Domain.GreatestBelow (P x)) ht
        fun x _ _ => (laws x).meet).mono ?_
      rintro u ⟨hu, hglb⟩
      refine ⟨hu, ?_, ?_, ?_⟩
      · refine (le_iff_entriesLe laws hu hs).2 (Or.inr fun x c a hc ha => ?_)
        obtain ⟨b, hb⟩ := ht.get? hs ha
        exact (hglb x a b c ha hb hc).left
      · refine (le_iff_entriesLe laws hu ht).2 (Or.inr fun x c b hc hb => ?_)
        obtain ⟨a, ha⟩ := hs.get? ht hb
        exact (hglb x a b c ha hb hc).right
      · intro d hd hds hdt
        rw [le_iff_entriesLe laws hd hs] at hds
        rw [le_iff_entriesLe laws hd ht] at hdt
        rw [le_iff_entriesLe laws hd hu]
        by_cases hbottom : Extremal.isBottom d = true
        · exact Or.inl hbottom
        · have hds := hds.resolve_left hbottom
          have hdt := hdt.resolve_left hbottom
          refine Or.inr fun x e c he hc => ?_
          obtain ⟨a, ha⟩ := hs.get? hu hc
          obtain ⟨b, hb⟩ := ht.get? hu hc
          exact (hglb x a b c ha hb hc).greatest e (hd.entry x e he) (hds x e a he ha)
            (hdt x e b he hb)

/-- Bottom and top settle a widening as they settle the join; otherwise it is above it entry by entry. -/
theorem Fits.widen (hs : Fits identifiers P s) (ht : Fits identifiers P t) :
    Answers (fun u => Fits identifiers P u ∧ ∀ j, Domain.join s t = .ok j → Domain.le j u = true)
      (Domain.widen s t) := by
  change Answers (fun u => Fits identifiers P u ∧
    ∀ j, (Extremal.settledJoin s t).elim (Store.combine Domain.join s t) pure = .ok j →
      Domain.le j u = true) ((Extremal.settledJoin s t).elim (Store.combine Domain.widen s t) pure)
  cases hsettled : Extremal.settledJoin s t with
  | some u =>
      have hu := (hs.settledJoin laws ht hsettled).1
      refine .pure ⟨hu, fun j hj => ?_⟩
      obtain rfl := pure_eq_ok.1 hj
      exact hu.le_refl laws
  | none =>
      refine (hs.combined (R := fun _ a b c => ∀ j, Domain.join a b = .ok j → Domain.le j c = true) ht
        fun x _ _ => (laws x).widen).mono ?_
      rintro u ⟨hu, habove⟩
      refine ⟨hu, fun j hj => ?_⟩
      have hfits : Fits identifiers P j :=
        (hs.combine ht fun x _ _ ha hb => ((laws x).join ha hb).mono fun _ h => h.1).result hj
      refine (le_iff_entriesLe laws hfits hu).2 (Or.inr fun x c d hc hd => ?_)
      obtain ⟨a, ha⟩ := hs.get? hu hd
      obtain ⟨b, hb⟩ := ht.get? hu hd
      obtain ⟨c', hc', hjoin⟩ := (combine_entrywise hj).entry x a b ha hb
      obtain rfl : c' = c := Option.some.inj (hc'.symm.trans hc)
      exact habove x a b d ha hb hd c' hjoin

/-- Stores over the same identifiers form a lattice if the elements under each identifier do. -/
theorem latticeOn : Domain.LatticeOn (Fits identifiers P) where
  exclusive hs := hs.exclusive laws
  bottom_le hs ht := hs.bottom_le laws ht
  le_top hs ht := hs.le_top laws ht
  le_refl hs := hs.le_refl laws
  le_trans hs ht hu := hs.le_trans laws ht hu
  le_antisymm hs ht := hs.le_antisymm laws ht
  join hs ht := hs.join laws ht
  meet hs ht := hs.meet laws ht
  widen hs ht := hs.widen laws ht

end Laws

end Store

/-! ### Lattices of elements -/

theorem Interval.latticeOn : Domain.LatticeOn fun _ : Interval => True where
  exclusive _ := Interval.extremes.exclusive
  bottom_le _ _ := Interval.le_of_isBottom
  le_top _ _ := Interval.le_of_isTop
  le_refl {a} _ := Interval.le_refl a
  le_trans _ _ _ := Interval.le_trans
  le_antisymm _ _ hab hba := by
    obtain rfl := Interval.le_antisymm hab hba
    exact ⟨rfl, rfl⟩
  join {a b} _ _ :=
    .pure ⟨trivial, Interval.le_join_left a b, Interval.le_join_right a b, fun _ _ => Interval.join_le⟩
  meet {a b} _ _ :=
    .pure ⟨trivial, Interval.meet_le_left a b, Interval.meet_le_right a b, fun _ _ => Interval.le_meet⟩
  widen {a b} _ _ := by
    refine .pure ⟨trivial, fun j hj => ?_⟩
    obtain rfl := pure_eq_ok.1 hj
    exact Interval.join_le (Interval.le_widen_left a b) (Interval.le_widen_right a b)

namespace SegmentMap

variable {m n : SegmentMap}

theorem exclusive (h : Extremal.isBottom m = true) : Extremal.isTop m = false := by
  rw [Bool.eq_false_iff]
  intro htop
  obtain ⟨s, hsegments, -, -⟩ := isTop_iff.1 htop
  change m.segments.isNone = true at h
  simp [hsegments] at h

theorem extremes_of_le (h : Domain.le m n = true) :
    (Extremal.isBottom n = true → Extremal.isBottom m = true) ∧
      (Extremal.isTop m = true → Extremal.isTop n = true) := by
  change (Extremal.settledLe m n).getD (segmentsLe m n) = true at h
  rcases Extremal.settledLe_getD_iff.1 h with hbottom | htop | ⟨hbottom, htop, -⟩
  · exact ⟨fun _ => hbottom, fun htop => by simp [exclusive hbottom] at htop⟩
  · exact ⟨fun hbottom => by simp [exclusive hbottom] at htop, fun _ => htop⟩
  · exact ⟨fun hbottom' => by simp [hbottom] at hbottom', fun htop' => by simp [htop] at htop'⟩

theorem latticeOn (k : Bool) : Domain.LatticeOn fun m : SegmentMap => m.WellFormed k where
  exclusive _ := exclusive
  bottom_le hm hn := Partitioned.le_of_isBottom (x := ⟨_, hm⟩) (y := ⟨_, hn⟩)
  le_top hm hn := Partitioned.le_of_isTop (x := ⟨_, hm⟩) (y := ⟨_, hn⟩)
  le_refl {m} hm := Preorder.le_refl (α := Partitioned k) ⟨m, hm⟩
  le_trans {l m n} hl hm hn := Preorder.le_trans (α := Partitioned k) ⟨l, hl⟩ ⟨m, hm⟩ ⟨n, hn⟩
  le_antisymm _ _ hmn hnm :=
    ⟨Bool.eq_iff_iff.2 ⟨(extremes_of_le hnm).1, (extremes_of_le hmn).1⟩,
      Bool.eq_iff_iff.2 ⟨(extremes_of_le hmn).2, (extremes_of_le hnm).2⟩⟩
  join hm hn := by
    obtain ⟨j, hjoin, hlub⟩ := Partitioned.exists_join ⟨_, hm⟩ ⟨_, hn⟩
    obtain ⟨⟨hleft, hright⟩, hleast⟩ := isLUB_pair_iff.1 hlub
    exact ⟨j.1, hjoin, j.2, hleft, hright, fun d hd => hleast ⟨d, hd⟩⟩
  meet hm hn := by
    obtain ⟨l, hmeet, hglb⟩ := Partitioned.exists_meet ⟨_, hm⟩ ⟨_, hn⟩
    obtain ⟨⟨hleft, hright⟩, hgreatest⟩ := (isLUB_pair_iff (α := (Partitioned k)ᵒᵈ)).1 hglb
    exact ⟨l.1, hmeet, l.2, hleft, hright, fun d hd => hgreatest ⟨d, hd⟩⟩
  widen hm hn := by
    obtain ⟨w, hwiden, hmw, hnw⟩ := Partitioned.exists_widen ⟨_, hm⟩ ⟨_, hn⟩
    obtain ⟨j, hjoin, hlub⟩ := Partitioned.exists_join ⟨_, hm⟩ ⟨_, hn⟩
    refine ⟨w.1, hwiden, w.2, fun j' hj' => ?_⟩
    obtain rfl : j.1 = j' := Except.ok.inj (hjoin.symm.trans hj')
    exact (isLUB_pair_iff.1 hlub).2 w hmw hnw

end SegmentMap

/-! ### Lattices of stores -/

namespace Store

/-- If under each identifier the elements with `P` form a lattice, so do the stores of such elements
over given identifiers, with these identifiers in their order. A store is below another if it is
bottom or below it entry by entry, and operations that neither bottom nor top settle are those on the
entries. -/
theorem lattice_entrywise {α : Type} [Domain α] (identifiers : List Identifier)
    (P : Identifier → α → Prop) (laws : ∀ x, Domain.LatticeOn (P x)) :
    Domain.LatticeOn (Fits identifiers P) ∧
    ∀ s t : Store α, Fits identifiers P s → Fits identifiers P t →
      (Domain.le s t = true ↔ Extremal.isBottom s = true ∨ EntriesLe s t) ∧
      (Extremal.settledJoin s t = none →
        Answers (Entrywise Domain.join s t) (Domain.join s t) ∧
        Answers (Entrywise Domain.widen s t) (Domain.widen s t)) ∧
      (Extremal.settledMeet s t = none →
        Answers (Entrywise Domain.meet s t) (Domain.meet s t)) := by
  refine ⟨latticeOn laws, fun s t hs ht => ⟨le_iff_entriesLe laws hs ht, ?_, ?_⟩⟩
  · intro hsettled
    obtain ⟨j, hjoin, -⟩ := hs.join laws ht
    obtain ⟨w, hwiden, -⟩ := hs.widen laws ht
    refine ⟨⟨j, hjoin, combine_entrywise ?_⟩, ⟨w, hwiden, combine_entrywise ?_⟩⟩
    · change (Extremal.settledJoin s t).elim _ _ = _ at hjoin
      rwa [hsettled] at hjoin
    · change (Extremal.settledJoin s t).elim _ _ = _ at hwiden
      rwa [hsettled] at hwiden
  · intro hsettled
    obtain ⟨m, hmeet, -⟩ := hs.meet laws ht
    refine ⟨m, hmeet, combine_entrywise ?_⟩
    change (Extremal.settledMeet s t).elim _ _ = _ at hmeet
    rwa [hsettled] at hmeet

/-- A length that no number fits does not make a store bottom, and the join takes the other length. The
meet is bottom for want of a number for the variable. -/
theorem lattice_entrywise_length :
    let x : Identifier := ⟨"x", .int, .variable⟩
    let n : Identifier := ⟨"l", .int, .length⟩
    let s : Store Interval := .ofIdentifiers [x, n] fun y => if y = x then .of 0 1 else .bottom
    let t : Store Interval := .ofIdentifiers [x, n] fun y => if y = x then .of 3 4 else .point 2
    Extremal.isBottom s = false ∧
    (∃ j, Domain.join s t = .ok j ∧ j.entries = [(x, .of 0 4), (n, .point 2)] ∧
      Domain.LeastAbove (Fits [x, n] fun _ _ => True) s t j) ∧
    (∃ m, Domain.meet s t = .ok m ∧ m.entries = [(x, .bottom), (n, .bottom)] ∧
      Domain.GreatestBelow (Fits [x, n] fun _ _ => True) s t m) ∧
    Domain.LatticeOn (Fits [⟨"l", .list .int, .variable⟩] fun _ m => SegmentMap.WellFormed true m) := by
  intro x n s t
  have hs : Fits [x, n] (fun _ _ => True) s := ⟨by decide +kernel, fun _ _ _ => trivial⟩
  have ht : Fits [x, n] (fun _ _ => True) t := ⟨by decide +kernel, fun _ _ _ => trivial⟩
  obtain ⟨hlattice, -⟩ := lattice_entrywise [x, n] (fun _ _ => True) fun _ => Interval.latticeOn
  obtain ⟨hsegments, -⟩ := lattice_entrywise [⟨"l", .list .int, .variable⟩]
    (fun _ m => SegmentMap.WellFormed true m) fun _ => SegmentMap.latticeOn true
  obtain ⟨j, hjoin, -, hlub⟩ := hlattice.join hs ht
  obtain ⟨m, hmeet, -, hglb⟩ := hlattice.meet hs ht
  have hj : (Domain.join s t).toOption.map OrderedMap.entries = some [(x, .of 0 4), (n, .point 2)] := by
    decide +kernel
  have hm : (Domain.meet s t).toOption.map OrderedMap.entries = some [(x, .bottom), (n, .bottom)] := by
    decide +kernel
  rw [hjoin] at hj
  rw [hmeet] at hm
  exact ⟨by decide +kernel, ⟨j, hjoin, Option.some.inj hj, hlub⟩, ⟨m, hmeet, Option.some.inj hm, hglb⟩,
    hsegments⟩

end Store

end FlowAnalysis
