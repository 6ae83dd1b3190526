import FlowAnalysis.Proofs.Segment.Mixed

/-!
Merging makes the least cover. Of all partitions inside whose segments some given ones lie, the one that comes
from merging whatever overlaps, chain after chain, lies inside every other. Being the least it depends on nothing
but the segments that are merged: not on their order, and not on which of them were there before the others.
-/

namespace FlowAnalysis.Segment

open Region (OfKind)

variable {k : Bool} {known known' candidates candidates' ss ts : List Segment}

/-- Each segment of the first list that is not empty lies inside one of the second, keys and values. -/
def CoveredBy (ss ts : List Segment) : Prop := ∀ s ∈ ss, s.isBottom = false → ∃ t ∈ ts, s.le t = true

theorem CoveredBy.within (h : CoveredBy ss ts) (hproper : ∀ s ∈ ss, s.isBottom = false) : Within ss ts :=
  fun s hs => h s hs (hproper s hs)

theorem coveredBy_append :
    CoveredBy (known ++ candidates) ts ↔ CoveredBy known ts ∧ CoveredBy candidates ts :=
  List.forall_mem_append

/-- What is covered is known from the segments that are not empty. -/
theorem CoveredBy.congr (h : CoveredBy ss ts) (hsame : ∀ s ∈ known, s.isBottom = false → s ∈ ss) :
    CoveredBy known ts :=
  fun s hs hproper => h s (hsame s hs hproper) hproper

theorem Partition.perm (h : Partition k known) (hperm : known.Perm known') : Partition k known' :=
  (h.tidy.perm hperm).partition fun s hs => h.ofKind s (hperm.mem_iff.2 hs)

section Merged

variable (hknown : Partition k known) (hcandidates : ∀ s ∈ candidates, s.key.OfKind k)

include hknown hcandidates

theorem coveredBy_absorbAll : CoveredBy (known ++ candidates) (absorbAll known candidates) := by
  obtain ⟨hmine, htheirs⟩ := hknown.tidy.within_absorbAll fun s hs => (hcandidates s hs).tight
  exact coveredBy_append.2 ⟨fun s hs _ => hmine s hs, htheirs⟩

/-- Segments that overlap lie inside the same segment of a partition, and then so does what they are merged
into. -/
theorem absorbAll_within_of_coveredBy (hts : Partition k ts) (h : CoveredBy (known ++ candidates) ts) :
    Within (absorbAll known candidates) ts := by
  obtain ⟨hmine, htheirs⟩ := coveredBy_append.1 h
  apply hts.tidy.absorbAll_within hknown.tidy
  · exact fun s hs => (hcandidates s hs).tight
  · exact hmine.within hknown.tidy.proper
  · exact htheirs

/-- Two least covers of the same segments lie inside each other. -/
theorem absorbAll_perm (hknown' : Partition k known') (hcandidates' : ∀ s ∈ candidates', s.key.OfKind k)
    (hsame : ∀ s, s.isBottom = false → (s ∈ known ++ candidates ↔ s ∈ known' ++ candidates')) :
    (absorbAll known candidates).Perm (absorbAll known' candidates') := by
  have hpartition := hknown.absorbAll hcandidates
  have hpartition' := hknown'.absorbAll hcandidates'
  apply hpartition.perm_of_within hpartition'
  · apply absorbAll_within_of_coveredBy hknown hcandidates hpartition'
    exact (coveredBy_absorbAll hknown' hcandidates').congr fun s hs hproper => (hsame s hproper).1 hs
  · apply absorbAll_within_of_coveredBy hknown' hcandidates' hpartition
    exact (coveredBy_absorbAll hknown hcandidates).congr fun s hs hproper => (hsame s hproper).2 hs

/-- Merging candidates into a partition ends with the least partition that covers both: its segments are not
empty and share no key, each input that is not empty lies inside one of them, and each of them lies inside a
segment of any other partition that covers the inputs. So neither the order of the known segments nor that of the
candidates shows in it. -/
theorem absorbAll_least_cover :
    Partition k (absorbAll known candidates) ∧
    CoveredBy (known ++ candidates) (absorbAll known candidates) ∧
    (∀ ts, Partition k ts → CoveredBy (known ++ candidates) ts → Within (absorbAll known candidates) ts) ∧
    ∀ known' candidates', known.Perm known' → candidates.Perm candidates' →
      (absorbAll known candidates).Perm (absorbAll known' candidates') := by
  refine ⟨hknown.absorbAll hcandidates, coveredBy_absorbAll hknown hcandidates,
    fun ts hts h => absorbAll_within_of_coveredBy hknown hcandidates hts h, ?_⟩
  intro known' candidates' hperm hperm'
  apply absorbAll_perm hknown hcandidates (hknown.perm hperm)
  · exact fun s hs => hcandidates s (hperm'.mem_iff.2 hs)
  · exact fun s _ => (hperm.append hperm').mem_iff

end Merged

/-- Two segments, one that touches both, one that is apart from them and one without a value. -/
theorem absorbAll_least_cover_chain :
    let known : List Segment := [⟨⟨.of 0 2, true⟩, .point 1⟩, ⟨⟨.of 5 6, true⟩, .point 2⟩]
    let candidates : List Segment :=
      [⟨⟨.of 2 5, true⟩, .point 3⟩, ⟨⟨.of 9 9, true⟩, .point 0⟩, ⟨⟨.of 6 9, true⟩, .bottom⟩]
    let merged : List Segment := [⟨⟨.of 0 6, true⟩, .of 1 3⟩, ⟨⟨.of 9 9, true⟩, .point 0⟩]
    Partition true known ∧ (∀ s ∈ candidates, s.key.OfKind true) ∧ absorbAll known candidates = merged ∧
    (∀ ts, Partition true ts → CoveredBy (known ++ candidates) ts → Within merged ts) ∧
    (absorbAll known.reverse candidates.reverse).Perm merged := by
  intro known candidates merged
  have hkinds : ∀ s ∈ known, s.key.OfKind true :=
    List.forall_mem_cons.2 ⟨Region.of_ofKind 0 2, List.forall_mem_singleton.2 (Region.of_ofKind 5 6)⟩
  have hcandidates : ∀ s ∈ candidates, s.key.OfKind true :=
    List.forall_mem_cons.2 ⟨Region.of_ofKind 2 5, List.forall_mem_cons.2
      ⟨Region.of_ofKind 9 9, List.forall_mem_singleton.2 (Region.of_ofKind 6 9)⟩⟩
  have hknown : Partition true known := partition_iff.2 ⟨hkinds, by decide +kernel⟩
  have hmerged : absorbAll known candidates = merged := by decide +kernel
  obtain ⟨-, -, hleast, hperm⟩ := absorbAll_least_cover hknown hcandidates
  rw [hmerged] at hleast hperm
  exact ⟨hknown, hcandidates, hmerged, hleast,
    (hperm _ _ known.reverse_perm.symm candidates.reverse_perm.symm).symm⟩

end FlowAnalysis.Segment
