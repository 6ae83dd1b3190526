import FlowAnalysis.Segment.Region

/-!
Segmented containers.

A container is described by segments: a key that lies in the region of a segment holds a value in
the segment's interval, and a key outside all segments is absent. Bottom describes no container,
no segments the empty one, and one segment of all keys and all values describes every container.

The regions of a map are pairwise disjoint and no segment is empty. Operations that cut regions
check this before they answer. A strong update overwrites a region and keeps what lies around it; a
weak one adds a possibility. Where a region cannot be cut the strong update falls back to merging.
-/
namespace FlowAnalysis

/-- A region of keys with the range of what they hold. -/
structure Segment where
  key : Region
  value : Interval
  deriving DecidableEq

namespace Segment

def isBottom (s : Segment) : Bool := s.key.isBottom || s.value.isBottom

def join (s t : Segment) : Segment := ⟨s.key.join t.key, s.value.join t.value⟩

/-- Whether the keys of a segment share one with a region. -/
def touches (key : Region) (s : Segment) : Bool := s.key.overlaps key

/-- Whether `s` lies inside `t`, keys and values. -/
def le (s t : Segment) : Bool := s.key.le t.key && s.value.le t.value

/-- The segments over some regions that all hold `value`. -/
def spread (value : Interval) (keys : List Region) : List Segment := keys.map (⟨·, value⟩)

/-- Whether no segment is empty and no two share a key. -/
def disjoint : List Segment → Bool
  | [] => true
  | s :: rest => !s.isBottom && rest.all (fun t => !s.key.overlaps t.key) && disjoint rest

/-- Adds a segment to disjoint ones: it absorbs the first that it touches, and the result is added
to the others. -/
def absorb (known : List Segment) (s : Segment) : List Segment :=
  if s.isBottom then known
  else
    match _h : known.find? (touches s.key) with
    | none => known ++ [s]
    | some t => absorb (known.eraseP (touches s.key)) (t.join s)
termination_by known.length
decreasing_by
  have hmem := List.mem_of_find?_eq_some _h
  have htouch := List.find?_some _h
  have hlen := List.length_eraseP_of_mem hmem htouch
  have hpos := List.length_pos_of_mem hmem
  omega

def absorbAll (known candidates : List Segment) : List Segment := candidates.foldl absorb known

/-- What is left of the segments outside a region, none if one cannot be cut. -/
def outside? (key : Region) : List Segment → Option (List Segment)
  | [] => some []
  | s :: rest =>
    if touches key s then do
      let pieces ← s.key.without? key
      let others ← outside? key rest
      return spread s.value pieces ++ others
    else do
      let others ← outside? key rest
      return s :: others

/-- Joins the pending segments into disjoint ones, the first of the list first. Where a pending
segment touches a known one, both are cut: the shared keys get the join of the values, the rest of
the known segment keeps its value, and the rest of the pending one is pending again. Where they
cannot be cut they are merged. -/
def refineWith : Nat → List Segment → List Segment → List Segment
  | 0, _, known => known
  | _, [], known => known
  | fuel + 1, s :: pending, known =>
    if s.isBottom then refineWith fuel pending known
    else
      match known.find? (touches s.key) with
      | none => refineWith fuel pending (known ++ [s])
      | some t =>
        let others := known.eraseP (touches s.key)
        if t.key = s.key then
          refineWith fuel pending (others ++ [⟨t.key, t.value.join s.value⟩])
        else
          match t.key.without? s.key, s.key.without? t.key with
          | some oldRest, some newRest =>
            refineWith fuel ((spread s.value newRest).reverse ++ pending)
              (others ++ spread t.value oldRest ++ [⟨t.key.meet s.key, t.value.join s.value⟩])
          | _, _ => refineWith fuel pending (absorb (others ++ [t]) s)

/-- Joins one segment into disjoint ones. Every cut uses up a known segment and leaves at most two
pieces pending, which bounds the number of steps. -/
def refine (known : List Segment) (s : Segment) : List Segment :=
  refineWith (2 * known.length + 1) [s] known

end Segment

/-- A description of a container. -/
structure SegmentMap where
  /-- Whether keys are whole numbers unless a segment says otherwise. -/
  integral : Bool
  /-- The segments, none for bottom. -/
  segments : Option (List Segment)

namespace SegmentMap

/-- Every container. -/
def full (integral : Bool) : SegmentMap := ⟨integral, some [⟨⟨.top, integral⟩, .top⟩]⟩

def empty (integral : Bool) : SegmentMap := ⟨integral, some []⟩

/-- The containers that some segments describe, overlapping ones merged. -/
def ofSegments (integral : Bool) (segments : List Segment) : SegmentMap :=
  ⟨integral, some (Segment.absorbAll [] segments)⟩

def toList (m : SegmentMap) : List Segment := m.segments.getD []

instance : Extremal SegmentMap where
  bottom m := ⟨m.integral, none⟩
  top m := full m.integral
  isBottom m := m.segments.isNone
  isTop m :=
    match m.segments with
    | some [s] => s.key.interval.isTop && s.value.isTop
    | _ => false

/-- Whether the container is known to hold nothing. -/
def isEmpty (m : SegmentMap) : Bool := m.segments.any List.isEmpty

/-- The map with other segments, which have to be disjoint. -/
def withSegments (m : SegmentMap) (segments : List Segment) : Outcome SegmentMap :=
  if Segment.disjoint segments then pure ⟨m.integral, some segments⟩
  else throw .overlappingSegments

def keys (m : SegmentMap) : Region :=
  Region.joinAll ⟨.bottom, m.integral⟩ (m.toList.map Segment.key)

def values (m : SegmentMap) : Interval := .joinAll (m.toList.map Segment.value)

/-- The join of the values under the keys of a region. -/
def valuesAt (m : SegmentMap) (key : Region) : Interval :=
  .joinAll ((m.toList.filter (Segment.touches key)).map Segment.value)

/-- Weak update: a key of the region may hold `value`; overlapping segments are merged. -/
def insert (m : SegmentMap) (key : Region) (value : Interval) : Outcome SegmentMap :=
  match m.segments with
  | none => pure m
  | some segments => m.withSegments (Segment.absorb segments ⟨key, value⟩)

/-- Strong update: every key of the region holds `value` afterwards. -/
def overwrite (m : SegmentMap) (key : Region) (value : Interval) : Outcome SegmentMap :=
  match m.segments with
  | none => pure m
  | some segments =>
    if key.isBottom || value.isBottom then pure m
    else
      match Segment.outside? key segments with
      | some kept => m.withSegments (kept ++ [⟨key, value⟩])
      | none => m.insert key value

/-- Weak update by several segments that keeps the segmentation as fine as it can. -/
def update (m : SegmentMap) (updates : List Segment) : Outcome SegmentMap :=
  match m.segments with
  | none => pure m
  | some segments => m.withSegments (updates.foldl Segment.refine segments)

/-- Whether each segment lies inside a single segment of the other map. -/
def segmentsLe (m n : SegmentMap) : Bool := m.toList.all fun s => n.toList.any s.le

/-- The segments shared by two lists of them. -/
def shared (ss ts : List Segment) : List Segment :=
  ss.flatMap fun s => ts.filterMap fun t =>
    let both : Segment := ⟨s.key.meet t.key, s.value.meet t.value⟩
    if both.isBottom then none else some both

/-- A segment widened by those it touches. -/
def widened (ts : List Segment) (s : Segment) : Segment :=
  let touched := ts.filter (Segment.touches s.key)
  ⟨s.key.widen ((s.key.joinAll (touched.map Segment.key)).join s.key),
    s.value.widen ((Interval.joinAll (touched.map Segment.value)).join s.value)⟩

/-- Segments are widened one by one. A new segment that touches no old one shows that the
segmentation itself still moves, and then all segments collapse into one over every key. -/
def widenSegments (m n : SegmentMap) : Outcome SegmentMap :=
  if n.toList.all fun t => m.toList.any (Segment.touches t.key) then
    m.withSegments (Segment.absorbAll [] (m.toList.map (widened n.toList)))
  else
    m.withSegments [⟨⟨.top, m.integral⟩, m.values.join n.values⟩]

instance : Domain SegmentMap where
  le m n := (Extremal.settledLe m n).getD (segmentsLe m n)
  join m n := (Extremal.settledJoin m n).elim
    (m.withSegments (Segment.absorbAll m.toList n.toList)) pure
  meet m n := (Extremal.settledMeet m n).elim (m.withSegments (shared m.toList n.toList)) pure
  widen m n := (Extremal.settledJoin m n).elim (widenSegments m n) pure

/-- Whether both have the same segments, in whatever order. -/
def same (m n : SegmentMap) : Bool :=
  match m.segments, n.segments with
  | none, none => true
  | some ss, some ts => ss.length == ts.length && ss.all fun s => decide (s ∈ ts)
  | _, _ => false

def text (m : SegmentMap) : String :=
  match m.segments with
  | none => "⊥"
  | some segments =>
    "\x7b" ++ ", ".intercalate (segments.map fun s => s.key.text ++ " -> " ++ s.value.text)
      ++ "\x7d"

end SegmentMap

end FlowAnalysis
