import Mathlib.Order.Fin.Basic
import Mathlib.Order.Interval.Set.LinearOrder

/-!
# `PlatformTimeRanges`

The buffered parts of a media element: half-open ranges of times, sorted, with a gap between any
two. `add` merges a range with all ranges that overlap it or touch it, and the other operations are
built from it. Each computes what its name says on the points, but for assignment, which adds the
ranges of the other object to those that were there.

The times are any linear order with a least and a greatest element. No range holds the greatest
time; the complement is taken below it.
-/

namespace WebKit.Graphics

/-- `PlatformTimeRanges::Range`: from the start up to, but without, the end. -/
@[ext] structure TimeRange (α : Type*) where
  start : α
  stop : α
deriving DecidableEq

namespace TimeRange

variable {α : Type*} [LinearOrder α]

def isPointInRange (r : TimeRange α) (point : α) : Bool := r.start ≤ point ∧ point < r.stop

variable (r range : TimeRange α)

def isOverlappingRange : Bool :=
  r.isPointInRange range.start || r.isPointInRange range.stop || range.isPointInRange r.start

def isContiguousWithRange : Bool :=
  range.start = r.stop ∨ range.stop = r.start

def unionWithOverlappingOrContiguousRange : TimeRange α :=
  ⟨min r.start range.start, max r.stop range.stop⟩

def isBeforeRange : Bool := range.start ≥ r.stop

end TimeRange

namespace PlatformTimeRanges

open TimeRange

abbrev Ranges (α : Type*) := List (TimeRange α)

variable {α : Type*} [LinearOrder α]

/-- The loop of `add` from a range on; `previous` is the range before it. -/
def addLoop (previous : Option (TimeRange α)) (added : TimeRange α) :
    Ranges α → Ranges α
  | [] => [added]
  | range :: rest =>
    if added.isOverlappingRange range || added.isContiguousWithRange range then
      addLoop previous (added.unionWithOverlappingOrContiguousRange range) rest
    else if previous.all (·.isBeforeRange added) && added.isBeforeRange range then
      added :: range :: rest
    else range :: addLoop (some range) added rest

def add (ranges : Ranges α) (start stop : α) : Ranges α :=
  addLoop none ⟨start, stop⟩ ranges

/-- `copy`, the body of `operator=`. -/
def copy (ranges other : Ranges α) : Ranges α :=
  other.foldl (fun ranges range => add ranges range.start range.stop) ranges

def unionWith (ranges other : Ranges α) : Ranges α :=
  -- the copy constructor, then the same loop
  copy (copy [] ranges) other

variable [BoundedOrder α]

/-- `invert` behind a range that ends at `stop`. -/
def invertFrom (inverted : Ranges α) (stop : α) : Ranges α → Ranges α
  | [] => if stop ≠ ⊤ then add inverted stop ⊤ else inverted
  | range :: rest => invertFrom (add inverted stop range.start) range.stop rest

def invert : Ranges α → Ranges α
  | [] => add [] ⊥ ⊤
  | range :: rest =>
    invertFrom (if range.start ≠ ⊥ then add [] ⊥ range.start else []) range.stop rest

def intersectWith (ranges other : Ranges α) : Ranges α :=
  invert (unionWith (invert ranges) (invert (copy [] other)))

/-! ## Points -/

open List Set

omit [BoundedOrder α]

/-- The times in the ranges. -/
def points (ranges : Ranges α) : Set α := { t | ∃ r ∈ ranges, t ∈ Ico r.start r.stop }

/-- No range is empty, and there is a gap between a range and the next. -/
structure Apart (ranges : Ranges α) : Prop where
  nonempty : ∀ r ∈ ranges, r.start < r.stop
  gap : ranges.Pairwise fun r s => r.stop < s.start

variable {ranges other a b : Ranges α} {r : TimeRange α}

@[simp] theorem points_nil : points ([] : Ranges α) = ∅ := by simp [points]

theorem points_cons (r : TimeRange α) (ranges : Ranges α) :
    points (r :: ranges) = Ico r.start r.stop ∪ points ranges := by
  ext t
  simp [points]

theorem Apart.nil : Apart ([] : Ranges α) := ⟨by simp, .nil⟩

theorem apart_cons : Apart (r :: ranges) ↔
    r.start < r.stop ∧ (∀ s ∈ ranges, r.stop < s.start) ∧ Apart ranges := by
  constructor
  · rintro ⟨hne, hgap⟩
    rw [forall_mem_cons] at hne
    rw [pairwise_cons] at hgap
    exact ⟨hne.1, hgap.1, hne.2, hgap.2⟩
  · rintro ⟨hr, hgap, h⟩
    exact ⟨forall_mem_cons.mpr ⟨hr, h.nonempty⟩, pairwise_cons.mpr ⟨hgap, h.gap⟩⟩

theorem lt_of_mem_points {t u : α} (h : ∀ s ∈ ranges, t < s.start) (hu : u ∈ points ranges) :
    t < u := by
  obtain ⟨s, hs, hle, -⟩ := hu
  exact (h s hs).trans_le hle

theorem Apart.lt_start {t : α} (h : Apart ranges) (ht : ∀ u ∈ points ranges, t < u) :
    ∀ r ∈ ranges, t < r.start :=
  fun r hr => ht _ ⟨r, hr, le_rfl, h.nonempty r hr⟩

theorem Apart.eq_nil (h : Apart a) (hno : points a = ∅) : a = [] :=
  eq_nil_iff_forall_not_mem.mpr fun r hr => hno.subset ⟨r, hr, le_rfl, h.nonempty r hr⟩

/-- Apart ranges are known by their points. -/
theorem Apart.ext (ha : Apart a) (hb : Apart b) (h : points a = points b) : a = b := by
  induction a generalizing b with
  | nil => exact (hb.eq_nil (h.symm.trans points_nil)).symm
  | cons r a ih =>
    cases b with
    | nil => exact ha.eq_nil (h.trans points_nil)
    | cons s b =>
      obtain ⟨hr, hra, ha'⟩ := apart_cons.mp ha
      obtain ⟨hs, hsb, hb'⟩ := apart_cons.mp hb
      have hla : ∀ t ∈ points a, r.stop < t := fun _ => lt_of_mem_points hra
      have hlb : ∀ t ∈ points b, s.stop < t := fun _ => lt_of_mem_points hsb
      simp only [points_cons, Set.ext_iff, mem_union, mem_Ico] at h
      have hstart : r.start = s.start := by
        have := h r.start
        have := h s.start
        grind
      have hstop : r.stop = s.stop := by
        have := h r.stop
        have := h s.stop
        grind
      obtain rfl : r = s := TimeRange.ext hstart hstop
      refine congrArg (r :: ·) (ih ha' hb' (Set.ext fun t => ?_))
      have := h t
      grind

/-- The loop of `add`, behind a range that ends before all that is left. -/
theorem addLoop_spec (previous : Option (TimeRange α)) (added : TimeRange α) (h : Apart ranges)
    (hadd : added.start < added.stop) (hp : ∀ p ∈ previous, p.stop < added.start ∧
      ∀ r ∈ ranges, p.stop < r.start) :
    Apart (addLoop previous added ranges) ∧
      points (addLoop previous added ranges) = Ico added.start added.stop ∪ points ranges := by
  induction ranges generalizing previous added with
  | nil => simpa [addLoop, points_cons, apart_cons, Apart.nil] using hadd
  | cons range rest ih =>
    obtain ⟨hr, hgap, hrest⟩ := apart_cons.mp h
    rw [addLoop]
    split_ifs with hmerge hstop
    · -- the union of the two ranges has the points of both
      have hico : Ico added.start added.stop ∪ Ico range.start range.stop =
          Ico (min added.start range.start) (max added.stop range.stop) := by
        refine Ico_union_Ico' ?_ ?_ <;>
          simp [isOverlappingRange, isContiguousWithRange, isPointInRange] at hmerge <;> grind
      rw [points_cons, ← union_assoc, hico]
      exact ih previous (added.unionWithOverlappingOrContiguousRange range) hrest
        (by simp [unionWithOverlappingOrContiguousRange, hadd])
        (by simp [unionWithOverlappingOrContiguousRange]; grind)
    · simp [isBeforeRange, isContiguousWithRange] at hmerge hstop
      refine ⟨apart_cons.mpr ⟨hadd, ?_, h⟩, points_cons ..⟩
      simp
      grind
    · -- the range ends before the new one starts
      have hprev : previous.all (·.isBeforeRange added) := by
        cases previous with
        | none => rfl
        | some p => simpa [isBeforeRange] using (hp p rfl).1.le
      have hlt : range.stop < added.start := by
        rw [hprev, Bool.true_and] at hstop
        simp [isOverlappingRange, isContiguousWithRange, isPointInRange, isBeforeRange]
          at hmerge hstop
        grind
      obtain ⟨hap, hpts⟩ := ih (some range) added hrest hadd (by simpa using ⟨hlt, hgap⟩)
      refine ⟨apart_cons.mpr ⟨hr, hap.lt_start fun u hu => ?_, hap⟩, ?_⟩
      · rw [hpts] at hu
        exact hu.elim (hlt.trans_le ·.1) (lt_of_mem_points hgap)
      · rw [points_cons, points_cons, hpts, union_left_comm]

theorem Apart.add (h : Apart ranges) {start stop : α} (hlt : start < stop) :
    Apart (add ranges start stop) ∧
      points (add ranges start stop) = Ico start stop ∪ points ranges :=
  addLoop_spec none ⟨start, stop⟩ h hlt (by simp)

theorem Apart.copy (h : Apart ranges) (ho : ∀ r ∈ other, r.start < r.stop) :
    Apart (copy ranges other) ∧ points (copy ranges other) = points ranges ∪ points other := by
  induction other generalizing ranges with
  | nil => simpa [PlatformTimeRanges.copy] using h
  | cons range rest ih =>
    rw [forall_mem_cons] at ho
    obtain ⟨hap, hpts⟩ := h.add ho.1
    obtain ⟨hap', hpts'⟩ := ih hap ho.2
    refine ⟨hap', hpts'.trans ?_⟩
    rw [hpts, points_cons, union_comm (Ico _ _), union_assoc]

theorem Apart.unionWith (h : Apart a) (ho : Apart b) :
    Apart (unionWith a b) ∧ points (unionWith a b) = points a ∪ points b := by
  obtain ⟨hap, hpts⟩ := Apart.nil.copy h.nonempty
  obtain ⟨hap', hpts'⟩ := hap.copy ho.nonempty
  refine ⟨hap', hpts'.trans ?_⟩
  rw [hpts]
  simp [points]

section

variable [BoundedOrder α]

theorem lt_top_of_mem_points {t : α} (h : t ∈ points ranges) : t < ⊤ := by
  obtain ⟨r, -, -, hlt⟩ := h
  exact hlt.trans_le le_top

theorem invertFrom_spec {inverted : Ranges α} {stop : α} (h : Apart inverted)
    (hr : Apart ranges) (hlt : ∀ r ∈ ranges, stop < r.start) :
    Apart (invertFrom inverted stop ranges) ∧ points (invertFrom inverted stop ranges) =
      points inverted ∪ { t | stop ≤ t ∧ t < ⊤ ∧ t ∉ points ranges } := by
  induction ranges generalizing inverted stop with
  | nil =>
    rw [invertFrom]
    split_ifs with hstop
    · obtain ⟨hap, hpts⟩ := h.add (lt_top_iff_ne_top.mpr hstop)
      refine ⟨hap, hpts.trans ?_⟩
      rw [union_comm]
      simp [points, Set.Ico]
    · refine ⟨h, ?_⟩
      rw [not_not.mp hstop]
      ext t
      simp
  | cons range rest ih =>
    obtain ⟨hne, hgap, hrest⟩ := apart_cons.mp hr
    obtain ⟨hap, hpts⟩ := h.add (hlt range (.head _))
    obtain ⟨hap', hpts'⟩ := ih hap hrest hgap
    refine ⟨hap', hpts'.trans ?_⟩
    rw [hpts]
    ext t
    have hnot : t ∈ points rest → range.stop < t := lt_of_mem_points hgap
    have := hlt range (.head _)
    have := le_top (a := range.start)
    simp [points_cons]
    grind

variable [Nontrivial α]

theorem Apart.invert (h : Apart ranges) : Apart (invert ranges) ∧
    points (invert ranges) = { t | t < ⊤ ∧ t ∉ points ranges } := by
  cases ranges with
  | nil =>
    obtain ⟨hap, hpts⟩ := Apart.nil.add (bot_lt_top (α := α))
    refine ⟨hap, hpts.trans ?_⟩
    simp [points, Set.Ico]
  | cons range rest =>
    obtain ⟨hne, hgap, hrest⟩ := apart_cons.mp h
    rw [PlatformTimeRanges.invert]
    generalize hl : (if range.start ≠ ⊥ then _ else _) = init
    have hinit : Apart init ∧ points init = { t | t < range.start } := by
      subst hl
      split_ifs with hbot
      · obtain ⟨hap, hpts⟩ := Apart.nil.add (bot_lt_iff_ne_bot.mpr hbot)
        refine ⟨hap, hpts.trans ?_⟩
        simp [points, Set.Ico]
      · rw [not_not.mp hbot]
        simp [points, Apart.nil]
    obtain ⟨hap, hpts⟩ := invertFrom_spec hinit.1 hrest hgap
    refine ⟨hap, hpts.trans ?_⟩
    rw [hinit.2]
    ext t
    have hnot : t ∈ points rest → range.stop < t := lt_of_mem_points hgap
    have := le_top (a := range.start)
    simp [points_cons]
    grind

theorem Apart.intersectWith (h : Apart a) (ho : Apart b) :
    Apart (intersectWith a b) ∧ points (intersectWith a b) = points a ∩ points b := by
  obtain ⟨hcop, hpc⟩ := Apart.nil.copy ho.nonempty
  obtain ⟨hu, hpu⟩ := h.invert.1.unionWith hcop.invert.1
  refine ⟨hu.invert.1, hu.invert.2.trans ?_⟩
  rw [hpu, h.invert.2, hcop.invert.2, hpc]
  ext t
  have htop : t ∈ points a → t < ⊤ := lt_top_of_mem_points
  simp
  grind

/-- The objects that the operations make. -/
inductive Built : Ranges α → Prop
  | empty : Built []
  | add {a : Ranges α} {start stop : α} (ha : Built a) (hlt : start < stop) :
      Built (add a start stop)
  | unionWith {a b : Ranges α} (ha : Built a) (hb : Built b) : Built (unionWith a b)
  | intersectWith {a b : Ranges α} (ha : Built a) (hb : Built b) : Built (intersectWith a b)
  | invert {a : Ranges α} (ha : Built a) : Built (invert a)
  | assign {a b : Ranges α} (ha : Built a) (hb : Built b) : Built (copy a b)

theorem Built.apart (h : Built a) : Apart a := by
  induction h with
  | empty => exact .nil
  | add _ hlt ih => exact (ih.add hlt).1
  | unionWith _ _ iha ihb => exact (iha.unionWith ihb).1
  | intersectWith _ _ iha ihb => exact (iha.intersectWith ihb).1
  | invert _ ih => exact ih.invert.1
  | assign _ _ iha ihb => exact (iha.copy ihb.nonempty).1

/-- **Interval algebra.** The ranges stay sorted and apart, and the operations are those of the
point sets; an assignment makes a copy exactly if the other object has all points of this one. -/
theorem timeRanges_algebra (ha : Built a) (hb : Built b) :
    Apart a ∧
    (∀ start stop, start < stop → points (add a start stop) = Ico start stop ∪ points a) ∧
    points (unionWith a b) = points a ∪ points b ∧
    points (intersectWith a b) = points a ∩ points b ∧
    points (invert a) = { t | t < ⊤ ∧ t ∉ points a } ∧
    points (copy [] a) = points a ∧
    (points (copy a b) = points b ↔ points a ⊆ points b) ∧
    invert (invert a) = a ∧
    intersectWith a b = intersectWith b a := by
  have ha := ha.apart
  have hb := hb.apart
  refine ⟨ha, fun _ _ hlt => (ha.add hlt).2, (ha.unionWith hb).2, (ha.intersectWith hb).2,
    ha.invert.2, ?_, ?_, ?_, ?_⟩
  · rw [(Apart.nil.copy ha.nonempty).2, points_nil, empty_union]
  · rw [(ha.copy hb.nonempty).2, union_eq_right]
  · refine ha.invert.1.invert.1.ext ha ?_
    rw [ha.invert.1.invert.2, ha.invert.2]
    ext t
    have htop : t ∈ points a → t < ⊤ := lt_top_of_mem_points
    simp
    grind
  · refine (ha.intersectWith hb).1.ext (hb.intersectWith ha).1 ?_
    rw [(ha.intersectWith hb).2, (hb.intersectWith ha).2, inter_comm]

/-- Of four times, the first and the last are the infinities. -/
theorem timeRanges_algebra_four :
    points (unionWith (add [] 0 1) (add [] 2 3)) =
      points (add [] 0 1) ∪ points (add [] (2 : Fin 4) 3) :=
  (timeRanges_algebra (Built.empty.add (by decide)) (Built.empty.add (by decide))).2.2.1

/-- An assignment keeps the range that was there. -/
theorem assigned_not_copied :
    Built (add [] (0 : Fin 4) 1) ∧ Built (add [] (2 : Fin 4) 3) ∧
      points (copy (add [] 0 1) (add [] 2 3)) ≠ points (add [] (2 : Fin 4) 3) := by
  refine ⟨Built.empty.add (by decide), Built.empty.add (by decide), fun h => ?_⟩
  have hmem : (0 : Fin 4) ∈ points (add [] (2 : Fin 4) 3) :=
    h ▸ ⟨⟨0, 1⟩, by decide, by decide, by decide⟩
  simp [add, addLoop, points_cons] at hmem

end

end PlatformTimeRanges

end WebKit.Graphics
