import WebKit.Lib.Vectors
import WebKit.Lib.PartitionRefinement
import Mathlib.Data.Fintype.Card
import Mathlib.Data.List.NodupEquivFin

/-!
# `Partition` of the automaton minimizer

A partition of the numbers below a size. All elements stand in one vector, the elements of a set
one after another; two more vectors map an element to its position and to its set. Marking an
element swaps it to the front of its set; refining splits every set that has both marked and
unmarked elements, and gives the smaller part a new index.
-/

namespace WebKit.ContentExtensions

open Vectors PartitionRefinement List Equiv

structure SetDescriptor where
  start : Nat := 0
  size : Nat := 0
  markedCount : Nat := 0
deriving DecidableEq, Inhabited

variable (d : SetDescriptor)

def SetDescriptor.indexAfterMarkedElements : Nat := d.start + d.markedCount

/-- `SetDescriptor::end`. -/
def SetDescriptor.stop : Nat := d.start + d.size

structure Partition where
  sets : List SetDescriptor := []
  partitionedElements : List Nat := []
  elementPositionInPartitionedNodes : List Nat := []
  elementToSetMap : List Nat := []
  setsMarkedInCurrentGeneration : List Nat := []
deriving DecidableEq

namespace Partition

/-- `m_sets[setIndex]`. -/
def descriptor (p : Partition) (setIndex : Nat) : SetDescriptor := p.sets.getD setIndex {}

/-- `m_partitionedElements[position]`. -/
def element (p : Partition) (position : Nat) : Nat := p.partitionedElements.getD position 0

/-- `m_elementPositionInPartitionedNodes[elementIndex]`. -/
def position (p : Partition) (elementIndex : Nat) : Nat :=
  p.elementPositionInPartitionedNodes.getD elementIndex 0

def setIndex (p : Partition) (elementIndex : Nat) : Nat := p.elementToSetMap.getD elementIndex 0

def initializePartition (size : Nat) : Partition :=
  if size = 0 then {}
  else
    { sets := [⟨0, size, 0⟩]
      partitionedElements := List.range size
      elementPositionInPartitionedNodes := List.range size
      elementToSetMap := List.replicate size 0 }

def reserveUninitializedCapacity (p : Partition) (elementCount : Nat) : Partition :=
  { p with
    partitionedElements := List.replicate elementCount 0
    elementPositionInPartitionedNodes := List.replicate elementCount 0
    elementToSetMap := List.replicate elementCount 0 }

def addSetUnchecked (p : Partition) (start size : Nat) : Partition :=
  { p with sets := p.sets ++ [⟨start, size, 0⟩] }

def setElementUnchecked (p : Partition) (elementIndex positionInPartition setIndex : Nat) :
    Partition :=
  { p with
    partitionedElements := p.partitionedElements.set positionInPartition elementIndex
    elementPositionInPartitionedNodes :=
      p.elementPositionInPartitionedNodes.set elementIndex positionInPartition
    elementToSetMap := p.elementToSetMap.set elementIndex setIndex }

def startOffsetOfSet (p : Partition) (setIndex : Nat) : Nat := (p.descriptor setIndex).start

/-- The element is swapped with the first one of its set that is not marked. -/
def markElementInCurrentGeneration (p : Partition) (elementIndex : Nat) : Partition :=
  let setIndex := p.setIndex elementIndex
  let setDescriptor := p.descriptor setIndex
  let elementPosition := p.position elementIndex
  let firstUnmarkedPosition := setDescriptor.indexAfterMarkedElements
  let firstUnmarkedElement := p.element firstUnmarkedPosition
  { p with
    partitionedElements := (p.partitionedElements.set firstUnmarkedPosition elementIndex).set
      elementPosition firstUnmarkedElement
    elementPositionInPartitionedNodes :=
      (p.elementPositionInPartitionedNodes.set elementIndex firstUnmarkedPosition).set
        firstUnmarkedElement elementPosition
    setsMarkedInCurrentGeneration :=
      if setDescriptor.markedCount = 0 then p.setsMarkedInCurrentGeneration ++ [setIndex]
      else p.setsMarkedInCurrentGeneration
    sets := p.sets.set setIndex
      { setDescriptor with markedCount := setDescriptor.markedCount + 1 } }

/-- The elements that `Partition::iterateSet` visits. -/
def iterateSet (p : Partition) (setIndex : Nat) : List Nat :=
  slice p.partitionedElements (p.descriptor setIndex).start (p.descriptor setIndex).size

def firstElementInSet (p : Partition) (setIndex : Nat) : Nat :=
  p.element (p.descriptor setIndex).start

/-- The descriptors of the part that keeps the index and of the new one. -/
def splitDescriptor : SetDescriptor × SetDescriptor :=
  if d.markedCount * 2 ≤ d.size then
    (⟨d.start + d.markedCount, d.size - d.markedCount, 0⟩, ⟨d.start, d.markedCount, 0⟩)
  else
    (⟨d.start, d.size - (d.size - d.markedCount), 0⟩,
      ⟨d.start + d.markedCount, d.size - d.markedCount, 0⟩)

/-- The branch of `refineGeneration` for a set whose elements are all marked. -/
def unmarkSet (p : Partition) (setIndex : Nat) : Partition :=
  { p with sets := p.sets.set setIndex { p.descriptor setIndex with markedCount := 0 } }

/-- The branch of `refineGeneration` for a set that is split. -/
def splitSet (p : Partition) (setIndex : Nat) : Partition :=
  let parts := splitDescriptor (p.descriptor setIndex)
  { p with
    sets := p.sets.set setIndex parts.1 ++ [parts.2]
    elementToSetMap := (slice p.partitionedElements parts.2.start parts.2.size).foldl
      (fun map element => map.set element p.sets.length) p.elementToSetMap }

/-- One iteration of `refineGeneration`: the new partition, and the index of the new set if there is
one. -/
def refineSet (p : Partition) (setIndex : Nat) : Partition × Option Nat :=
  if (p.descriptor setIndex).markedCount = (p.descriptor setIndex).size then
    (p.unmarkSet setIndex, none)
  else
    (p.splitSet setIndex, some p.sets.length)

/-- The function that is called on new sets works on a state of its own. -/
def refineGeneration {σ : Type} (function : Partition → Nat → σ → σ) (p : Partition)
    (state : σ) : Partition × σ :=
  let result := p.setsMarkedInCurrentGeneration.foldl
    (fun (q : Partition × σ) setIndex =>
      match q.1.refineSet setIndex with
      | (refined, none) => (refined, q.2)
      | (refined, some newSetIndex) => (refined, function refined newSetIndex q.2))
    (p, state)
  ({ result.1 with setsMarkedInCurrentGeneration := [] }, result.2)

/-! ## The invariant -/

/-- The element has been marked in the current generation. -/
def Marked (p : Partition) (x : Nat) : Prop :=
  p.position x < (p.descriptor (p.setIndex x)).indexAfterMarkedElements

/-- The vectors describe a partition of the numbers below `n`; the sets in `pending` have marks. -/
structure Inv (p : Partition) (n : Nat) (pending : List Nat) : Prop where
  elements_length : p.partitionedElements.length = n
  positions_length : p.elementPositionInPartitionedNodes.length = n
  map_length : p.elementToSetMap.length = n
  element_lt : ∀ i, i < n → p.element i < n
  position_lt : ∀ x, x < n → p.position x < n
  element_position : ∀ x, x < n → p.element (p.position x) = x
  position_element : ∀ i, i < n → p.position (p.element i) = i
  setIndex_lt : ∀ x, x < n → p.setIndex x < p.sets.length
  start_le : ∀ x, x < n → (p.descriptor (p.setIndex x)).start ≤ p.position x
  lt_stop : ∀ x, x < n → p.position x < (p.descriptor (p.setIndex x)).stop
  stop_le : ∀ s, s < p.sets.length → (p.descriptor s).stop ≤ n
  owner : ∀ s, s < p.sets.length → ∀ i, (p.descriptor s).start ≤ i → i < (p.descriptor s).stop →
    p.setIndex (p.element i) = s
  nonempty : ∀ s, s < p.sets.length → 0 < (p.descriptor s).size
  marked_le : ∀ s, s < p.sets.length → (p.descriptor s).markedCount ≤ (p.descriptor s).size
  pending_iff : ∀ s, s ∈ pending ↔ s < p.sets.length ∧ 0 < (p.descriptor s).markedCount
  pending_nodup : pending.Nodup

variable {p : Partition} {n s : Nat} {pending : List Nat}

section

variable (h : Inv p n pending)

include h

theorem Inv.mem_slice {sta size : Nat} (hst : sta + size ≤ n) (x : Nat) :
    x ∈ slice p.partitionedElements sta size ↔
      x < n ∧ sta ≤ p.position x ∧ p.position x < sta + size := by
  have hg : ∀ i < n, (p.partitionedElements[i]? = some x ↔ p.element i = x) := by
    intro i hi
    rw [getElem?_eq_getElem (by rw [h.elements_length]; exact hi)]
    unfold element
    rw [getD_eq_getElem _ _ (by rw [h.elements_length]; exact hi), Option.some.injEq]
  rw [mem_slice_iff]
  constructor
  · rintro ⟨i, hs, hi, hx⟩
    have hin : i < n := hi.trans_le hst
    obtain rfl := (hg i hin).mp hx
    rw [h.position_element i hin]
    exact ⟨h.element_lt i hin, hs, hi⟩
  · rintro ⟨hx, hs, hi⟩
    exact ⟨p.position x, hs, hi, (hg _ (h.position_lt x hx)).mpr (h.element_position x hx)⟩

theorem Inv.setIndex_eq_iff {x : Nat} (hs : s < p.sets.length) (hx : x < n) :
    p.setIndex x = s ↔
      (p.descriptor s).start ≤ p.position x ∧ p.position x < (p.descriptor s).stop := by
  constructor
  · rintro rfl
    exact ⟨h.start_le x hx, h.lt_stop x hx⟩
  · rintro ⟨hsta, hst⟩
    have := h.owner s hs _ hsta hst
    rwa [h.element_position x hx] at this

/-- A set has the elements with its index. -/
theorem Inv.mem_iterateSet (hs : s < p.sets.length) (x : Nat) :
    x ∈ p.iterateSet s ↔ x < n ∧ p.setIndex x = s := by
  unfold iterateSet
  rw [h.mem_slice (h.stop_le s hs)]
  exact and_congr_right fun hx => (h.setIndex_eq_iff hs hx).symm

theorem Inv.nodup_elements : p.partitionedElements.Nodup := by
  rw [nodup_iff_injective_getElem]
  intro i j hij
  have hg : ∀ k : Fin p.partitionedElements.length, p.position (p.partitionedElements[k]) = k := by
    intro k
    have hk : k < n := by
      rw [← h.elements_length]
      exact k.isLt
    have := h.position_element k hk
    unfold element at this
    rwa [getD_eq_getElem _ _ k.isLt] at this
  have hij : p.partitionedElements[i] = p.partitionedElements[j] := hij
  exact Fin.ext (by rw [← hg i, ← hg j, hij])

theorem Inv.nodup_iterateSet (s : Nat) : (p.iterateSet s).Nodup :=
  h.nodup_elements.sublist (slice_sublist _ _ _)

theorem Inv.firstElementInSet_spec (hs : s < p.sets.length) :
    p.firstElementInSet s < n ∧ p.setIndex (p.firstElementInSet s) = s := by
  have hp := h.nonempty s hs
  have hst := h.stop_le s hs
  have hlt : (p.descriptor s).start < (p.descriptor s).stop := Nat.lt_add_of_pos_right hp
  exact ⟨h.element_lt _ (hlt.trans_le hst), h.owner s hs _ le_rfl hlt⟩

theorem Inv.sets_length_le : p.sets.length ≤ n := by
  have hinj : Function.Injective (fun s : Fin p.sets.length =>
      (⟨p.firstElementInSet s, (h.firstElementInSet_spec s.isLt).1⟩ : Fin n)) := by
    intro s t hst
    have hst : p.firstElementInSet s = p.firstElementInSet t := Fin.mk.inj_iff.mp hst
    have hs := (h.firstElementInSet_spec s.isLt).2
    have ht := (h.firstElementInSet_spec t.isLt).2
    exact Fin.ext (by rw [← hs, ← ht, hst])
  simpa using Fintype.card_le_of_injective _ hinj

end

/-! ## Marking -/

section Mark

variable {p : Partition} {n : Nat} {x : Nat}

/-- What marking reads: the set of the element, and the first unmarked position. -/
structure Markable (p : Partition) (n x : Nat) : Prop where
  lt : x < n
  set_lt : p.setIndex x < p.sets.length
  first_le : (p.descriptor (p.setIndex x)).indexAfterMarkedElements ≤ p.position x
  first_lt : (p.descriptor (p.setIndex x)).indexAfterMarkedElements < n
  other_lt : p.element (p.descriptor (p.setIndex x)).indexAfterMarkedElements < n
  other_set : p.setIndex (p.element (p.descriptor (p.setIndex x)).indexAfterMarkedElements) =
    p.setIndex x

variable {pending : List Nat}

theorem Inv.markable (h : Inv p n pending) (hx : x < n) (hunm : ¬ p.Marked x) : Markable p n x := by
  have hs := h.setIndex_lt x hx
  have hle : (p.descriptor (p.setIndex x)).indexAfterMarkedElements ≤ p.position x := not_lt.mp hunm
  have hst := h.lt_stop x hx
  have hlt : (p.descriptor (p.setIndex x)).indexAfterMarkedElements < n :=
    hle.trans_lt (h.position_lt x hx)
  exact ⟨hx, hs, hle, hlt, h.element_lt _ hlt,
    h.owner _ hs _ (Nat.le_add_right _ _) (hle.trans_lt hst)⟩

/-- Only the count of the marked elements of one set differs. -/
structure Recounted (p q : Partition) (s count : Nat) : Prop where
  sets_length : q.sets.length = p.sets.length
  setIndex : ∀ x, q.setIndex x = p.setIndex x
  start : ∀ t, (q.descriptor t).start = (p.descriptor t).start
  size : ∀ t, (q.descriptor t).size = (p.descriptor t).size
  markedCount : ∀ t, (q.descriptor t).markedCount =
    if t = s then count else (p.descriptor t).markedCount

theorem Recounted.of_set {q : Partition} {s count : Nat} (hs : s < p.sets.length)
    (hst : q.sets = p.sets.set s { p.descriptor s with markedCount := count })
    (hmap : q.elementToSetMap = p.elementToSetMap) : Recounted p q s count := by
  have hds : ∀ t, q.descriptor t =
      if t = s then { p.descriptor s with markedCount := count } else p.descriptor t := by
    intro t
    rw [descriptor, hst, getD_set_of_lt hs]
    rfl
  refine ⟨by rw [hst, length_set], fun x => by simp [Partition.setIndex, hmap], ?_, ?_, ?_⟩
  all_goals
    intro t
    rw [hds t]
    split_ifs with ht <;> simp [ht]

theorem Recounted.stop {q : Partition} {s cnt : Nat} (h : Recounted p q s cnt) (t : Nat) :
    (q.descriptor t).stop = (p.descriptor t).stop := by
  simp [SetDescriptor.stop, h.start, h.size]

/-- The first position of an element's set that is not marked. -/
abbrev firstUnmarked (p : Partition) (x : Nat) : Nat :=
  (p.descriptor (p.setIndex x)).indexAfterMarkedElements

theorem mark_recounted (hm : Markable p n x) :
    Recounted p (p.markElementInCurrentGeneration x) (p.setIndex x)
      ((p.descriptor (p.setIndex x)).markedCount + 1) := .of_set hm.set_lt rfl rfl

theorem Inv.position_eq_iff (h : Inv p n pending) {y i : Nat} (hy : y < n) (hi : i < n) :
    p.position y = i ↔ y = p.element i := by
  constructor
  · rintro rfl
    exact (h.element_position y hy).symm
  · rintro rfl
    exact h.position_element i hi

section

variable (h : Inv p n pending) (hm : Markable p n x)

include h hm

theorem mark_element (i : Nat) : (p.markElementInCurrentGeneration x).element i =
      p.element (swap (p.firstUnmarked x) (p.position x) i) := by
  have hl := h.elements_length
  have hp := h.position_lt x hm.lt
  show ((p.partitionedElements.set _ x).set (p.position x) _).getD i 0 = _
  rw [getD_set_of_lt (by rw [length_set]; omega),
    getD_set_of_lt (by rw [hl]; exact hm.first_lt), swap_apply_def]
  have hx := h.element_position x hm.lt
  split_ifs <;> simp_all [element]

theorem mark_position {y : Nat} (hy : y < n) : (p.markElementInCurrentGeneration x).position y =
      swap (p.firstUnmarked x) (p.position x) (p.position y) := by
  have hl := h.positions_length
  have hoth := hm.other_lt
  show ((p.elementPositionInPartitionedNodes.set x _).set _ _).getD y 0 = _
  rw [getD_set_of_lt (by rw [length_set]; omega),
    getD_set_of_lt (by rw [hl]; exact hm.lt), swap_apply_def]
  simp only [h.position_eq_iff hy hm.first_lt, h.position_eq_iff hy (h.position_lt x hm.lt),
    h.element_position x hm.lt]
  rfl

theorem Inv.first_mem_iff {t : Nat} (ht : t < p.sets.length) :
    ((p.descriptor t).start ≤ p.firstUnmarked x ∧ p.firstUnmarked x < (p.descriptor t).stop) ↔
      ((p.descriptor t).start ≤ p.position x ∧ p.position x < (p.descriptor t).stop) := by
  have hfst := h.position_element _ hm.first_lt
  rw [← h.setIndex_eq_iff ht hm.lt, ← hm.other_set, h.setIndex_eq_iff ht hm.other_lt, hfst]

end

theorem swap_mem_iff {a b sta stop : Nat}
    (hab : (sta ≤ a ∧ a < stop) ↔ (sta ≤ b ∧ b < stop)) (i : Nat) :
    (sta ≤ swap a b i ∧ swap a b i < stop) ↔ (sta ≤ i ∧ i < stop) := by
  rw [swap_apply_def]
  split_ifs with ha hb
  · rw [ha, hab]
  · rw [hb, hab]
  · rfl

/-- Marking adds one marked element. -/
theorem mark_marked (h : Inv p n pending) (hm : Markable p n x) {y : Nat} (hy : y < n) :
    (p.markElementInCurrentGeneration x).Marked y ↔ p.Marked y ∨ y = x := by
  have hr := mark_recounted hm
  have hyx : y = x ↔ p.position y = p.position x := by
    rw [h.position_eq_iff hy (h.position_lt x hm.lt), h.element_position x hm.lt]
  have hle := hm.first_le
  unfold Marked SetDescriptor.indexAfterMarkedElements
  rw [mark_position h hm hy, hr.setIndex, hr.start, hr.markedCount]
  by_cases hs : p.setIndex y = p.setIndex x
  · rw [if_pos hs, hs, hyx, swap_apply_def]
    unfold firstUnmarked SetDescriptor.indexAfterMarkedElements at *
    split_ifs <;> omega
  -- another set: nothing changes there
  have hfst : p.position y ≠ p.firstUnmarked x := by
    rw [Ne, h.position_eq_iff hy hm.first_lt]
    exact fun heq => hs (by rw [heq, hm.other_set])
  have hne : y ≠ x := fun heq => hs (by rw [heq])
  rw [if_neg hs, swap_apply_of_ne_of_ne hfst (fun heq => hne (hyx.mpr heq)), or_iff_left hne]

/-- **Marking.** The partition stays as it is, and one more element is marked. -/
theorem Inv.mark (h : Inv p n p.setsMarkedInCurrentGeneration) (hm : Markable p n x) :
    Inv (p.markElementInCurrentGeneration x) n
      (p.markElementInCurrentGeneration x).setsMarkedInCurrentGeneration := by
  have hr := mark_recounted hm
  have hps := h.position_lt x hm.lt
  have hlt : ∀ i, swap (p.firstUnmarked x) (p.position x) i < n ↔ i < n := by
    simpa using @swap_mem_iff (p.firstUnmarked x) (p.position x) 0 n (by simp [hm.first_lt, hps])
  have hp := fun y (hy : y < n) =>
    (swap_mem_iff (h.first_mem_iff hm (h.setIndex_lt y hy)) (p.position y)).mpr
      ⟨h.start_le y hy, h.lt_stop y hy⟩
  refine ⟨?_, ?_, h.map_length, ?_, ?_, ?_, ?_, ?_, ?_, ?_, ?_, ?_, ?_, ?_, ?_, ?_⟩
  · simp [markElementInCurrentGeneration, h.elements_length]
  · simp [markElementInCurrentGeneration, h.positions_length]
  · intro i hi
    rw [mark_element h hm]
    exact h.element_lt _ ((hlt i).mpr hi)
  · intro y hy
    rw [mark_position h hm hy]
    exact (hlt _).mpr (h.position_lt y hy)
  · intro y hy
    rw [mark_position h hm hy, mark_element h hm, swap_apply_self, h.element_position y hy]
  · intro i hi
    have hi' := (hlt i).mpr hi
    rw [mark_element h hm, mark_position h hm (h.element_lt _ hi'), h.position_element _ hi',
      swap_apply_self]
  · simpa [hr.setIndex, hr.sets_length] using h.setIndex_lt
  · intro y hy
    rw [hr.setIndex, hr.start, mark_position h hm hy]
    exact (hp y hy).1
  · intro y hy
    rw [hr.setIndex, hr.stop, mark_position h hm hy]
    exact (hp y hy).2
  · simpa [hr.stop, hr.sets_length] using h.stop_le
  · intro t ht i hi hi'
    rw [hr.sets_length] at ht
    rw [hr.start] at hi
    rw [hr.stop] at hi'
    have hin := (swap_mem_iff (h.first_mem_iff hm ht) i).mpr ⟨hi, hi'⟩
    rw [hr.setIndex, mark_element h hm]
    exact h.owner t ht _ hin.1 hin.2
  · simpa [hr.size, hr.sets_length] using h.nonempty
  · intro t ht
    rw [hr.sets_length] at ht
    rw [hr.size, hr.markedCount]
    split_ifs with heq
    · -- the element itself is one that is not marked
      have hle := hm.first_le
      have hst := h.lt_stop x hm.lt
      unfold SetDescriptor.indexAfterMarkedElements at hle
      unfold SetDescriptor.stop at hst
      rw [heq]
      omega
    · exact h.marked_le t ht
  · intro t
    have hiff := h.pending_iff t
    rw [hr.sets_length, hr.markedCount]
    by_cases ht : t = p.setIndex x
    · subst ht
      by_cases hz : (p.descriptor (p.setIndex x)).markedCount = 0
      · simp [markElementInCurrentGeneration, hz, hm.set_lt]
      · simp [markElementInCurrentGeneration, hz, hm.set_lt, hiff, Nat.pos_of_ne_zero hz]
    · rw [if_neg ht, ← hiff]
      simp only [markElementInCurrentGeneration]
      split_ifs <;> simp [ht]
  · have hiff := h.pending_iff (p.setIndex x)
    simp only [markElementInCurrentGeneration]
    split_ifs with hz
    · rw [nodup_append]
      refine ⟨h.pending_nodup, pairwise_singleton _ _, ?_⟩
      rintro a ha b hb rfl
      rw [mem_singleton.mp hb] at ha
      exact absurd (hiff.mp ha).2 (by omega)
    · exact h.pending_nodup

/-- The elements of a list are marked one after the other. -/
theorem Inv.markAll (xs : List Nat) (hnd : xs.Nodup) (hlt : ∀ y ∈ xs, y < n)
    (h : Inv p n p.setsMarkedInCurrentGeneration) (hunm : ∀ y ∈ xs, ¬ p.Marked y) :
    let q := xs.foldl markElementInCurrentGeneration p
    Inv q n q.setsMarkedInCurrentGeneration ∧ (∀ y, q.setIndex y = p.setIndex y) ∧
      q.sets.length = p.sets.length ∧ ∀ y < n, (q.Marked y ↔ p.Marked y ∨ y ∈ xs) := by
  induction xs generalizing p with
  | nil => exact ⟨h, fun _ => rfl, rfl, fun y _ => by simp⟩
  | cons z rest ih =>
    obtain ⟨hz, hrest⟩ := nodup_cons.mp hnd
    have hm := h.markable (hlt z mem_cons_self) (hunm z mem_cons_self)
    have hmkd : ∀ y < n, ((p.markElementInCurrentGeneration z).Marked y ↔
        p.Marked y ∨ y = z) := fun y hy => mark_marked h hm hy
    obtain ⟨h', hs, hl, hmkd'⟩ :=
      ih hrest (fun y hy => hlt y (mem_cons_of_mem z hy)) (h.mark hm) (by
        intro y hy hym
        rcases (hmkd y (hlt y (mem_cons_of_mem z hy))).mp hym with hym | rfl
        · exact hunm y (mem_cons_of_mem z hy) hym
        · exact hz hy)
    refine ⟨h', hs, hl.trans (mark_recounted hm).sets_length, ?_⟩
    intro y hy
    rw [foldl_cons, hmkd' y hy, hmkd y hy, or_assoc, mem_cons]

end Mark

/-! ## Refining -/

section Refine

variable {p : Partition} {n : Nat}

/-- One part has the marked positions, the other one the rest. -/
theorem splitDescriptor_spec (hp : 0 < d.markedCount) (hlt : d.markedCount < d.size) :
    ∃ marked : Bool,
      (∀ i, ((splitDescriptor d).2.start ≤ i ∧ i < (splitDescriptor d).2.stop) ↔
        (d.start ≤ i ∧ i < d.stop) ∧ (i < d.indexAfterMarkedElements ↔ marked = true)) ∧
      (∀ i, ((splitDescriptor d).1.start ≤ i ∧ i < (splitDescriptor d).1.stop) ↔
        (d.start ≤ i ∧ i < d.stop) ∧ ¬ (i < d.indexAfterMarkedElements ↔ marked = true)) ∧
      (splitDescriptor d).1.stop ≤ d.stop ∧ (splitDescriptor d).2.stop ≤ d.stop ∧
      0 < (splitDescriptor d).1.size ∧ 0 < (splitDescriptor d).2.size ∧
      (splitDescriptor d).1.markedCount = 0 ∧ (splitDescriptor d).2.markedCount = 0 := by
  unfold splitDescriptor SetDescriptor.stop SetDescriptor.indexAfterMarkedElements
  by_cases hhl : d.markedCount * 2 ≤ d.size
  · refine ⟨true, ?_⟩
    rw [if_pos hhl]
    simp only [iff_true]
    refine ⟨fun i => ?_, fun i => ?_, ?_, ?_, ?_, hp, trivial, trivial⟩ <;> omega
  · refine ⟨false, ?_⟩
    rw [if_neg hhl]
    simp only [Bool.false_eq_true, iff_false]
    refine ⟨fun i => ?_, fun i => ?_, ?_, ?_, ?_, ?_, trivial, trivial⟩ <;> omega

/-- A set has been split by a property: the elements on one side have moved to a new set. -/
structure Split (n : Nat) (p p' : Partition) (s : Nat) (property : Nat → Prop) (side : Bool) :
    Prop where
  set_lt : s < p.sets.length
  sets_length : p'.sets.length = p.sets.length + 1
  moved : ∀ x, x < n → p.setIndex x = s → (property x ↔ side = true) →
    p'.setIndex x = p.sets.length
  kept : ∀ x, x < n → ¬ (p.setIndex x = s ∧ (property x ↔ side = true)) →
    p'.setIndex x = p.setIndex x

@[simp] theorem unmarkSet_element (p : Partition) (s : Nat) :
    (p.unmarkSet s).element = p.element := rfl

@[simp] theorem unmarkSet_position (p : Partition) (s : Nat) :
    (p.unmarkSet s).position = p.position := rfl

@[simp] theorem unmarkSet_setIndex (p : Partition) (s : Nat) :
    (p.unmarkSet s).setIndex = p.setIndex := rfl

theorem unmarkSet_recounted {s : Nat} (hs : s < p.sets.length) :
    Recounted p (p.unmarkSet s) s 0 := .of_set hs rfl rfl

variable {s x : Nat} {rest pending : List Nat} {marks : Nat → Prop}

/-- The marks of the next set are removed. -/
theorem Inv.unmarkSet (h : Inv p n (s :: rest)) : Inv (p.unmarkSet s) n rest := by
  obtain ⟨hs, _⟩ := (h.pending_iff s).mp mem_cons_self
  obtain ⟨hnt, hnd⟩ := nodup_cons.mp h.pending_nodup
  have hr := unmarkSet_recounted hs
  refine ⟨h.elements_length, h.positions_length, h.map_length, h.element_lt, h.position_lt,
    h.element_position, h.position_element, ?_, ?_, ?_, ?_, ?_, ?_, ?_, ?_, hnd⟩
  · simpa [hr.sets_length] using h.setIndex_lt
  · simpa [hr.start] using h.start_le
  · simpa [hr.stop] using h.lt_stop
  · simpa [hr.stop, hr.sets_length] using h.stop_le
  · simpa [hr.start, hr.stop, hr.sets_length] using h.owner
  · simpa [hr.size, hr.sets_length] using h.nonempty
  · intro t ht
    rw [hr.sets_length] at ht
    rw [hr.size, hr.markedCount]
    split_ifs
    · exact Nat.zero_le _
    · exact h.marked_le t ht
  · intro t
    have hi := h.pending_iff t
    rw [hr.sets_length, hr.markedCount]
    by_cases hts : t = s
    · simp [hts, hnt]
    · simpa [hts] using hi

theorem Inv.marked_of_all (h : Inv p n pending) (hx : x < n)
    (ha : (p.descriptor (p.setIndex x)).markedCount = (p.descriptor (p.setIndex x)).size) :
    p.Marked x := by
  unfold Marked SetDescriptor.indexAfterMarkedElements
  rw [ha]
  exact h.lt_stop x hx

theorem unmarkSet_marked (hs : s < p.sets.length) (hx : p.setIndex x ≠ s) :
    (p.unmarkSet s).Marked x ↔ p.Marked x := by
  unfold Marked
  have hr := unmarkSet_recounted hs
  simp [SetDescriptor.indexAfterMarkedElements, hr.start, hr.markedCount, hx]

/-! ### A set that is split -/

theorem splitSet_descriptor (p : Partition) (hs : s < p.sets.length) (t : Nat) :
    (p.splitSet s).descriptor t =
      if t = p.sets.length then (splitDescriptor (p.descriptor s)).2
      else if t = s then (splitDescriptor (p.descriptor s)).1 else p.descriptor t := by
  show (p.sets.set s _ ++ [_]).getD t {} = _
  rw [getD_concat, length_set, getD_set_of_lt hs]
  rfl

@[simp] theorem splitSet_sets_length (p : Partition) (s : Nat) :
    (p.splitSet s).sets.length = p.sets.length + 1 := by
  show (p.sets.set s _ ++ [_]).length = _
  rw [length_append, length_set]
  rfl

/-- What a split needs: the set has both marked and unmarked elements. -/
structure Splittable (p : Partition) (s : Nat) : Prop where
  lt : s < p.sets.length
  pos : 0 < (p.descriptor s).markedCount
  lt_size : (p.descriptor s).markedCount < (p.descriptor s).size

section

variable (h : Inv p n pending) (hspl : Splittable p s)

include h hspl

theorem Inv.splitSet_setIndex (hx : x < n) : (p.splitSet s).setIndex x =
      if (splitDescriptor (p.descriptor s)).2.start ≤ p.position x ∧
          p.position x < (splitDescriptor (p.descriptor s)).2.stop then p.sets.length
      else p.setIndex x := by
  obtain ⟨_, _, _, _, hst, _⟩ := splitDescriptor_spec _ hspl.pos hspl.lt_size
  have hmem := h.mem_slice (hst.trans (h.stop_le s hspl.lt))
  have hvld : ∀ y ∈ slice p.partitionedElements (splitDescriptor (p.descriptor s)).2.start
      (splitDescriptor (p.descriptor s)).2.size, y < p.elementToSetMap.length := by
    intro y hy
    rw [h.map_length]
    exact ((hmem y).mp hy).1
  show (List.foldl _ p.elementToSetMap _).getD x 0 = _
  rw [getD_foldl_set _ _ _ _ _ hvld]
  by_cases hp : (splitDescriptor (p.descriptor s)).2.start ≤ p.position x ∧
      p.position x < (splitDescriptor (p.descriptor s)).2.stop
  · rw [if_pos hp, if_pos ((hmem x).mpr ⟨hx, hp⟩)]
  · rw [if_neg hp, if_neg (fun hin => hp ((hmem x).mp hin).2)]
    rfl

/-- A set is split by the marks of its elements. -/
theorem Inv.split : ∃ side, Split n p (p.splitSet s) s p.Marked side := by
  obtain ⟨side, hnew, _⟩ := splitDescriptor_spec _ hspl.pos hspl.lt_size
  refine ⟨side, hspl.lt, splitSet_sets_length p s, ?_, ?_⟩
  · rintro x hx rfl hsd
    rw [h.splitSet_setIndex hspl hx, if_pos]
    exact (hnew _).mpr ⟨(h.setIndex_eq_iff hspl.lt hx).mp rfl, hsd⟩
  · intro x hx hn
    rw [h.splitSet_setIndex hspl hx, if_neg]
    intro hp
    obtain ⟨hin, hsd⟩ := (hnew _).mp hp
    obtain rfl := (h.setIndex_eq_iff hspl.lt hx).mpr hin
    exact hn ⟨rfl, hsd⟩

theorem splitSet_marked (hx : x < n) (hs : p.setIndex x ≠ s) :
    (p.splitSet s).Marked x ↔ p.Marked x := by
  obtain ⟨_, hsp⟩ := h.split hspl
  have hkp := hsp.kept x hx (fun hand => hs hand.1)
  have hne : p.setIndex x ≠ p.sets.length := ne_of_lt (h.setIndex_lt x hx)
  unfold Marked
  rw [hkp, splitSet_descriptor p hspl.lt, if_neg hne, if_neg hs]
  rfl

end

/-- **Splitting.** The two parts are sets of the partition. -/
theorem Inv.splitSet (h : Inv p n (s :: rest)) (hspl : Splittable p s) :
    Inv (p.splitSet s) n rest := by
  have hs := hspl.lt
  obtain ⟨hnt, hnd⟩ := nodup_cons.mp h.pending_nodup
  obtain ⟨side, hnew, hold, hst₁, hst₂, hsz₁, hsz₂, hmkd₁, hmkd₂⟩ :=
    splitDescriptor_spec _ hspl.pos hspl.lt_size
  have hds := h.stop_le s hs
  -- a set after the split is the new part, the part that keeps its index, or another set
  have hcs : ∀ t, t < (p.splitSet s).sets.length →
      (t = p.sets.length ∧ (p.splitSet s).descriptor t = (splitDescriptor (p.descriptor s)).2) ∨
      (t = s ∧ (p.splitSet s).descriptor t = (splitDescriptor (p.descriptor s)).1) ∨
      (t < p.sets.length ∧ t ≠ s ∧ (p.splitSet s).descriptor t = p.descriptor t) := by
    intro t ht
    rw [splitSet_sets_length] at ht
    rw [splitSet_descriptor p hs]
    split_ifs with htn hts
    · exact .inl ⟨htn, rfl⟩
    · exact .inr (.inl ⟨hts, rfl⟩)
    · exact .inr (.inr ⟨by omega, hts, rfl⟩)
  have hset := fun x (hx : x < n) => h.splitSet_setIndex hspl hx
  have hset_lt : ∀ x < n, (p.splitSet s).setIndex x < (p.splitSet s).sets.length := by
    intro x hx
    have hlt := h.setIndex_lt x hx
    rw [splitSet_sets_length, hset x hx]
    split_ifs <;> omega
  -- the positions of a set are those of its elements
  have hpla : ∀ t, t < (p.splitSet s).sets.length → ∀ x < n,
      ((p.splitSet s).setIndex x = t ↔ ((p.splitSet s).descriptor t).start ≤ p.position x ∧
        p.position x < ((p.splitSet s).descriptor t).stop) := by
    intro t ht x hx
    have hin := h.setIndex_eq_iff hs hx
    have hlt := h.setIndex_lt x hx
    have hnew := (hnew (p.position x)).trans (and_congr_left' hin.symm)
    rw [hset x hx]
    rcases hcs t ht with ⟨rfl, hd⟩ | ⟨rfl, hd⟩ | ⟨ht, hts, hd⟩
    · rw [hd]
      split_ifs with hp
      · exact iff_of_true rfl hp
      · exact iff_of_false hlt.ne hp
    · rw [hd, hold, ← hin]
      split_ifs with hp
      · exact iff_of_false hs.ne' (fun hand => hand.2 (hnew.mp hp).2)
      · exact ⟨fun heq => ⟨heq, fun hsd => hp (hnew.mpr ⟨heq, hsd⟩)⟩, And.left⟩
    · rw [hd, ← h.setIndex_eq_iff ht hx]
      split_ifs with hp
      · exact iff_of_false ht.ne' (fun heq => hts (heq.symm.trans (hnew.mp hp).1))
      · rfl
  have hst : ∀ t, t < (p.splitSet s).sets.length → ((p.splitSet s).descriptor t).stop ≤ n ∧
      0 < ((p.splitSet s).descriptor t).size ∧
        ((p.splitSet s).descriptor t).markedCount ≤ ((p.splitSet s).descriptor t).size := by
    intro t ht
    rcases hcs t ht with ⟨_, hd⟩ | ⟨_, hd⟩ | ⟨ht, _, hd⟩
    · rw [hd, hmkd₂]
      exact ⟨hst₂.trans hds, hsz₂, Nat.zero_le _⟩
    · rw [hd, hmkd₁]
      exact ⟨hst₁.trans hds, hsz₁, Nat.zero_le _⟩
    · rw [hd]
      exact ⟨h.stop_le t ht, h.nonempty t ht, h.marked_le t ht⟩
  refine ⟨h.elements_length, h.positions_length, ?_, h.element_lt, h.position_lt,
    h.element_position, h.position_element, hset_lt,
    fun x hx => ((hpla _ (hset_lt x hx) x hx).mp rfl).1,
    fun x hx => ((hpla _ (hset_lt x hx) x hx).mp rfl).2, fun t ht => (hst t ht).1, ?_,
    fun t ht => (hst t ht).2.1, fun t ht => (hst t ht).2.2, ?_, hnd⟩
  · show (List.foldl _ p.elementToSetMap _).length = n
    rw [length_foldl_set, h.map_length]
  · intro t ht i hi hi'
    have hin : i < n := hi'.trans_le (hst t ht).1
    refine (hpla t ht _ (h.element_lt i hin)).mpr ?_
    rw [h.position_element i hin]
    exact ⟨hi, hi'⟩
  · intro t
    have hiff := h.pending_iff t
    rw [mem_cons] at hiff
    constructor
    · intro hmem
      have hts : t ≠ s := fun heq => hnt (heq ▸ hmem)
      obtain ⟨hlt, hp⟩ := hiff.mp (.inr hmem)
      rw [splitSet_sets_length, splitSet_descriptor p hs, if_neg hlt.ne, if_neg hts]
      exact ⟨Nat.lt_succ_of_lt hlt, hp⟩
    · rintro ⟨ht, hp⟩
      rcases hcs t ht with ⟨_, hd⟩ | ⟨_, hd⟩ | ⟨ht, hts, hd⟩
      · simp [hd, hmkd₂] at hp
      · simp [hd, hmkd₁] at hp
      · rw [hd] at hp
        exact (hiff.mpr ⟨ht, hp⟩).resolve_left hts

/-! ### A whole generation -/

/-- The partition as a map from the elements to the sets. -/
def part (p : Partition) (n : Nat) (x : Fin n) : Nat := p.setIndex x

theorem Split.splitOff {p' : Partition} {property : Nat → Prop} {side : Bool}
    (h : Split n p p' s property side) (hp : Inv p n pending) :
    SplitOff (fun x : Fin n => p.part n x = s ∧ (property x ↔ side = true)) (p.part n)
      (p'.part n) p.sets.length where
  moved_eq := fun x hx => h.moved x x.isLt hx.1 hx.2
  kept_eq := fun x hx => h.kept x x.isLt hx
  fresh_ne := fun x => ne_of_lt (hp.setIndex_lt x x.isLt)
  together := fun _ _ hx hy => hx.1.trans hy.1.symm

/-- While sets are refined: the marks of the sets that have yet to be looked at are those of the
generation; the other sets have been split by them. -/
structure Generation (n : Nat) (marks : Nat → Prop) (q : Partition) (pending : List Nat) :
    Prop where
  inv : Inv q n pending
  marked_iff : ∀ x, x < n → q.setIndex x ∈ pending → (q.Marked x ↔ marks x)
  done : ∀ x y, x < n → y < n → q.setIndex x = q.setIndex y → q.setIndex x ∉ pending →
    (marks x ↔ marks y)

theorem Inv.not_marked (h : Inv p n pending) (hx : x < n) (hn : p.setIndex x ∉ pending) :
    ¬ p.Marked x := by
  intro hmkd
  have hlt := h.setIndex_lt x hx
  have hz : ¬ 0 < (p.descriptor (p.setIndex x)).markedCount :=
    fun hp => hn ((h.pending_iff _).mpr ⟨hlt, hp⟩)
  have hs := h.start_le x hx
  unfold Marked SetDescriptor.indexAfterMarkedElements at hmkd
  omega

theorem Inv.generation (h : Inv p n pending) : Generation n p.Marked p pending := by
  refine ⟨h, fun x _ _ => Iff.rfl, ?_⟩
  intro x y hx hy hxy hn
  exact iff_of_false (h.not_marked hx hn) (h.not_marked hy (hxy ▸ hn))

/-- A set with marked elements only stays whole. -/
theorem Generation.unmarkSet {q : Partition} (h : Generation n marks q (s :: rest))
    (ha : (q.descriptor s).markedCount = (q.descriptor s).size) :
    Generation n marks (q.unmarkSet s) rest := by
  have hs := ((h.inv.pending_iff s).mp mem_cons_self).1
  obtain ⟨hnt, _⟩ := nodup_cons.mp h.inv.pending_nodup
  refine ⟨h.inv.unmarkSet, ?_, ?_⟩
  · intro x hx hmem
    have hne : q.setIndex x ≠ s := fun heq => hnt (heq ▸ hmem)
    rw [unmarkSet_marked hs hne]
    exact h.marked_iff x hx (mem_cons_of_mem s hmem)
  · intro x y hx hy hxy hn
    by_cases hset : q.setIndex x = s
    · have hmks : ∀ z < n, q.setIndex z = s → marks z := by
        rintro z hz rfl
        exact (h.marked_iff z hz mem_cons_self).mp (h.inv.marked_of_all hz ha)
      exact ⟨fun _ => hmks y hy (hxy ▸ hset), fun _ => hmks x hx hset⟩
    · exact h.done x y hx hy hxy (fun hmem => (mem_cons.mp hmem).elim hset hn)

/-- A set with marked and unmarked elements is split. -/
theorem Generation.splitSet {q : Partition} (h : Generation n marks q (s :: rest))
    (hspl : Splittable q s) :
    Generation n marks (q.splitSet s) rest ∧ ∃ side, Split n q (q.splitSet s) s marks side := by
  obtain ⟨side, hsd⟩ := h.inv.split hspl
  obtain ⟨hnt, _⟩ := nodup_cons.mp h.inv.pending_nodup
  have hmks : ∀ x < n, q.setIndex x = s → (q.Marked x ↔ marks x) := by
    rintro x hx rfl
    exact h.marked_iff x hx mem_cons_self
  have hspl' : Split n q (q.splitSet s) s marks side := by
    refine ⟨hsd.set_lt, hsd.sets_length, ?_, ?_⟩
    · intro x hx hs hm
      exact hsd.moved x hx hs ((hmks x hx hs).trans hm)
    · intro x hx hn
      exact hsd.kept x hx (fun hand => hn ⟨hand.1, (hmks x hx hand.1).symm.trans hand.2⟩)
  have hsm := (hspl'.splitOff h.inv).same_iff
  refine ⟨⟨h.inv.splitSet hspl, ?_, ?_⟩, side, hspl'⟩
  · intro x hx hmem
    have hlt : (q.splitSet s).setIndex x < q.sets.length :=
      ((h.inv.pending_iff _).mp (mem_cons_of_mem s hmem)).1
    by_cases hmv : q.setIndex x = s ∧ (marks x ↔ side = true)
    · exact absurd (hspl'.moved x hx hmv.1 hmv.2) hlt.ne
    have hkp := hspl'.kept x hx hmv
    rw [hkp] at hmem
    have hne : q.setIndex x ≠ s := fun heq => hnt (heq ▸ hmem)
    rw [splitSet_marked h.inv hspl hx hne]
    exact h.marked_iff x hx (mem_cons_of_mem s hmem)
  · intro x y hx hy hxy hn
    obtain ⟨hold, hmv⟩ := (hsm ⟨x, hx⟩ ⟨y, hy⟩).mp hxy
    by_cases hs : q.setIndex x = s
    · -- both on the same side
      have hs' : q.setIndex y = s := hold.symm.trans hs
      have hi : ((marks x ↔ side = true) ↔ (marks y ↔ side = true)) :=
        ⟨fun hm => (hmv.mp ⟨hs, hm⟩).2, fun hm => (hmv.mpr ⟨hs', hm⟩).2⟩
      cases side with
      | true => simpa using hi
      | false => simpa [not_iff_not] using hi
    · refine h.done x y hx hy hold ?_
      have hkp := hspl'.kept x hx (fun hand => hs hand.1)
      rw [hkp] at hn
      exact fun hmem => (mem_cons.mp hmem).elim hs hn

/-- All sets with marks are looked at. -/
theorem Generation.run {σ : Type} (fn : Partition → Nat → σ → σ)
    (P : (Fin n → Nat) → Nat → σ → Prop)
    (hst : ∀ (q q' : Partition) (s : Nat) (side : Bool) (pending rest : List Nat) (st : σ),
      Inv q n pending → Inv q' n rest → Split n q q' s marks side →
      P (q.part n) q.sets.length st →
      P (q'.part n) q'.sets.length (fn q' q.sets.length st)) (pending : List Nat)
    (q : Partition) (st : σ) (h : Generation n marks q pending)
    (hP : P (q.part n) q.sets.length st) :
    let result := pending.foldl
      (fun (q : Partition × σ) setIndex =>
        match q.1.refineSet setIndex with
        | (refined, none) => (refined, q.2)
        | (refined, some newSetIndex) => (refined, fn refined newSetIndex q.2))
      (q, st)
    Generation n marks result.1 [] ∧ P (result.1.part n) result.1.sets.length result.2 := by
  induction pending generalizing q st with
  | nil => exact ⟨h, hP⟩
  | cons s rest ih =>
    obtain ⟨hs, hp⟩ := (h.inv.pending_iff s).mp mem_cons_self
    rw [foldl_cons]
    by_cases ha : (q.descriptor s).markedCount = (q.descriptor s).size
    · have hrfe : q.refineSet s = (q.unmarkSet s, none) := if_pos ha
      rw [hrfe]
      refine ih _ _ (h.unmarkSet ha) ?_
      rw [(unmarkSet_recounted hs).sets_length]
      exact hP
    · have hrfe : q.refineSet s = (q.splitSet s, some q.sets.length) := if_neg ha
      have hspl : Splittable q s := ⟨hs, hp, lt_of_le_of_ne (h.inv.marked_le s hs) ha⟩
      obtain ⟨h', side, hsd⟩ := h.splitSet hspl
      rw [hrfe]
      exact ih _ _ h' (hst q _ s side _ _ st h.inv h'.inv hsd hP)

/-- **Refining a generation.** Every set has been split by the marks, and no mark is left. -/
theorem refineGeneration_spec {σ : Type} (fn : Partition → Nat → σ → σ)
    (P : (Fin n → Nat) → Nat → σ → Prop)
    (h : Inv p n p.setsMarkedInCurrentGeneration)
    (hst : ∀ (q q' : Partition) (s : Nat) (side : Bool) (pending rest : List Nat) (st : σ),
      Inv q n pending → Inv q' n rest → Split n q q' s p.Marked side →
      P (q.part n) q.sets.length st →
      P (q'.part n) q'.sets.length (fn q' q.sets.length st))
    (st : σ) (hP : P (p.part n) p.sets.length st) :
    Inv (refineGeneration fn p st).1 n [] ∧
      P ((refineGeneration fn p st).1.part n)
        (refineGeneration fn p st).1.sets.length (refineGeneration fn p st).2 ∧
      ∀ x y : Fin n, (refineGeneration fn p st).1.part n x =
        (refineGeneration fn p st).1.part n y → (p.Marked x ↔ p.Marked y) := by
  obtain ⟨hgen, hP'⟩ := Generation.run fn P hst _ p st h.generation hP
  refine ⟨⟨hgen.inv.elements_length, hgen.inv.positions_length, hgen.inv.map_length,
      hgen.inv.element_lt, hgen.inv.position_lt, hgen.inv.element_position,
      hgen.inv.position_element, hgen.inv.setIndex_lt, hgen.inv.start_le, hgen.inv.lt_stop,
      hgen.inv.stop_le, hgen.inv.owner, hgen.inv.nonempty, hgen.inv.marked_le,
      hgen.inv.pending_iff, hgen.inv.pending_nodup⟩, hP', ?_⟩
  intro x y hxy
  exact hgen.done x y x.isLt y.isLt hxy not_mem_nil

theorem refineGeneration_splitBy (h : Inv p n p.setsMarkedInCurrentGeneration) :
    SplitBy (fun x : Fin n => p.Marked x) (p.part n)
      ((refineGeneration (fun _ _ st => st) p ()).1.part n) p.sets.length
      (refineGeneration (fun _ _ st => st) p ()).1.sets.length := by
  obtain ⟨hi, ⟨hc, hkp, hrfn, htog⟩, hmks⟩ :=
    refineGeneration_spec (fun _ _ st => st)
      (fun part cnt (_ : Unit) => p.sets.length ≤ cnt ∧
        (∀ x, part x = p.part n x ∨ p.sets.length ≤ part x) ∧
        (∀ x y, part x = part y → p.part n x = p.part n y) ∧
        ∀ x y, p.part n x = p.part n y → (p.Marked x ↔ p.Marked y) → part x = part y)
      h (by
        intro q q' s side pending rest _ hq hq' hspl ⟨hc, hkp, hrfn, htog⟩
        have hoff := hspl.splitOff hq
        refine ⟨by rw [hspl.sets_length]; omega, ?_, ?_, ?_⟩
        · intro x
          by_cases hmv : q.part n x = s ∧ (p.Marked x ↔ side = true)
          · rw [hoff.moved_eq x hmv]
            exact .inr hc
          · rw [hoff.kept_eq x hmv]
            exact hkp x
        · intro x y hxy
          exact hrfn x y ((hoff.same_iff x y).mp hxy).1
        · intro x y hxy hm
          have hold := htog x y hxy hm
          refine (hoff.same_iff x y).mpr ⟨hold, ?_⟩
          rw [hold, hm])
      () ⟨le_rfl, fun _ => .inl rfl, fun _ _ hxy => hxy, fun _ _ hxy _ => hxy⟩
  refine ⟨fun x => hi.setIndex_lt x x.isLt, hc, hkp, ?_⟩
  intro x y
  constructor
  · intro hxy
    exact ⟨hrfn x y hxy, hmks x y hxy⟩
  · rintro ⟨hxy, hm⟩
    exact htog x y hxy hm

end Refine

end Partition

end WebKit.ContentExtensions
