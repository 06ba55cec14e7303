import Mathlib.Data.List.Basic
import WebKit.Lib.Runs

/-!
# The index cache of a live collection

`nodeAt(i)` and `nodeCount()` of a live collection walk over the document. `CollectionIndexCache`
remembers the iterator of the last lookup with its index, the number of elements, and after a count
the list of all elements. A lookup starts from the nearest place it knows.

A lookup that runs off the end learns the number of elements, the index of the last one it saw plus
one. For an empty collection there is none, and `nodeAt` writes 1 unless it was asked for the index
0. What `nodeCount()` answers next is then wrong, and nothing else is, until the index 0 is looked
up or the collection changes.

Indices are natural numbers: no subtraction of the source goes below 0.
-/

namespace WebKit.Dom

open List

/-! ## Collections -/

/-- A collection: its elements in order, and whether it can be traversed backward. An iterator is a
position, and the end is the number of elements. -/
structure Collection (Node : Type*) where
  elements : List Node
  collectionCanTraverseBackward : Bool
  deriving DecidableEq

/-- An access past the end of the cached list, or to the end iterator, is undefined. -/
inductive Found (Node : Type*) where
  | null
  | node (node : Node)
  | outOfBounds
  deriving DecidableEq

namespace Collection

variable {Node : Type*}

def collectionBegin (_collection : Collection Node) : Nat := 0

variable (collection : Collection Node)

def collectionEnd : Nat := collection.elements.length

/-- The end if there is no element. -/
def collectionLast : Nat := collection.elements.length - 1

/-- The iterator, and `traversedCount`, without the step that reaches the end. -/
def collectionTraverseForward (current : Nat) : Nat → Nat × Nat
  | 0 => (current, 0)
  | count + 1 =>
    if current + 1 < collection.elements.length then
      let (reached, traversedCount) := collectionTraverseForward (current + 1) count
      (reached, traversedCount + 1)
    else
      (collection.collectionEnd, 0)

/-- The loop of `collectionTraverseBackward`. Before the first element it is at the end. -/
def collectionTraverseBackward : Nat → Nat → Nat
  | current, 0 => current
  | 0, _ + 1 => collection.collectionEnd
  | current + 1, count + 1 => collectionTraverseBackward current count

/-- `&*current`. -/
def nodeOf (current : Nat) : Found Node :=
  match collection.elements[current]? with
  | some node => .node node
  | none => .outOfBounds

/-- What `nodeAt(index)` is for. -/
def item (index : Nat) : Found Node :=
  match collection.elements[index]? with
  | some node => .node node
  | none => .null

variable {collection} {index : Nat}

theorem nodeOf_eq_item (h : index < collection.elements.length) :
    collection.nodeOf index = collection.item index := by
  rw [nodeOf, item, getElem?_eq_getElem h]

theorem item_of_length_le (h : collection.elements.length ≤ index) :
    collection.item index = .null := by
  rw [item, getElem?_eq_none h]

theorem collectionTraverseForward_eq {cur cnt : Nat} (hc : cur < collection.elements.length) :
    collection.collectionTraverseForward cur cnt =
      if cur + cnt < collection.elements.length then (cur + cnt, cnt)
      else (collection.collectionEnd, collection.elements.length - 1 - cur) := by
  induction cnt generalizing cur with
  | zero => exact (if_pos hc).symm
  | succ cnt ih =>
    rw [collectionTraverseForward]
    by_cases hnx : cur + 1 < collection.elements.length
    · rw [if_pos hnx, ih hnx, Nat.add_right_comm, Nat.add_assoc cur]
      by_cases hin : cur + (cnt + 1) < collection.elements.length
      · rw [if_pos hin, if_pos hin]
      · simp only [if_neg hin, Prod.mk.injEq, true_and]
        omega
    · rw [if_neg hnx, if_neg (by omega)]
      simp only [Prod.mk.injEq, true_and]
      omega

theorem collectionTraverseForward_inside {cur cnt : Nat}
    (h : cur + cnt < collection.elements.length) :
    collection.collectionTraverseForward cur cnt = (cur + cnt, cnt) := by
  rw [collectionTraverseForward_eq (by omega), if_pos h]

theorem traverse_inside {p : Prop} [Decidable p] (hp : p ↔ index ≠ 0)
    (hins : index < collection.elements.length) :
    (if p then collection.collectionTraverseForward collection.collectionBegin index
      else (collection.collectionBegin, 0)) = (index, index) := by
  have hbeg : collection.collectionBegin = 0 := rfl
  split
  · rw [hbeg, collectionTraverseForward_inside (by omega), Nat.zero_add]
  next hz => rw [not_not.mp (hp.not.mp hz), hbeg]

theorem collectionTraverseBackward_of_le {cur count : Nat} (h : count ≤ cur) :
    collection.collectionTraverseBackward cur count = cur - count := by
  induction count generalizing cur with
  | zero => cases cur <;> rfl
  | succ count ih =>
    cases cur with
    | zero => omega
    | succ cur =>
      rw [collectionTraverseBackward, ih (by omega)]
      omega

end Collection

/-! ## The cache -/

structure CollectionIndexCache (Node : Type*) where
  current : Nat
  currentIndex : Nat
  nodeCount : Nat
  cachedList : List Node
  nodeCountValid : Bool
  listValid : Bool
  deriving DecidableEq

namespace CollectionIndexCache

variable {Node : Type*}

def create (collection : Collection Node) : CollectionIndexCache Node where
  current := collection.collectionEnd
  currentIndex := 0
  nodeCount := 0
  cachedList := []
  nodeCountValid := false
  listValid := false

/-- The loop of `computeNodeCountUpdatingListCache`, which has a round for each element at most. -/
def appendElements (collection : Collection Node) (list : List Node) (current : Nat) :
    Nat → List Node
  | 0 => list
  | rounds + 1 =>
    match collection.elements[current]? with
    | none => list
    | some node =>
      appendElements collection (list ++ [node])
        (collection.collectionTraverseForward current 1).1 rounds

/-- The number of elements, and the cache with the list of them. -/
def computeNodeCountUpdatingListCache (cache : CollectionIndexCache Node)
    (collection : Collection Node) : Nat × CollectionIndexCache Node :=
  if collection.collectionBegin = collection.collectionEnd then (0, cache)
  else
    let list := appendElements collection cache.cachedList collection.collectionBegin
      collection.elements.length
    (list.length, { cache with cachedList := list, listValid := true })

/-- `nodeCount()`. -/
def computeNodeCount (cache : CollectionIndexCache Node) (collection : Collection Node) :
    Nat × CollectionIndexCache Node :=
  if cache.nodeCountValid then (cache.nodeCount, cache)
  else
    let (count, cache) := cache.computeNodeCountUpdatingListCache collection
    (count, { cache with nodeCount := count, nodeCountValid := true })

/-- The way from the last element back to `index`, in `traverseForwardTo` and in `nodeAt`. -/
def traverseFromLast (cache : CollectionIndexCache Node) (collection : Collection Node)
    (index : Nat) : Found Node × CollectionIndexCache Node :=
  let current :=
    if index < cache.nodeCount - 1 then
      collection.collectionTraverseBackward collection.collectionLast (cache.nodeCount - index - 1)
    else collection.collectionLast
  (collection.nodeOf current, { cache with current := current, currentIndex := index })

def traverseBackwardTo (cache : CollectionIndexCache Node) (collection : Collection Node)
    (index : Nat) : Found Node × CollectionIndexCache Node :=
  let firstIsCloser := index < cache.currentIndex - index
  if firstIsCloser ∨ !collection.collectionCanTraverseBackward then
    let (current, currentIndex) :=
      if index ≠ 0 then
        collection.collectionTraverseForward collection.collectionBegin index
      else (collection.collectionBegin, 0)
    (collection.nodeOf current, { cache with current, currentIndex })
  else
    let current :=
      collection.collectionTraverseBackward cache.current (cache.currentIndex - index)
    (collection.nodeOf current, { cache with current, currentIndex := index })

def traverseForwardTo (cache : CollectionIndexCache Node) (collection : Collection Node)
    (index : Nat) : Found Node × CollectionIndexCache Node :=
  let lastIsCloser :=
    cache.nodeCountValid ∧ cache.nodeCount - index < index - cache.currentIndex
  if lastIsCloser ∧ collection.collectionCanTraverseBackward then
    cache.traverseFromLast collection index
  else
    let (current, traversedCount) :=
      collection.collectionTraverseForward cache.current (index - cache.currentIndex)
    let cache := { cache with current, currentIndex := cache.currentIndex + traversedCount }
    if current = collection.collectionEnd then
      -- Failed to find the index but at least we now know the size.
      (.null, { cache with nodeCount := cache.currentIndex + 1, nodeCountValid := true })
    else (collection.nodeOf current, cache)

/-- The way from the first element in `nodeAt`. -/
def traverseFromBegin (cache : CollectionIndexCache Node) (collection : Collection Node)
    (index : Nat) : Found Node × CollectionIndexCache Node :=
  let (current, currentIndex) :=
    if index ≠ 0 ∧ collection.collectionBegin ≠ collection.collectionEnd then
      collection.collectionTraverseForward collection.collectionBegin index
    else (collection.collectionBegin, 0)
  let cache := { cache with current, currentIndex }
  if current = collection.collectionEnd then
    -- Failed to find the index but at least we now know the size. In an empty collection no
    -- element was seen, and the index 0 of `currentIndex` is not one of an element.
    (.null,
      { cache with
        nodeCount := if index ≠ 0 then cache.currentIndex + 1 else 0
        nodeCountValid := true })
  else (collection.nodeOf current, cache)

def nodeAt (cache : CollectionIndexCache Node) (collection : Collection Node) (index : Nat) :
    Found Node × CollectionIndexCache Node :=
  if cache.nodeCountValid ∧ cache.nodeCount ≤ index then (.null, cache)
  else if cache.listValid then
    match cache.cachedList[index]? with
    | some node => (.node node, cache)
    | none => (.outOfBounds, cache)
  else if cache.current ≠ collection.collectionEnd then
    if cache.currentIndex < index then cache.traverseForwardTo collection index
    else if index < cache.currentIndex then cache.traverseBackwardTo collection index
    else (collection.nodeOf cache.current, cache)
  else
    let lastIsCloser := cache.nodeCountValid ∧ cache.nodeCount - index < index
    if lastIsCloser ∧ collection.collectionCanTraverseBackward then
      cache.traverseFromLast collection index
    else cache.traverseFromBegin collection index

/-- `invalidate`, for the collection as it is now. -/
def invalidate (cache : CollectionIndexCache Node) (collection : Collection Node) :
    CollectionIndexCache Node :=
  { cache with
    current := collection.collectionEnd
    nodeCountValid := false
    listValid := false
    cachedList := [] }

/-! ## What the cache knows -/

/-- The cache agrees with the collection. Only the count of an empty collection can be wrong. -/
structure Agrees (cache : CollectionIndexCache Node) (collection : Collection Node) : Prop where
  /-- The iterator is at the end or at the element with its index. -/
  current : cache.current = collection.collectionEnd ∨
    (cache.current < collection.collectionEnd ∧ cache.currentIndex = cache.current)
  nodeCount : cache.nodeCountValid → cache.nodeCount = collection.elements.length ∨
    (collection.elements = [] ∧ cache.nodeCount = 1)
  listValid : cache.listValid → cache.nodeCountValid ∧ collection.elements ≠ []
  cachedList : cache.cachedList = if cache.listValid then collection.elements else []

variable {cache : CollectionIndexCache Node} {collection : Collection Node} {index : Nat}

theorem create_agrees (collection : Collection Node) : (create collection).Agrees collection where
  current := .inl rfl
  nodeCount := by simp [create]
  listValid := by simp [create]
  cachedList := rfl

theorem invalidate_agrees (cache : CollectionIndexCache Node) (collection : Collection Node) :
    (cache.invalidate collection).Agrees collection where
  current := .inl rfl
  nodeCount := by simp [invalidate]
  listValid := by simp [invalidate]
  cachedList := rfl

/-- A count above an index is right, and the index in range, unless the collection is empty. -/
theorem Agrees.count_of_index_lt (h : cache.Agrees collection) (hvld : cache.nodeCountValid)
    (hi : index < cache.nodeCount) :
    (cache.nodeCount = collection.elements.length) ∨ (collection.elements = [] ∧ index = 0) := by
  rcases h.nodeCount hvld with hc | ⟨hemp, hc⟩
  · exact .inl hc
  · exact .inr ⟨hemp, by omega⟩

theorem Agrees.found (h : cache.Agrees collection) (hi : index < collection.elements.length) :
    { cache with current := index, currentIndex := index }.Agrees collection where
  current := .inr ⟨hi, rfl⟩
  nodeCount := h.nodeCount
  listValid := h.listValid
  cachedList := h.cachedList

theorem Agrees.counted (h : cache.Agrees collection) {currentIndex nodeCount : Nat}
    (hc : nodeCount = collection.elements.length ∨ (collection.elements = [] ∧ nodeCount = 1)) :
    { cache with
      current := collection.collectionEnd
      currentIndex
      nodeCount
      nodeCountValid := true }.Agrees collection where
  current := .inl rfl
  nodeCount := fun _ => hc
  listValid := fun hls => ⟨rfl, (h.listValid hls).2⟩
  cachedList := h.cachedList

/-- A lookup gives the element, and the cache agrees with the collection afterwards. -/
def Answers (collection : Collection Node) (index : Nat)
    (answer : Found Node × CollectionIndexCache Node) : Prop :=
  answer.1 = collection.item index ∧ answer.2.Agrees collection

section

variable (h : cache.Agrees collection)

include h

theorem Agrees.answers_found (hi : index < collection.elements.length) :
    Answers collection index
      (collection.nodeOf index, { cache with current := index, currentIndex := index }) :=
  ⟨Collection.nodeOf_eq_item hi, h.found hi⟩

theorem Agrees.traverseFromLast (hcnt : cache.nodeCount = collection.elements.length)
    (hi : index < collection.elements.length) :
    Answers collection index (cache.traverseFromLast collection index) := by
  have hc : (if index < cache.nodeCount - 1 then
      collection.collectionTraverseBackward collection.collectionLast (cache.nodeCount - index - 1)
    else collection.collectionLast) = index := by
    have hls : collection.collectionLast = collection.elements.length - 1 := rfl
    by_cases hlt : index < cache.nodeCount - 1
    · rw [if_pos hlt, Collection.collectionTraverseBackward_of_le (by omega)]
      omega
    · rw [if_neg hlt]
      omega
  have hans := h.answers_found hi
  simp only [CollectionIndexCache.traverseFromLast, hc]
  exact hans

theorem Agrees.traverseBackwardTo (hc : cache.current < collection.elements.length)
    (hci : cache.currentIndex = cache.current) (hi : index < cache.currentIndex) :
    Answers collection index (cache.traverseBackwardTo collection index) := by
  have hins : index < collection.elements.length := by omega
  have hans := h.answers_found hins
  simp only [CollectionIndexCache.traverseBackwardTo]
  split
  · -- From the first element.
    rw [Collection.traverse_inside Iff.rfl hins]
    exact hans
  · -- Back from the iterator.
    rw [Collection.collectionTraverseBackward_of_le (by omega),
      show cache.current - (cache.currentIndex - index) = index by omega]
    exact hans

theorem Agrees.traverseForwardTo (hc : cache.current < collection.elements.length)
    (hci : cache.currentIndex = cache.current) (hi : cache.currentIndex < index)
    (hcnt : cache.nodeCountValid → index < cache.nodeCount) :
    Answers collection index (cache.traverseForwardTo collection index) := by
  have hne : collection.elements ≠ [] := by
    intro hemp
    rw [hemp] at hc
    exact Nat.not_lt_zero _ hc
  rw [CollectionIndexCache.traverseForwardTo]
  split
  · next hls =>
    rcases h.count_of_index_lt hls.1.1 (hcnt hls.1.1) with hr | ⟨hemp, -⟩
    · have hins : index < collection.elements.length := hr ▸ hcnt hls.1.1
      exact h.traverseFromLast hr hins
    · exact absurd hemp hne
  · by_cases hins : index < collection.elements.length
    · have hfwd : collection.collectionTraverseForward cache.current
          (index - cache.currentIndex) = (index, index - cache.currentIndex) := by
        rw [Collection.collectionTraverseForward_inside (by omega),
          show cache.current + (index - cache.currentIndex) = index by omega]
      have he : index ≠ collection.collectionEnd := Nat.ne_of_lt hins
      have hans := h.answers_found hins
      simp only [hfwd, if_neg he]
      rw [show cache.currentIndex + (index - cache.currentIndex) = index by omega]
      exact hans
    · have hfwd : collection.collectionTraverseForward cache.current
          (index - cache.currentIndex)
            = (collection.collectionEnd, collection.elements.length - 1 - cache.current) :=
        (Collection.collectionTraverseForward_eq hc).trans (if_neg (by omega))
      simp only [hfwd, if_true]
      refine ⟨(Collection.item_of_length_le (by omega)).symm, h.counted (.inl ?_)⟩
      omega

theorem Agrees.traverseFromBegin :
    Answers collection index (cache.traverseFromBegin collection index) := by
  have hbeg : collection.collectionBegin = 0 := rfl
  have he : collection.collectionEnd = collection.elements.length := rfl
  rw [CollectionIndexCache.traverseFromBegin]
  by_cases hemp : collection.elements = []
  · -- Nothing is traversed, and the count is 0 or 1.
    have hno : collection.collectionEnd = 0 := by rw [he, hemp]; rfl
    have hst : ¬(index ≠ 0 ∧ collection.collectionBegin ≠ collection.collectionEnd) := by
      rw [hbeg, hno]
      exact fun hne => hne.2 rfl
    have hat : collection.collectionBegin = collection.collectionEnd := by rw [hbeg, hno]
    have hl : collection.elements.length = 0 := by rw [hemp]; rfl
    simp only [if_neg hst, if_pos hat]
    rw [hat]
    refine ⟨(Collection.item_of_length_le (by omega)).symm, h.counted ?_⟩
    by_cases hz : index = 0
    · rw [if_neg (not_not_intro hz)]
      exact .inl hl.symm
    · rw [if_pos hz]
      exact .inr ⟨hemp, rfl⟩
  · have hp : 0 < collection.elements.length := length_pos_iff.mpr hemp
    by_cases hins : index < collection.elements.length
    · have hfwd := Collection.traverse_inside
        (and_iff_left (show collection.collectionBegin ≠ collection.collectionEnd by omega)) hins
      have hans := h.answers_found hins
      have hne : index ≠ collection.collectionEnd := Nat.ne_of_lt hins
      simp only [hfwd, if_neg hne]
      exact hans
    · have hz : index ≠ 0 := by omega
      have hfwd : (if index ≠ 0 ∧ collection.collectionBegin ≠ collection.collectionEnd then
          collection.collectionTraverseForward collection.collectionBegin index
        else (collection.collectionBegin, 0))
          = (collection.collectionEnd, collection.elements.length - 1) := by
        rw [if_pos ⟨hz, by omega⟩, hbeg,
          Collection.collectionTraverseForward_eq hp, if_neg (by omega), Nat.sub_zero]
      simp only [hfwd, if_true, if_pos hz]
      refine ⟨(Collection.item_of_length_le (by omega)).symm, h.counted (.inl ?_)⟩
      omega

/-- **Lookups.** `nodeAt` gives the element with the index, or null exactly when the index is out
of range, also where the count is wrong. -/
theorem Agrees.nodeAt (index : Nat) : Answers collection index (cache.nodeAt collection index) := by
  rw [CollectionIndexCache.nodeAt]
  split
  · next ho =>
    refine ⟨(Collection.item_of_length_le ?_).symm, h⟩
    rcases h.nodeCount ho.1 with hc | ⟨hemp, -⟩
    · exact hc ▸ ho.2
    · rw [hemp]
      exact Nat.zero_le index
  next hin =>
  have hc : cache.nodeCountValid → index < cache.nodeCount := fun hvld =>
    Nat.lt_of_not_le (fun hle => hin ⟨hvld, hle⟩)
  split
  · next hli =>
    obtain ⟨hvld, hne⟩ := h.listValid hli
    have hcch : cache.cachedList = collection.elements := by rw [h.cachedList, if_pos hli]
    have hins : index < collection.elements.length := by
      rcases h.count_of_index_lt hvld (hc hvld) with hr | ⟨hemp, -⟩
      · exact hr ▸ hc hvld
      · exact absurd hemp hne
    have hit : collection.item index = .node collection.elements[index] := by
      rw [Collection.item, getElem?_eq_getElem hins]
    rw [hcch, getElem?_eq_getElem hins]
    exact ⟨hit.symm, h⟩
  · split
    · next hcur =>
      obtain ⟨hlt, hci⟩ := h.current.resolve_left hcur
      rcases Nat.lt_trichotomy cache.currentIndex index with hles | heq | hgtr
      · rw [if_pos hles]
        exact h.traverseForwardTo hlt hci hles hc
      · rw [if_neg (by omega), if_neg (by omega)]
        have hat : cache.current = index := hci ▸ heq
        exact ⟨hat ▸ Collection.nodeOf_eq_item hlt, h⟩
      · rw [if_neg (by omega), if_pos hgtr]
        exact h.traverseBackwardTo hlt hci hgtr
    · simp only
      split
      · next hls =>
        rcases h.count_of_index_lt hls.1.1 (hc hls.1.1) with hr | ⟨-, hz⟩
        · exact h.traverseFromLast hr (hr ▸ hc hls.1.1)
        · exact absurd hls.1.2 (by omega)
      · exact h.traverseFromBegin

end

/-- A lookup above 0 in an empty collection leaves a count above 0, unless the count is known to be
0. -/
theorem Agrees.nodeAt_empty (h : cache.Agrees collection) (hemp : collection.elements = []) :
    (cache.nodeAt collection index).2.nodeCountValid = true ∧
      ((cache.nodeAt collection index).2.nodeCount ≠ 0 ↔
        index ≠ 0 ∧ (cache.nodeCountValid → cache.nodeCount ≠ 0)) := by
  have hend : collection.collectionEnd = 0 := congrArg length hemp
  have hls : ¬cache.listValid := fun hls => (h.listValid hls).2 hemp
  have hcur : ¬cache.current ≠ collection.collectionEnd :=
    not_not_intro (h.current.resolve_right fun hlt => absurd hlt.1 (by omega))
  rw [CollectionIndexCache.nodeAt]
  split
  · next ho =>
    refine ⟨ho.1, fun hne => ⟨?_, fun _ => hne⟩, fun hne => hne.2 ho.1⟩
    rintro rfl
    exact hne (Nat.le_zero.mp ho.2)
  next hin =>
  have hzero : cache.nodeCountValid → index = 0 ∧ cache.nodeCount ≠ 0 := fun hvld => by
    rcases h.count_of_index_lt hvld (Nat.lt_of_not_le fun hle => hin ⟨hvld, hle⟩) with hr | hr
    · exact absurd ⟨hvld, by rw [hr, hemp]; exact Nat.zero_le index⟩ hin
    · exact ⟨hr.2, fun hz => hin ⟨hvld, by omega⟩⟩
  dsimp only
  rw [if_neg fun hlc => absurd hlc.1.2 (by have := hzero hlc.1.1; omega), CollectionIndexCache.traverseFromBegin,
    if_neg fun hne => hne.2 hend.symm]
  simp only [Collection.collectionBegin, hend, if_true, true_and]
  split
  · next hne => exact iff_of_true (Nat.succ_ne_zero _) ⟨hne, fun hvld => (hzero hvld).2⟩
  · next hz => exact iff_of_false (not_not_intro rfl) fun hne => hz hne.1

theorem appendElements_eq (list : List Node) {current rounds : Nat}
    (h : collection.elements.length ≤ current + rounds) :
    appendElements collection list current rounds = list ++ collection.elements.drop current := by
  induction rounds generalizing list current with
  | zero => rw [appendElements, drop_of_length_le (by omega), append_nil]
  | succ rounds ih =>
    rw [appendElements]
    by_cases hc : current < collection.elements.length
    · -- the step from the last element reaches the end
      have hnx : (collection.collectionTraverseForward current 1).1 = current + 1 := by
        rw [Collection.collectionTraverseForward_eq hc]
        split
        · rfl
        · show collection.elements.length = _
          omega
      rw [getElem?_eq_getElem hc, drop_eq_getElem_cons hc]
      simp only [hnx]
      rw [ih _ (by omega), append_assoc]
      rfl
    · rw [getElem?_eq_none (by omega), drop_of_length_le (by omega), append_nil]

/-- **Counts.** `nodeCount()` is right, unless it was left wrong for an empty collection. -/
theorem Agrees.computeNodeCount (h : cache.Agrees collection) :
    ((cache.computeNodeCount collection).1 = collection.elements.length ↔
      ¬(collection.elements = [] ∧ cache.nodeCountValid ∧ cache.nodeCount ≠ 0)) ∧
    (cache.computeNodeCount collection).2.Agrees collection := by
  rw [CollectionIndexCache.computeNodeCount]
  split
  · next hvld =>
    refine ⟨?_, h⟩
    rcases h.nodeCount hvld with hc | ⟨hemp, hc⟩
    · refine ⟨fun _ ⟨hemp, _, hne⟩ => hne ?_, fun _ => hc⟩
      rw [hc, hemp]
      rfl
    · rw [hemp]
      simp [hvld, hc]
  · next hi =>
    have hls : ¬cache.listValid := fun hls => hi (h.listValid hls).1
    have hcch : cache.cachedList = [] := by rw [h.cachedList, if_neg hls]
    have hr : ¬(collection.elements = [] ∧ cache.nodeCountValid ∧ cache.nodeCount ≠ 0) :=
      fun hbad => hi hbad.2.1
    rw [computeNodeCountUpdatingListCache]
    by_cases hemp : collection.elements = []
    · have hl : collection.elements.length = 0 := by rw [hemp]; rfl
      have hbeg : collection.collectionBegin = collection.collectionEnd := hl.symm
      rw [if_pos hbeg]
      refine ⟨⟨fun _ => hr, fun _ => hl.symm⟩, ?_⟩
      exact
        { current := h.current
          nodeCount := fun _ => .inl hl.symm
          listValid := fun hls' => absurd hls' hls
          cachedList := h.cachedList }
    · have hp : 0 < collection.elements.length := length_pos_iff.mpr hemp
      have hbeg : collection.collectionBegin ≠ collection.collectionEnd := Nat.ne_of_lt hp
      have happ : appendElements collection cache.cachedList collection.collectionBegin
          collection.elements.length = collection.elements := by
        rw [appendElements_eq _ (Nat.le_add_left _ _), hcch]
        rfl
      rw [if_neg hbeg, happ]
      refine ⟨⟨fun _ => hr, fun _ => rfl⟩, ?_⟩
      exact
        { current := h.current
          nodeCount := fun _ => .inl rfl
          listValid := fun _ => ⟨rfl, hemp⟩
          cachedList := (if_pos rfl).symm }

end CollectionIndexCache

/-! ## Runs -/

/-- A call of a client. The contents of the collection change together with `invalidate`. -/
inductive IndexCacheEvent (Node : Type*) where
  | nodeAt (index : Nat)
  | nodeCount
  | invalidate (elements : List Node)
  deriving DecidableEq

/-- What a call was answered, for the elements that the collection had then. -/
inductive IndexCacheAnswer (Node : Type*) where
  | nodeAt (collection : Collection Node) (index : Nat) (found : Found Node)
  | nodeCount (collection : Collection Node) (count : Nat)
  deriving DecidableEq

/-- The i-th element, null exactly when there is none, and the number of elements. -/
def IndexCacheAnswer.Right {Node : Type*} : IndexCacheAnswer Node → Prop
  | .nodeAt collection index found => found = collection.item index
  | .nodeCount collection count => count = collection.elements.length

/-- The collection has not been asked since it was created or changed; the last call comes first. -/
def Unasked {Node : Type*} : List (IndexCacheEvent Node) → Prop
  | [] => True
  | .invalidate _ :: _ => True
  | _ => False

/-- The first call since then looked up an index above 0, and the index 0 was not looked up after
it. -/
def Missed {Node : Type*} : List (IndexCacheEvent Node) → Prop
  | .nodeAt (_ + 1) :: calls => Unasked calls ∨ Missed calls
  | .nodeCount :: calls => Missed calls
  | _ => False

/-- A collection with its cache, and the calls and the answers so far, the last one first. -/
structure IndexCacheState (Node : Type*) where
  collection : Collection Node
  cache : CollectionIndexCache Node
  calls : List (IndexCacheEvent Node)
  answers : List (IndexCacheAnswer Node)
  deriving DecidableEq

namespace IndexCacheState

variable {Node : Type*}

def create (collection : Collection Node) : IndexCacheState Node where
  collection := collection
  cache := CollectionIndexCache.create collection
  calls := []
  answers := []

variable (s : IndexCacheState Node)

def step (event : IndexCacheEvent Node) : Option (IndexCacheState Node) :=
  let calls := event :: s.calls
  match event with
  | .nodeAt index =>
    let (found, cache) := s.cache.nodeAt s.collection index
    some { s with cache, calls, answers := .nodeAt s.collection index found :: s.answers }
  | .nodeCount =>
    let (count, cache) := s.cache.computeNodeCount s.collection
    some { s with cache, calls, answers := .nodeCount s.collection count :: s.answers }
  | .invalidate elements =>
    let collection := { s.collection with elements }
    some { s with collection, calls, cache := s.cache.invalidate collection }

/-- Every answer so far is right. -/
def AnswersRight : Prop := ∀ answer ∈ s.answers, answer.Right

/-- An empty collection is not counted after a lookup has missed in it. -/
def CountsUnmissed : IndexCacheEvent Node → Prop
  | .nodeCount => s.collection.elements = [] → ¬Missed s.calls
  | _ => True

/-- The cache agrees with the collection, and the calls tell the count it has of an empty one. -/
structure Known : Prop where
  agrees : s.cache.Agrees s.collection
  valid : s.collection.elements = [] → (s.cache.nodeCountValid ↔ ¬Unasked s.calls)
  missed : s.collection.elements = [] →
    (s.cache.nodeCountValid ∧ s.cache.nodeCount ≠ 0 ↔ Missed s.calls)

theorem create_known (collection : Collection Node) : (create collection).Known where
  agrees := CollectionIndexCache.create_agrees collection
  valid := fun _ => by simp [create, CollectionIndexCache.create, Unasked]
  missed := fun _ => by simp [create, CollectionIndexCache.create, Missed]

variable (event : IndexCacheEvent Node)

theorem step_known {s s' : IndexCacheState Node} (h : s.Known) (hst : s.step event = some s') :
    s'.Known := by
  cases event with
  | nodeAt index =>
    cases hst
    refine ⟨(h.agrees.nodeAt index).2, fun hemp => ?_, fun hemp => ?_⟩
    · exact iff_of_true (h.agrees.nodeAt_empty hemp).1 id
    · obtain ⟨hvld, hcnt⟩ := @CollectionIndexCache.Agrees.nodeAt_empty _ _ _ index h.agrees hemp
      refine (and_iff_right hvld).trans (hcnt.trans ?_)
      cases index with
      | zero => exact iff_of_false (fun hz => hz.1 rfl) id
      | succ index =>
        have hasked := h.valid hemp
        rw [and_iff_right index.succ_ne_zero, Missed, ← h.missed hemp]
        tauto
  | nodeCount =>
    cases hst
    refine ⟨h.agrees.computeNodeCount.2, fun hemp => ?_, fun hemp => ?_⟩
    · refine iff_of_true ?_ id
      show (s.cache.computeNodeCount s.collection).2.nodeCountValid = true
      rw [CollectionIndexCache.computeNodeCount]
      split
      · assumption
      · rfl
    · refine Iff.trans ?_ (h.missed hemp)
      show (s.cache.computeNodeCount s.collection).2.nodeCountValid = true ∧
        (s.cache.computeNodeCount s.collection).2.nodeCount ≠ 0 ↔ _
      rw [CollectionIndexCache.computeNodeCount]
      split
      · rfl
      · next hi =>
        have hend : s.collection.collectionBegin = s.collection.collectionEnd :=
          (congrArg length hemp).symm
        rw [CollectionIndexCache.computeNodeCountUpdatingListCache, if_pos hend]
        exact iff_of_false (fun hne => hne.2 rfl) (fun hvld => hi hvld.1)
  | invalidate elts =>
    cases hst
    exact ⟨CollectionIndexCache.invalidate_agrees _ _,
      fun _ => iff_of_false Bool.false_ne_true (not_not_intro trivial),
      fun _ => iff_of_false (fun hvld => Bool.false_ne_true hvld.1) id⟩

/-- A call keeps the answers right exactly when it is not the count after a miss. -/
theorem step_answersRight_iff {s s' : IndexCacheState Node}
    (h : s.Known) (hr : s.AnswersRight) (hst : s.step event = some s') :
    s'.AnswersRight ↔ s.CountsUnmissed event := by
  cases event with
  | nodeAt index =>
    cases hst
    refine ⟨fun _ => trivial, fun _ => ?_⟩
    exact forall_mem_cons.mpr ⟨(h.agrees.nodeAt index).1, hr⟩
  | nodeCount =>
    cases hst
    refine Iff.trans forall_mem_cons ((and_iff_left hr).trans (h.agrees.computeNodeCount.1.trans ?_))
    rw [not_and]
    exact forall_congr' fun hemp => not_congr (h.missed hemp)
  | invalidate elts =>
    cases hst
    exact ⟨fun _ => trivial, fun _ => hr⟩

/-- **The cache is transparent** in a run exactly when the run never counts an empty collection
after a lookup has missed in it, for any collection and any lookups, counts and changes. -/
theorem answers_right_iff (collection : Collection Node) (events : List (IndexCacheEvent Node)) :
    Runs.AllStates step AnswersRight (create collection) events ↔
      Runs.AllSteps step CountsUnmissed (create collection) events := by
  have hnone : (create collection).AnswersRight := fun answer hmem =>
    absurd hmem not_mem_nil
  exact Runs.allStates_iff_allSteps
    (fun s event s' h hstep => step_known event h hstep)
    (fun s event s' h hrgt hstep => step_answersRight_iff event h hrgt hstep)
    (create_known collection) hnone

/-- In an empty collection of which the index 1 is looked up, one element is counted. -/
theorem empty_collection_counted_one :
    ¬Runs.AllStates step AnswersRight (create (⟨[], false⟩ : Collection Unit))
      [.nodeAt 1, .nodeCount] := by
  intro hall
  have hrun : (Runs.run step (create (⟨[], false⟩ : Collection Unit))
      [.nodeAt 1, .nodeCount]).map answers
        = some [.nodeCount ⟨[], false⟩ 1, .nodeAt ⟨[], false⟩ 1 .null] := by decide
  obtain ⟨s, hs, hanswers⟩ := Option.map_eq_some_iff.mp hrun
  have hrgt : AnswersRight s := hall.last hs
  have hone : (1 : Nat) = ([] : List Unit).length :=
    hrgt (.nodeCount ⟨[], false⟩ 1) (by rw [hanswers]; exact mem_cons_self)
  exact absurd hone (by decide)

end IndexCacheState

end WebKit.Dom
