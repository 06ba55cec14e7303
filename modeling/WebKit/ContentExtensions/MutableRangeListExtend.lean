import WebKit.ContentExtensions.MutableRangeList
import Mathlib.Data.List.Nodup

/-!
# `MutableRangeList::extend` is an overlay

The links form one chain from element zero that visits every element once. The main loop of
`extend` splits it into the part it has passed and the part still to visit; each iteration does one
step of the overlay.
-/

namespace WebKit.ContentExtensions

open RangeOverlay List RangeVector

namespace RangeVector

variable {α β : Type}

/-! ## Chains -/

/-- The elements at these indices are linked one to the next, the last to `stop`. -/
def LinkedTo (ranges : List (MutableRange α)) : List Nat → Nat → Prop
  | [], _ => True
  | i :: rest, stop =>
    (∃ r, ranges[i]? = some r ∧ r.nextRangeIndex = rest.headD stop) ∧
      LinkedTo ranges rest stop

/-- The ranges at these indices. -/
def contents (ranges : List (MutableRange α)) (indices : List Nat) : List (Range α) :=
  indices.filterMap fun i => ranges[i]?.map MutableRange.toRange

/-- The links form one chain over the whole vector, from element zero. -/
structure Chain (ranges : List (MutableRange α)) (indices : List Nat) : Prop where
  linked : LinkedTo ranges indices 0
  nodup : indices.Nodup
  length : indices.length = ranges.length
  head : indices.headD 0 = 0

variable {ranges : List (MutableRange α)} {p q indices : List Nat} {stop i left : Nat}
  {st : LoopState α β} {active : MutableRange α}

theorem linkedTo_append :
    LinkedTo ranges (p ++ q) stop ↔ LinkedTo ranges p (q.headD stop) ∧ LinkedTo ranges q stop := by
  induction p with
  | nil => simp [LinkedTo]
  | cons i rest ih =>
    rw [cons_append, LinkedTo, LinkedTo, ih, and_assoc]
    have : (rest ++ q).headD stop = rest.headD (q.headD stop) := by
      cases rest <;> rfl
    rw [this]

theorem LinkedTo.get (h : LinkedTo ranges p stop) (hi : i ∈ p) : i < ranges.length := by
  induction p with
  | nil => cases hi
  | cons j rest ih =>
    obtain ⟨⟨r, hr, _⟩, hrest⟩ := h
    rcases mem_cons.mp hi with rfl | hi
    · exact (List.getElem?_eq_some_iff.mp hr).1
    · exact ih hrest hi

variable {ranges' : List (MutableRange α)}

theorem LinkedTo.congr (h : LinkedTo ranges p stop) (heq : ∀ i ∈ p,
    ranges'[i]?.map MutableRange.nextRangeIndex = ranges[i]?.map MutableRange.nextRangeIndex) :
    LinkedTo ranges' p stop := by
  induction p with
  | nil => trivial
  | cons j rest ih =>
    obtain ⟨⟨r, hr, hnx⟩, hrest⟩ := h
    obtain ⟨hj, hothers⟩ := forall_mem_cons.mp heq
    rw [hr, Option.map_some] at hj
    obtain ⟨r', hr', hlink⟩ := Option.map_eq_some_iff.mp hj
    exact ⟨⟨r', hr', hlink.trans hnx⟩, ih hrest hothers⟩

theorem contents_congr
    (heq : ∀ i ∈ p, ranges'[i]?.map MutableRange.toRange = ranges[i]?.map MutableRange.toRange) :
    contents ranges' p = contents ranges p := by
  induction p with
  | nil => rfl
  | cons j rest ih =>
    unfold contents at ih ⊢
    rw [filterMap_cons, filterMap_cons, heq j mem_cons_self, ih (forall_mem_cons.mp heq).2]

theorem contents_append (ranges : List (MutableRange α)) (p q : List Nat) :
    contents ranges (p ++ q) = contents ranges p ++ contents ranges q :=
  filterMap_append

variable {r : MutableRange α}

theorem contents_cons (h : ranges[i]? = some r) (q : List Nat) :
    contents ranges (i :: q) = r.toRange :: contents ranges q := by
  unfold contents
  rw [filterMap_cons, h]
  rfl

theorem Chain.not_mem_left (h : Chain ranges (p ++ i :: q)) : i ∉ p := by
  intro hi
  exact (nodup_append.mp h.nodup).2.2 i hi i mem_cons_self rfl

theorem Chain.not_mem_right (h : Chain ranges (p ++ i :: q)) : i ∉ q :=
  (nodup_cons.mp (nodup_append.mp h.nodup).2.1).1

theorem Chain.eq_nil_of_zero (h : Chain ranges (p ++ 0 :: q)) : p = [] := by
  cases p with
  | nil => rfl
  | cons j rest =>
    have hhd : j = 0 := h.head
    exact absurd (hhd ▸ mem_cons_self) h.not_mem_left

/-! ## Inserting and appending -/

theorem Chain.link {n lr : MutableRange α} {l : Nat} (h : Chain ranges (p ++ [l] ++ q))
    (hlr : ranges[l]? = some lr) (hnx : n.nextRangeIndex = q.headD 0)
    (hrgs' : (ranges ++ [n]).set l { lr with nextRangeIndex := ranges.length } = ranges') :
    Chain ranges' (p ++ [l] ++ [ranges.length] ++ q) ∧
      contents ranges' (p ++ [l] ++ [ranges.length]) = contents ranges (p ++ [l]) ++ [n.toRange] ∧
      ∀ j ∈ q, ranges'[j]? = ranges[j]? := by
  have hlt : ∀ j ∈ p ++ [l] ++ q, j < ranges.length := fun j hj => h.linked.get hj
  have hllt := hlt l (by simp)
  obtain ⟨hpn, -, hpq⟩ := nodup_append.mp h.nodup
  have hg : ∀ j, l ≠ j → j ∈ p ++ [l] ++ q → ranges'[j]? = ranges[j]? := by
    intro j hj hm
    rw [← hrgs', getElem?_set_ne hj, getElem?_append_left (hlt j hm)]
  have hnew : ranges'[ranges.length]? = some n := by
    rw [← hrgs', getElem?_set_ne (by omega), getElem?_concat_length]
  have hl : ranges'[l]? = some { lr with nextRangeIndex := ranges.length } := by
    rw [← hrgs', getElem?_set_self (by simp; omega)]
  have hpg : ∀ j ∈ p, ranges'[j]? = ranges[j]? := fun j hj =>
    hg j (fun hl => (nodup_append.mp hpn).2.2 j hj l (by simp) hl.symm) (by simp [hj])
  have hqg : ∀ j ∈ q, ranges'[j]? = ranges[j]? := fun j hj =>
    hg j (hpq l (by simp) j hj) (mem_append_right _ hj)
  obtain ⟨hpl, hq⟩ := linkedTo_append.mp h.linked
  refine ⟨⟨?_, ?_, ?_, ?_⟩, ?_, hqg⟩
  · refine linkedTo_append.mpr ⟨linkedTo_append.mpr ⟨linkedTo_append.mpr ⟨?_, ?_⟩, ?_⟩,
      hq.congr fun j hj => by rw [hqg j hj]⟩
    · exact (linkedTo_append.mp hpl).1.congr fun j hj => by rw [hpg j hj]
    · exact ⟨⟨_, hl, rfl⟩, trivial⟩
    · exact ⟨⟨_, hnew, hnx⟩, trivial⟩
  · rw [append_assoc, singleton_append, perm_middle.nodup_iff, nodup_cons]
    exact ⟨fun hm => Nat.lt_irrefl _ (hlt _ hm), h.nodup⟩
  · have hlen := h.length
    simp only [← hrgs', length_append, length_cons, length_nil, length_set] at hlen ⊢
    omega
  · have := h.head
    cases p <;> exact this
  · have hkp : contents ranges' p = contents ranges p := contents_congr fun j hj => by rw [hpg j hj]
    rw [contents_append, contents_cons hnew, contents_append, contents_append,
      contents_cons hl, contents_cons hlr, hkp]
    rfl

/-- Inserting before the element at `i`: the range ends the part of the chain before `i`. -/
theorem insertBetween_spec (h : Chain ranges (p ++ i :: q)) (hlf : p.getLastD 0 = left)
    (fst last : Nat) (data : α) :
    ∃ ranges' p' left' i', insertBetween ranges left i fst last data =
        some (ranges', left', i') ∧
      Chain ranges' (p' ++ i' :: q) ∧ p'.getLastD 0 = left' ∧
      contents ranges' p' = contents ranges p ++ [⟨fst, last, data⟩] ∧
      ranges'[i']? = ranges[i]? ∧ contents ranges' q = contents ranges q := by
  obtain ⟨hp, hiq⟩ := linkedTo_append.mp h.linked
  obtain ⟨⟨r, hr, hnx⟩, hq⟩ := hiq
  have hlt : ∀ j ∈ p ++ i :: q, j < ranges.length := fun j hj => h.linked.get hj
  have hilt : i < ranges.length := hlt i (by simp)
  have hl := h.length
  unfold insertBetween
  by_cases hi : i = 0
  · -- before element zero: that element moves to the end
    subst hi
    have hpn := h.eq_nil_of_zero
    subst hpn
    rw [if_pos rfl, hr]
    set moved := (ranges ++ [r]).set 0 ⟨data, ranges.length, fst, last⟩
    have hg : ∀ j ≠ 0, j < ranges.length → moved[j]? = ranges[j]? := by
      intro j hj hjlt
      exact (getElem?_set_ne (Ne.symm hj)).trans (getElem?_append_left hjlt)
    have hmv : moved[ranges.length]? = some r :=
      (getElem?_set_ne (by omega)).trans getElem?_concat_length
    have hz : moved[0]? = some ⟨data, ranges.length, fst, last⟩ := getElem?_set_self (by simp)
    have hqg : ∀ j ∈ q, moved[j]? = ranges[j]? := by
      intro j hj
      exact hg j (fun hj0 => h.not_mem_right (hj0 ▸ hj)) (hlt j (by simp [hj]))
    refine ⟨_, [0], 0, ranges.length, rfl, ⟨?_, ?_, ?_, rfl⟩, rfl, ?_, hmv, ?_⟩
    · exact ⟨⟨_, hz, rfl⟩, ⟨_, hmv, hnx⟩, hq.congr fun j hj => by rw [hqg j hj]⟩
    · refine (Perm.swap ranges.length 0 q).nodup_iff.mpr (nodup_cons.mpr ⟨fun hm => ?_, h.nodup⟩)
      exact Nat.lt_irrefl _ (hlt _ hm)
    · simp only [length_append, length_cons, length_nil, length_set] at hl ⊢
      omega
    · rw [contents_cons hz]
      rfl
    · exact contents_congr fun j hj => by rw [hqg j hj]
  · -- elsewhere: the element before it is linked to the new one
    obtain rfl | ⟨p₀, l, rfl⟩ := eq_nil_or_concat' p
    · exact absurd h.head hi
    rw [getLastD_concat] at hlf
    subst hlf
    obtain ⟨-, ⟨lr, hlr, -⟩, -⟩ := linkedTo_append.mp hp
    rw [if_neg hi, hlr]
    obtain ⟨hchn, hc, hg⟩ := h.link hlr (n := ⟨data, i, fst, last⟩) rfl rfl
    exact ⟨_, p₀ ++ [l] ++ [ranges.length], ranges.length, i, rfl, hchn, getLastD_concat ..,
      hc, hg i mem_cons_self,
      contents_congr fun j hj => by rw [hg j (mem_cons_of_mem _ hj)]⟩

theorem Chain.set (h : Chain ranges indices) (r' : MutableRange α) (hr : ranges[i]? = some r)
    (hnx : r'.nextRangeIndex = r.nextRangeIndex) :
    Chain (ranges.set i r') indices := by
  refine ⟨h.linked.congr fun j _ => ?_, h.nodup, h.length.trans (List.length_set ..).symm, h.head⟩
  by_cases hij : i = j
  · rw [← hij, getElem?_set_self (List.getElem?_eq_some_iff.mp hr).1, hr]
    exact congrArg some hnx
  · rw [getElem?_set_ne hij]

theorem contents_set_of_not_mem {r' : MutableRange α} (h : i ∉ indices) :
    contents (ranges.set i r') indices = contents ranges indices :=
  contents_congr fun j hj => by
    have hne : i ≠ j := fun hij => h (hij ▸ hj)
    rw [getElem?_set_ne hne]

theorem Chain.next (h : Chain ranges (p ++ i :: q)) :
    ∃ r, ranges[i]? = some r ∧ r.nextRangeIndex = q.headD 0 ∧
      (r.nextRangeIndex == 0) = q.isEmpty := by
  obtain ⟨⟨r, hr, hnx⟩, _⟩ := (linkedTo_append.mp h.linked).2
  refine ⟨r, hr, hnx, ?_⟩
  rw [hnx]
  cases q with
  | nil => rfl
  | cons j rest =>
    -- zero is the head of the whole chain, so it is not `j`
    have hj : j ≠ 0 := by
      rintro rfl
      have h' : Chain ranges ((p ++ [i]) ++ 0 :: rest) := by
        rwa [append_assoc, singleton_append]
      exact absurd h'.eq_nil_of_zero (by simp)
    exact beq_false_of_ne hj

/-! ## The main loop -/

/-- The other sequence, with what has been used of its first range cut off. -/
def trim (others : List (Range β)) (offset : Nat) : List (Range β) :=
  match others with
  | [] => []
  | o :: rest => ⟨o.first + offset, o.last, o.data⟩ :: rest

@[simp] theorem trim_zero (others : List (Range β)) : trim others 0 = others := by
  cases others <;> rfl

/-- The loop has passed the elements `p` of the chain and is at the first of `q`. -/
structure Loop (st : LoopState α β) (p q : List Nat) : Prop where
  chain : Chain st.ranges (p ++ q)
  left : p.getLastD 0 = st.lastSelfRangeIndex
  self : q.headD 0 = st.selfRangeIndex
  atEnd : st.reachedSelfEnd = q.isEmpty

variable (conv : DataConverter α β)

/-- What the loop is going to make of the list. -/
def outcome (st : LoopState α β) (p q : List Nat) :
    List (Range α) :=
  contents st.ranges p ++
    overlay conv.convert conv.extend (contents st.ranges q) (trim st.others st.otherRangeOffset)

theorem Loop.advanceSelf (h : Loop st p (i :: q)) (ha : st.ranges[i]? = some active) :
    Loop (st.advanceSelf active) (p ++ [i]) q := by
  obtain ⟨r, hr, hnx, he⟩ := h.chain.next
  rw [ha] at hr
  cases hr
  refine ⟨?_, ?_, hnx.symm, he⟩
  · show Chain st.ranges (p ++ [i] ++ q)
    rw [append_assoc, singleton_append]
    exact h.chain
  · rw [getLastD_concat]
    exact h.self

/-- The left part is split off: afterwards both ranges start at the same point. -/
theorem splitLeft_spec (other : Range β) (h : Loop st p (i :: q))
    (ha : st.ranges[i]? = some active) :
    ∃ st' p' i' active', splitLeft conv st active other = some st' ∧ Loop st' p' (i' :: q) ∧
      st'.ranges[i']? = some active' ∧ st'.others = st.others ∧
      other.first + st'.otherRangeOffset = max active.first (other.first + st.otherRangeOffset) ∧
      active'.toRange =
        ⟨max active.first (other.first + st.otherRangeOffset), active.last, active.data⟩ ∧
      contents st'.ranges p' = contents st.ranges p ++
        leftPart conv.convert active.toRange
          ⟨other.first + st.otherRangeOffset, other.last, other.data⟩ ∧
      contents st'.ranges q = contents st.ranges q := by
  have hsf : i = st.selfRangeIndex := h.self
  have he : st.reachedSelfEnd = false := h.atEnd
  have hlt := (List.getElem?_eq_some_iff.mp ha).1
  unfold splitLeft
  rcases Nat.lt_trichotomy active.first (other.first + st.otherRangeOffset) with h1 | h1 | h1
  · -- the range of this list starts first: it is cut in two
    rw [leftPart_of_lt (s := active.toRange)
      (o := ⟨other.first + st.otherRangeOffset, other.last, other.data⟩) h1, if_pos h1, ← hsf]
    have hchn := h.chain.set { active with
      first := other.first + st.otherRangeOffset } ha rfl
    obtain ⟨ranges', p', left', i', hins, hchn', hlf', hp', hi', hq'⟩ :=
      insertBetween_spec hchn h.left active.first (other.first + st.otherRangeOffset - 1)
        active.data
    rw [getElem?_set_self hlt] at hi'
    rw [contents_set_of_not_mem h.chain.not_mem_left] at hp'
    rw [contents_set_of_not_mem h.chain.not_mem_right] at hq'
    dsimp only
    rw [hins]
    refine ⟨_, p', i', _, rfl, ⟨hchn', hlf', rfl, he⟩, hi', rfl, ?_, ?_, hp', hq'⟩
    · show other.first + st.otherRangeOffset = _
      omega
    · show (⟨other.first + st.otherRangeOffset, active.last, active.data⟩ : Range α) = _
      rw [Nat.max_eq_right (Nat.le_of_lt h1)]
  · rw [leftPart_of_eq (s := active.toRange)
      (o := ⟨other.first + st.otherRangeOffset, other.last, other.data⟩) h1,
      if_neg (by omega), if_neg (by omega)]
    refine ⟨st, p, i, active, rfl, h, ha, rfl, by omega, ?_, (append_nil _).symm, rfl⟩
    rw [← h1, Nat.max_self]
    rfl
  · -- the other range starts first: its left part is inserted
    rw [leftPart_of_gt (s := active.toRange)
      (o := ⟨other.first + st.otherRangeOffset, other.last, other.data⟩) h1,
      if_neg (by omega), if_pos h1, ← hsf]
    obtain ⟨ranges', p', left', i', hins, hchn', hlf', hp', hi', hq'⟩ :=
      insertBetween_spec h.chain h.left (other.first + st.otherRangeOffset)
        (active.first - 1) (conv.convert other.data)
    rw [ha] at hi'
    rw [hins]
    refine ⟨{ st with
        ranges := ranges'
        lastSelfRangeIndex := left'
        selfRangeIndex := i'
        otherRangeOffset := active.first - other.first }, p', i', active, ?_,
      ⟨hchn', hlf', rfl, he⟩, hi', rfl, ?_, ?_, hp', hq'⟩
    · show (ranges'[i']?).bind _ = _
      rw [hi']
      rfl
    · show other.first + (active.first - other.first) = _
      omega
    · rw [Nat.max_eq_left (Nat.le_of_lt h1)]
      rfl

variable {rest : List (Range β)} {other : Range β}

theorem mergeIntersection_spec (h : Loop st p (i :: q))
    (ha : st.ranges[i]? = some active) (hots : st.others = other :: rest)
    (hs : other.first + st.otherRangeOffset = active.first)
    (hov : other.first ≤ active.last) :
    ∃ st' p' q', mergeIntersection conv st other = some st' ∧ Loop st' p' q' ∧
      q'.length + st'.others.length < (i :: q).length + st.others.length ∧
      contents st'.ranges p' = contents st.ranges p ++
        [⟨active.first, min active.last other.last, conv.extend active.data other.data⟩] ∧
      contents st'.ranges q' = rightOf active.toRange other.last (contents st.ranges q) ∧
      trim st'.others st'.otherRangeOffset =
        rightOf ⟨active.first, other.last, other.data⟩ active.last rest := by
  have hsf : i = st.selfRangeIndex := h.self
  have he : st.reachedSelfEnd = false := h.atEnd
  have hlt := (List.getElem?_eq_some_iff.mp ha).1
  have hlf := h.chain.not_mem_left
  have hr := h.chain.not_mem_right
  unfold mergeIntersection
  rw [← hsf, ha]
  dsimp only [Option.bind_eq_bind, Option.bind_some]
  -- the current range with the data of the other added to it
  set merged := { active with data := conv.extend active.data other.data }
  have hg : (st.ranges.set i merged)[i]? = some merged := getElem?_set_self hlt
  have hlp : ∀ others otherRangeOffset, Loop ({ st with
      ranges := st.ranges.set i merged, others, selfRangeIndex := i, otherRangeOffset } :
      LoopState α β) p (i :: q) :=
    fun _ _ => ⟨h.chain.set merged ha rfl, h.left, rfl, he⟩
  have hpass : active.last ≤ other.last → contents (st.ranges.set i merged) (p ++ [i]) =
      contents st.ranges p ++ [⟨active.first, min active.last other.last, merged.data⟩] := by
    intro hle
    rw [contents_append, contents_cons hg, contents_set_of_not_mem hlf, Nat.min_eq_left hle]
    rfl
  rcases Nat.lt_trichotomy active.last other.last with hls | hls | hls
  · -- the other range ends later: its rest stays for the next range
    rw [if_neg (by omega), if_neg (by omega),
      rightOf_of_le (r := active.toRange) (Nat.le_of_lt hls), rightOf_of_lt
        (r := ⟨active.first, other.last, other.data⟩) hls]
    refine ⟨_, p ++ [i], q, rfl, (hlp _ _).advanceSelf hg, ?_, hpass (Nat.le_of_lt hls),
      contents_set_of_not_mem hr, ?_⟩
    · show q.length + st.others.length < _
      rw [length_cons]
      omega
    · show trim st.others (active.last - other.first + 1) = _
      rw [hots]
      show (⟨other.first + (active.last - other.first + 1), other.last, other.data⟩ : Range β) ::
        rest = _
      have : other.first + (active.last - other.first + 1) = active.last + 1 := by omega
      rw [this]
  · -- both end together
    rw [if_pos hls, rightOf_of_le (r := active.toRange) (Nat.le_of_eq hls),
      rightOf_of_le (r := ⟨active.first, other.last, other.data⟩) (Nat.le_of_eq hls.symm)]
    have hnx := (hlp st.others.tail 0).advanceSelf hg
    refine ⟨_, p ++ [i], q, rfl, hnx, ?_, hpass (Nat.le_of_eq hls), contents_set_of_not_mem hr, ?_⟩
    · show q.length + st.others.tail.length < _
      rw [hots, tail_cons, length_cons, length_cons]
      omega
    · show trim st.others.tail 0 = _
      rw [hots, tail_cons, trim_zero]
  · -- the range of this list ends later: a merged range goes before what is left of it
    rw [if_neg (by omega), if_pos hls, rightOf_of_lt (r := active.toRange) hls,
      rightOf_of_le (r := ⟨active.first, other.last, other.data⟩) (Nat.le_of_lt hls)]
    have hchn := h.chain.set { active with first := other.last + 1 } ha rfl
    obtain ⟨ranges', p', left', i', hins, hchn', hlf', hp', hi', hq'⟩ :=
      insertBetween_spec hchn h.left active.first other.last (conv.extend active.data other.data)
    rw [getElem?_set_self hlt] at hi'
    rw [contents_set_of_not_mem hlf] at hp'
    rw [contents_set_of_not_mem hr] at hq'
    rw [hins]
    refine ⟨_, p', i' :: q, rfl, ⟨hchn', hlf', rfl, he⟩, ?_, ?_, ?_, ?_⟩
    · show (i' :: q).length + st.others.tail.length < _
      rw [hots, tail_cons, length_cons, length_cons, length_cons]
      omega
    · rw [Nat.min_eq_right (Nat.le_of_lt hls)]
      exact hp'
    · show contents ranges' (i' :: q) = _
      rw [contents_cons hi', hq']
      rfl
    · show trim st.others.tail 0 = _
      rw [hots, tail_cons, trim_zero]

/-- **Step.** An iteration does not change the result of the loop, and there is less to do. -/
theorem extendStep_spec (h : Loop st p (i :: q)) (hots : st.others = other :: rest) :
    ∃ st' p' q', extendStep conv st other = some st' ∧ Loop st' p' q' ∧
      q'.length + st'.others.length < (i :: q).length + st.others.length ∧
      outcome conv st' p' q' = outcome conv st p (i :: q) := by
  have hsf : i = st.selfRangeIndex := h.self
  have he : st.reachedSelfEnd = false := h.atEnd
  obtain ⟨active, ha, _, _⟩ := h.chain.next
  have htr : trim st.others st.otherRangeOffset =
      ⟨other.first + st.otherRangeOffset, other.last, other.data⟩ :: rest := by
    rw [hots]
    rfl
  unfold extendStep outcome
  rw [← hsf, ha, htr, contents_cons ha, overlay]
  dsimp only [Option.bind_eq_bind, Option.bind_some]
  by_cases h1 : active.last < other.first + st.otherRangeOffset
  · -- nothing in common yet: the range of this list is passed
    rw [if_pos h1, if_pos (show active.toRange.last < _ from h1)]
    refine ⟨_, p ++ [i], q, rfl, h.advanceSelf ha, ?_, ?_⟩
    · show q.length + st.others.length < _
      rw [length_cons]
      omega
    · show contents st.ranges (p ++ [i]) ++
        overlay _ _ (contents st.ranges q) (trim st.others st.otherRangeOffset) = _
      rw [contents_append, contents_cons ha, htr, append_assoc]
      rfl
  · rw [if_neg h1, if_neg (show ¬ active.toRange.last < _ from h1)]
    by_cases h2 : other.last < active.first
    · -- the whole other range goes before the range of this list
      rw [if_pos h2, if_pos (show _ < active.toRange.first from h2)]
      obtain ⟨ranges', p', left', i', hins, hchn', hlf', hp', hi', hq'⟩ :=
        insertBetween_spec h.chain h.left (other.first + st.otherRangeOffset) other.last
          (conv.convert other.data)
      rw [ha] at hi'
      rw [hins]
      refine ⟨_, p', i' :: q, rfl, ⟨hchn', hlf', rfl, he⟩, ?_, ?_⟩
      · show (i' :: q).length + st.others.tail.length < _
        rw [hots, tail_cons, length_cons, length_cons, length_cons]
        omega
      · show contents ranges' p' ++ overlay _ _ (contents ranges' (i' :: q))
          (trim st.others.tail 0) = _
        rw [hp', contents_cons hi', hq', hots, tail_cons, trim_zero, append_assoc]
        rfl
    · -- the two ranges collide
      rw [if_neg h2, if_neg (show ¬ _ < active.toRange.first from h2)]
      obtain ⟨st₁, p₁, i₁, active₁, hspl, hloop₁, ha₁, hots₁, hoff₁, hact₁, hp₁, hq₁⟩ :=
        splitLeft_spec conv other h ha
      have hfst : active₁.first = max active.first (other.first + st.otherRangeOffset) :=
        congrArg Range.first hact₁
      have hls : active₁.last = active.last := congrArg Range.last hact₁
      have hdt : active₁.data = active.data := congrArg Range.data hact₁
      rw [hspl]
      obtain ⟨st₂, p₂, q₂, hmr, hloop₂, hl₂, hp₂, hq₂, htr₂⟩ :=
        mergeIntersection_spec conv hloop₁ ha₁ (hots₁.trans hots) (hoff₁.trans hfst.symm) (by omega)
      refine ⟨st₂, p₂, q₂, hmr, hloop₂, ?_, ?_⟩
      · rw [hots₁] at hl₂
        exact hl₂
      · rw [hp₂, hp₁, hq₂, hq₁, htr₂, hact₁, hfst, hls, hdt, append_assoc, append_assoc]
        rfl

/-- **Run.** With enough iterations the loop ends, at the end of one of the two
sequences. -/
theorem extendLoop_spec (fuel : Nat) (h : Loop st p q) (hfl : q.length + st.others.length < fuel) :
    ∃ st' p' q', extendLoop conv fuel st = some st' ∧ Loop st' p' q' ∧
      (q' = [] ∨ st'.others = []) ∧ outcome conv st' p' q' = outcome conv st p q := by
  induction fuel generalizing st p q with
  | zero => omega
  | succ fuel ih =>
    unfold extendLoop
    cases q with
    | nil =>
      have he : st.reachedSelfEnd = true := h.atEnd
      rw [if_pos he]
      exact ⟨st, p, [], rfl, h, .inl rfl, rfl⟩
    | cons i q =>
      have he : st.reachedSelfEnd = false := h.atEnd
      rw [if_neg (by rw [he]; exact Bool.false_ne_true)]
      cases hots : st.others with
      | nil => exact ⟨st, p, i :: q, rfl, h, .inr hots, rfl⟩
      | cons other rest =>
        obtain ⟨st₁, p₁, q₁, hst, hlp₁, hl₁, ho₁⟩ := extendStep_spec conv h hots
        obtain ⟨st', p', q', hr, hlp', hdn, ho'⟩ := ih hlp₁ (by omega)
        refine ⟨st', p', q', ?_, hlp', hdn, ho'.trans ho₁⟩
        show (extendStep conv st other).bind _ = _
        rw [hst]
        exact hr

theorem appendRange_spec (h : Chain ranges p) (hlf : p.getLastD 0 = left) (fst last : Nat)
    (data : α) :
    ∃ ranges' left', appendRange ranges left fst last data = some (ranges', left') ∧
      Chain ranges' (p ++ [left']) ∧
      contents ranges' (p ++ [left']) = contents ranges p ++ [⟨fst, last, data⟩] := by
  unfold appendRange
  obtain rfl | ⟨p₀, l, rfl⟩ := eq_nil_or_concat' p
  · -- the first range of all
    obtain rfl : ranges = [] := length_eq_zero_iff.mp h.length.symm
    exact ⟨_, 0, rfl, ⟨⟨⟨_, rfl, rfl⟩, trivial⟩, nodup_singleton 0, rfl, rfl⟩, rfl⟩
  · rw [getLastD_concat] at hlf
    subst hlf
    obtain ⟨-, ⟨lr, hlr, -⟩, -⟩ := linkedTo_append.mp h.linked
    rw [if_neg (by simp [← h.length]), hlr]
    rw [← append_nil (p₀ ++ [l])] at h
    obtain ⟨hchn, hc, -⟩ := h.link hlr (n := ⟨data, 0, fst, last⟩) rfl rfl
    rw [append_nil] at hchn
    exact ⟨_, ranges.length, rfl, hchn, hc⟩

variable (convert : β → α) (ots : List (Range β))

theorem appendAll_spec (off : Nat) (h : Chain ranges p) (hlf : p.getLastD 0 = left) :
    ∃ ranges' p', appendAll convert ranges left ots off = some ranges' ∧
      Chain ranges' p' ∧ contents ranges' p' = contents ranges p ++
        (trim ots off).map fun o => ⟨o.first, o.last, convert o.data⟩ := by
  induction ots generalizing ranges p left off with
  | nil => exact ⟨ranges, p, rfl, h, (append_nil _).symm⟩
  | cons o rest ih =>
    obtain ⟨ranges₁, left₁, happ, hchn₁, hcn₁⟩ :=
      appendRange_spec h hlf (o.first + off) o.last (convert o.data)
    obtain ⟨ranges', p', ha, hchn', hcn'⟩ := ih 0 hchn₁ (getLastD_concat ..)
    refine ⟨ranges', p', ?_, hchn', ?_⟩
    · show (appendRange ranges left (o.first + off) o.last (convert o.data)).bind _ = _
      rw [happ]
      exact ha
    · rw [hcn', hcn₁, trim_zero, append_assoc]
      rfl

theorem getElem?_initializeFrom (i : Nat) : (initializeFrom convert ots)[i]? = ots[i]?.map fun o =>
      ⟨convert o.data, if i + 1 = ots.length then 0 else i + 1, o.first, o.last⟩ := by
  unfold initializeFrom
  rw [getElem?_mapIdx]

theorem initializeFrom_spec :
    Chain (initializeFrom convert ots) (List.range ots.length) ∧
      contents (initializeFrom convert ots) (List.range ots.length) =
        ots.map fun o => ⟨o.first, o.last, convert o.data⟩ := by
  -- from element `k` on, with `m` elements left
  have key : ∀ m k, k + m = ots.length →
      LinkedTo (initializeFrom convert ots) (List.range' k m) 0 ∧
        contents (initializeFrom convert ots) (List.range' k m) =
          (ots.drop k).map fun o => ⟨o.first, o.last, convert o.data⟩ := by
    intro m
    induction m with
    | zero =>
      intro k hk
      rw [drop_eq_nil_of_le (by omega)]
      exact ⟨trivial, rfl⟩
    | succ m ih =>
      intro k hk
      have hlt : k < ots.length := by omega
      obtain ⟨hln, hcn⟩ := ih (k + 1) (by omega)
      have hg := getElem?_initializeFrom convert ots k
      rw [getElem?_eq_getElem hlt] at hg
      rw [range'_succ]
      refine ⟨⟨⟨_, hg, ?_⟩, hln⟩, ?_⟩
      · show (if k + 1 = ots.length then 0 else k + 1) = (List.range' (k + 1) m).headD 0
        cases m with
        | zero => rw [if_pos hk]; rfl
        | succ m => rw [if_neg (by omega)]; rfl
      · rw [contents_cons hg, hcn, drop_eq_getElem_cons hlt]
        rfl
  obtain ⟨hln, hcn⟩ := key ots.length 0 (Nat.zero_add _)
  rw [range_eq_range']
  refine ⟨⟨hln, nodup_range', ?_, ?_⟩, hcn⟩
  · unfold initializeFrom
    rw [length_range', length_mapIdx]
  · cases ots.length <;> rfl

/-- **`extend` is the overlay**: no access fails, and the list is the overlay of the two sequences.
-/
theorem extend_spec (h : Chain ranges indices) (others : List (Range β)) :
    ∃ ranges' indices', extend conv ranges others = some ranges' ∧ Chain ranges' indices' ∧
      contents ranges' indices' =
        overlay conv.convert conv.extend (contents ranges indices) others := by
  unfold extend
  cases others with
  | nil => exact ⟨ranges, indices, rfl, h, (overlay_nil_right _).symm⟩
  | cons other rest =>
    rw [if_neg (by simp)]
    cases indices with
    | nil =>
      obtain rfl : ranges = [] := length_eq_zero_iff.mp h.length.symm
      obtain ⟨hchn, hcn⟩ := initializeFrom_spec conv.convert (other :: rest)
      refine ⟨_, _, rfl, hchn, ?_⟩
      rw [hcn]
      show _ = overlay _ _ [] _
      rw [overlay]
    | cons i q =>
      have hne : ranges ≠ [] := by
        rintro rfl
        cases h.length
      rw [if_neg (by simpa using hne)]
      have hlp : Loop (⟨ranges, 0, 0, false, other :: rest, 0⟩ : LoopState α β) [] (i :: q) :=
        ⟨h, rfl, h.head, rfl⟩
      obtain ⟨st', p', q', hrun, hlp', hdn, ho⟩ :=
        extendLoop_spec conv (ranges.length + (other :: rest).length + 1) hlp
          (h.length ▸ Nat.lt_succ_self _)
      rw [hrun]
      have ho : contents st'.ranges p' ++ overlay conv.convert conv.extend
          (contents st'.ranges q') (trim st'.others st'.otherRangeOffset) =
            overlay conv.convert conv.extend (contents ranges (i :: q)) (other :: rest) := ho
      rcases hdn with rfl | hnil
      · -- the end of this list: the rest is appended
        have hchn' := hlp'.chain
        rw [append_nil] at hchn'
        obtain ⟨ranges'', p'', happ, hchn'', hcn''⟩ :=
          appendAll_spec conv.convert st'.others st'.otherRangeOffset hchn' hlp'.left
        refine ⟨ranges'', p'', happ, hchn'', ?_⟩
        rw [hcn'', ← ho]
        congr 1
        show _ = overlay _ _ [] _
        rw [overlay]
      · -- the end of the other sequence
        refine ⟨st'.ranges, p' ++ q', ?_, hlp'.chain, ?_⟩
        · show appendAll conv.convert st'.ranges _ st'.others _ = _
          rw [hnil]
          rfl
        rw [contents_append, ← ho, hnil]
        show _ = _ ++ overlay _ _ _ []
        rw [overlay_nil_right]

theorem iterate_eq (h : Chain ranges (p ++ i :: q)) (fuel : Nat) (hfl : q.length < fuel) :
    iterate ranges fuel i = contents ranges (i :: q) := by
  induction fuel generalizing p i q with
  | zero => omega
  | succ fuel ih =>
    obtain ⟨r, hr, hnx, he⟩ := h.next
    unfold iterate
    rw [hr, contents_cons hr]
    dsimp only
    congr 1
    cases q with
    | nil => rw [if_pos (by simpa using he)]; rfl
    | cons j q =>
      rw [if_neg (by simpa using he), hnx]
      have h' : Chain ranges ((p ++ [i]) ++ j :: q) := by
        rwa [append_assoc, singleton_append]
      exact ih h' (by simpa using hfl)

theorem iterate_eq_contents {indices : List Nat} (h : Chain ranges indices) {fuel : Nat}
    (hfl : ranges.length ≤ fuel) : iterate ranges fuel 0 = contents ranges indices := by
  have hl := h.length
  cases indices with
  | nil =>
    obtain rfl : ranges = [] := length_eq_zero_iff.mp hl.symm
    cases fuel <;> rfl
  | cons i q =>
    have hi : i = 0 := h.head
    subst hi
    exact iterate_eq (p := []) h _ (by rw [length_cons] at hl; omega)

end RangeVector

/-- `MutableRangeList`: a vector of ranges whose links form one chain. -/
structure MutableRangeList (α : Type) where
  ranges : List (MutableRange α)
  chained : ∃ indices, RangeVector.Chain ranges indices

namespace MutableRangeList

variable {α β : Type}

/-- A list that has been cleared. -/
def empty : MutableRangeList α :=
  ⟨[], [], trivial, nodup_nil, rfl, rfl⟩

variable (l : MutableRangeList α)

/-- The ranges in the order of the iterator. -/
def toList : List (Range α) :=
  RangeVector.iterate l.ranges l.ranges.length 0

theorem toList_eq_contents {indices : List Nat} (h : RangeVector.Chain l.ranges indices) :
    l.toList = contents l.ranges indices :=
  iterate_eq_contents h (Nat.le_refl _)

theorem extend_isSome (conv : DataConverter α β) (l : MutableRangeList α)
    (ots : List (Range β)) : (extend conv l.ranges ots).isSome := by
  obtain ⟨indices, h⟩ := l.chained
  obtain ⟨ranges', indices', hext, _⟩ := extend_spec conv h ots
  rw [hext]
  rfl

def extend (conv : DataConverter α β) (l : MutableRangeList α) (others : List (Range β)) :
    MutableRangeList α where
  ranges := (RangeVector.extend conv l.ranges others).get (extend_isSome conv l others)
  chained := by
    obtain ⟨indices, h⟩ := l.chained
    obtain ⟨ranges', indices', hext, hchain, _⟩ := RangeVector.extend_spec conv h others
    exact ⟨indices', by simpa only [hext, Option.get_some] using hchain⟩

/-- **`extend` is the overlay** of the list and the other sequence. -/
@[simp] theorem toList_extend (conv : DataConverter α β) (l : MutableRangeList α)
    (others : List (Range β)) :
    (l.extend conv others).toList = overlay conv.convert conv.extend l.toList others := by
  obtain ⟨indices, h⟩ := l.chained
  obtain ⟨ranges', indices', hext, hchn, hcn⟩ := extend_spec conv h others
  have hrgs : (extend conv l others).ranges = ranges' := by
    unfold extend
    simp only [hext, Option.get_some]
  rw [toList_eq_contents _ (hrgs ▸ hchn), hrgs, hcn, toList_eq_contents l h]

/-! ## Lists built by `extend` -/

theorem iterate_eq_toList {fuel : Nat} (hfl : l.ranges.length ≤ fuel) :
    iterate l.ranges fuel 0 = l.toList := by
  obtain ⟨indices, h⟩ := l.chained
  rw [toList_eq_contents l h]
  exact iterate_eq_contents h hfl

/-- A list after calls of `extend`, each with a sorted sequence and a converter of its own. -/
inductive Built (α : Type) : Type 1
  | empty
  | extend {β : Type} (l : Built α) (conv : DataConverter α β)
      (others : { others : List (Range β) // Sorted others })

def Built.list : Built α → MutableRangeList α
  | empty => .empty
  | extend l conv others => l.list.extend conv others.val

theorem Built.sorted (l : Built α) : Sorted l.list.toList := by
  induction l with
  | empty => exact ⟨forall_mem_nil _, Pairwise.nil⟩
  | extend l conv ots ih =>
    rw [list, toList_extend]
    exact overlay_sorted _ _ ih ots.property

/-- **`extend` is the pointwise merge.** It ends without an access outside the vector, the iterator
visits sorted ranges, and each character has the combination of what it had in the two sequences. -/
theorem extend_merges (l : Built α) (conv : DataConverter α β)
    (others : { others : List (Range β) // Sorted others }) :
    ∃ l' : MutableRangeList α, RangeVector.extend conv l.list.ranges others.val = some l'.ranges ∧
      (∀ fuel ≥ l'.ranges.length, RangeVector.iterate l'.ranges fuel 0 = l'.toList) ∧
      Sorted l'.toList ∧ ∀ c, find l'.toList c =
        match find l.list.toList c, find others.val c with
        | some a, some b => some (conv.extend a b)
        | some a, none => some a
        | none, some b => some (conv.convert b)
        | none, none => none := by
  refine ⟨l.list.extend conv others.val, (Option.some_get _).symm,
    fun _ hfuel => iterate_eq_toList _ hfuel, (l.extend conv others).sorted, fun c => ?_⟩
  rw [toList_extend, find_overlay _ _ l.sorted others.property]
  cases find l.list.toList c <;> cases find others.val c <;> rfl

end MutableRangeList

end WebKit.ContentExtensions
