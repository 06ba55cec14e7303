import WebKit.Lib.Runs
import Mathlib.Algebra.Ring.Nat
import Mathlib.Algebra.Ring.Int.Defs
import Mathlib.Data.List.AList
import Mathlib.Data.Finset.Insert

/-!
# Document markers

`DocumentMarkerController` keeps, for each node, a list of markers: intervals of offsets with a
type, sorted by their start. Intervals of one type that overlap or touch are merged when a marker
is added, and cut when markers are removed from a range.

Three things go wrong. A marker that is added inside another one of its type cuts its end off. What
is left of a marker after the removed range is put in front of markers that start before it. And
the end of the removed range may wrap around.

The build is without the dictation markers of iOS.
-/

namespace WebKit.Dom

open List

inductive MarkerType
  | spelling | grammar | textMatch | replacement | correctionIndicator | rejectedCorrection
  | autocorrected | spellCheckingExemption | deletedAutocorrection | dictationAlternatives
  | telephoneNumber
  deriving DecidableEq

/-- The types of the bits that are set in the mask. -/
abbrev MarkerTypes := Finset MarkerType

structure DocumentMarker where
  type : MarkerType
  startOffset : Nat
  endOffset : Nat
  deriving DecidableEq

abbrev MarkerList := List DocumentMarker

namespace MarkerList

/-- The first loop of `addMarker`: the markers before the new one, the new one, and those after it.
-/
def findPlace (toInsert : DocumentMarker) : MarkerList → MarkerList × DocumentMarker × MarkerList
  | [] => ([], toInsert, [])
  | marker :: rest =>
    if toInsert.startOffset < marker.startOffset then ([], toInsert, marker :: rest)
    else if marker.type = toInsert.type ∧ toInsert.startOffset ≤ marker.endOffset then
      ([], { toInsert with startOffset := marker.startOffset }, rest)
    else
      let (before, inserted, after) := findPlace toInsert rest
      (marker :: before, inserted, after)

/-- The second loop of `addMarker`. -/
def absorb (toInsert : DocumentMarker) : MarkerList → DocumentMarker × MarkerList
  | [] => (toInsert, [])
  | marker :: rest =>
    if toInsert.endOffset < marker.startOffset then (toInsert, marker :: rest)
    else if marker.type = toInsert.type then
      if toInsert.endOffset ≤ marker.endOffset then
        ({ toInsert with endOffset := marker.endOffset }, rest)
      else absorb toInsert rest
    else
      let (inserted, after) := absorb toInsert rest
      (inserted, marker :: after)

def add (newMarker : DocumentMarker) (list : MarkerList) : MarkerList :=
  let (before, toInsert, after) := findPlace newMarker list
  let (inserted, after) := absorb toInsert after
  before ++ inserted :: after

/-- What is left of a marker without the range. -/
def slices (startOffset endOffset : Nat) (marker : DocumentMarker) : MarkerList :=
  (if marker.startOffset < startOffset then [{ marker with endOffset := startOffset }] else []) ++
    if endOffset < marker.endOffset then [{ marker with startOffset := endOffset }] else []

/-- The loop of `removeMarkers`. -/
def removeLoop (types : MarkerTypes) (startOffset endOffset : Nat) (removePartially : Bool) :
    MarkerList → MarkerList
  | [] => []
  | marker :: rest =>
    if endOffset ≤ marker.startOffset then marker :: rest
    else if marker.endOffset ≤ startOffset ∨ marker.type ∉ types then
      marker :: removeLoop types startOffset endOffset removePartially rest
    else if removePartially then removeLoop types startOffset endOffset removePartially rest
    else
      slices startOffset endOffset marker ++
        removeLoop types startOffset endOffset removePartially rest

end MarkerList

structure DocumentMarkerController (Node : Type) where
  markers : AList fun _ : Node => MarkerList
  possiblyExistingMarkerTypes : MarkerTypes

inductive MarkerCall (Node : Type)
  | addMarker (node : Node) (newMarker : DocumentMarker)
  | removeMarkers (node : Node) (startOffset : Nat) (length : Int) (types : MarkerTypes)
      (removePartially : Bool)

namespace DocumentMarkerController

variable {Node : Type}

def initial : DocumentMarkerController Node := ⟨∅, ∅⟩

def possiblyHasMarkers (c : DocumentMarkerController Node) (types : MarkerTypes) : Prop :=
  ∃ type ∈ types, type ∈ c.possiblyExistingMarkerTypes

instance (c : DocumentMarkerController Node) (types : MarkerTypes) :
    Decidable (c.possiblyHasMarkers types) :=
  inferInstanceAs (Decidable (∃ _ ∈ types, _))

variable [DecidableEq Node]

def addMarker (c : DocumentMarkerController Node) (node : Node) (newMarker : DocumentMarker) :
    DocumentMarkerController Node :=
  if newMarker.endOffset = newMarker.startOffset then c
  else
    { markers := c.markers.insert node
        (match c.markers.lookup node with
          | none => [newMarker]
          | some list => MarkerList.add newMarker list)
      possiblyExistingMarkerTypes := insert newMarker.type c.possiblyExistingMarkerTypes }

/-- The end of `removeMarkers`. -/
def setMarkers (c : DocumentMarkerController Node) (node : Node) (list : MarkerList) :
    DocumentMarkerController Node :=
  if list = [] then
    { markers := c.markers.erase node
      possiblyExistingMarkerTypes :=
        if (c.markers.erase node).entries = [] then ∅ else c.possiblyExistingMarkerTypes }
  else { c with markers := c.markers.insert node list }

def removeMarkers (c : DocumentMarkerController Node) (node : Node) (startOffset : Nat)
    (length : Int) (types : MarkerTypes) (removePartially : Bool) :
    DocumentMarkerController Node :=
  if length ≤ 0 ∨ ¬c.possiblyHasMarkers types then c
  else
    match c.markers.lookup node with
    | none => c
    | some list =>
      -- the end is an `unsigned`
      c.setMarkers node (list.removeLoop types startOffset
        ((startOffset + length.toNat) % 2 ^ 32) removePartially)

/-- Offsets are `unsigned`, and a marker does not end before it starts. -/
def step (c : DocumentMarkerController Node) :
    MarkerCall Node → Option (DocumentMarkerController Node)
  | .addMarker node newMarker =>
    if newMarker.startOffset ≤ newMarker.endOffset ∧ newMarker.endOffset < 2 ^ 32 then
      some (c.addMarker node newMarker)
    else none
  | .removeMarkers node startOffset length types removePartially =>
    if startOffset < 2 ^ 32 ∧ length < 2 ^ 31 then
      some (c.removeMarkers node startOffset length types removePartially)
    else none

def markersFor (c : DocumentMarkerController Node) (node : Node) : MarkerList :=
  (c.markers.lookup node).getD []

end DocumentMarkerController

/-! ## Interval sets -/

def DocumentMarker.Covers (m : DocumentMarker) (type : MarkerType) (x : Nat) : Prop :=
  m.type = type ∧ m.startOffset ≤ x ∧ x < m.endOffset

/-- The markers of one type do not overlap or touch. -/
def DocumentMarker.Apart (a b : DocumentMarker) : Prop :=
  a.type = b.type → a.endOffset < b.startOffset ∨ b.endOffset < a.startOffset

instance (m : DocumentMarker) (type : MarkerType) (x : Nat) : Decidable (m.Covers type x) :=
  inferInstanceAs (Decidable (_ ∧ _))

namespace MarkerList

/-- An offset that is covered by a type. -/
def Covers (l : MarkerList) (type : MarkerType) (x : Nat) : Prop := ∃ m ∈ l, m.Covers type x

instance (l : MarkerList) (type : MarkerType) (x : Nat) : Decidable (Covers l type x) :=
  inferInstanceAs (Decidable (∃ m ∈ l, _))

def Sorted (l : MarkerList) : Prop := l.Pairwise fun a b => a.startOffset ≤ b.startOffset

structure Intervals (l : MarkerList) : Prop where
  sorted : l.Sorted
  apart : l.Pairwise DocumentMarker.Apart

def Nonempty (l : MarkerList) : Prop := ∀ m ∈ l, m.startOffset < m.endOffset

open DocumentMarker

variable {l rest before after : MarkerList} {m n new : DocumentMarker} {type : MarkerType} {x : Nat}

theorem covers_nil : ¬Covers [] type x := by simp [Covers]

theorem covers_cons : Covers (m :: l) type x ↔ m.Covers type x ∨ Covers l type x := by
  simp [Covers]

theorem covers_append :
    Covers (before ++ after) type x ↔ Covers before type x ∨ Covers after type x := by
  simp [Covers, or_and_right, exists_or]

theorem pairwise_middle {R : DocumentMarker → DocumentMarker → Prop}
    (h : (before ++ after).Pairwise R) (hbef : ∀ b ∈ before, R b m)
    (haft : ∀ a ∈ after, R m a) : (before ++ m :: after).Pairwise R := by
  obtain ⟨hb, ha, hcrs⟩ := pairwise_append.mp h
  exact pairwise_append.mpr ⟨hb, pairwise_cons.mpr ⟨haft, ha⟩, fun b hm =>
    forall_mem_cons.mpr ⟨hbef b hm, hcrs b hm⟩⟩

theorem Intervals.ends (h : Intervals (m :: rest)) (hne : Nonempty (m :: rest)) (hn : n ∈ rest)
    (hty : m.type = n.type) : m.endOffset < n.startOffset := by
  have hs := rel_of_pairwise_cons h.sorted hn
  have he := hne n (mem_cons_of_mem m hn)
  rcases rel_of_pairwise_cons h.apart hn hty with hlt | hlt
  · exact hlt
  · omega

theorem Intervals.sublist (h : Intervals l) (hs : rest.Sublist l) : Intervals rest :=
  ⟨h.sorted.sublist hs, h.apart.sublist hs⟩

theorem Nonempty.sublist (h : Nonempty l) (hs : rest.Sublist l) : Nonempty rest :=
  fun n hn => h n (hs.subset hn)

theorem Intervals.tail (h : Intervals (m :: rest)) : Intervals rest :=
  h.sublist (sublist_cons_self m rest)

theorem Nonempty.tail (h : Nonempty (m :: rest)) : Nonempty rest :=
  h.sublist (sublist_cons_self m rest)

/-! ## Added markers -/

/-- The place of the new marker. If a marker of its type is there, the new one takes its start. -/
structure Place (new : DocumentMarker) (l before : MarkerList) (n : DocumentMarker)
    (after : MarkerList) : Prop where
  type : n.type = new.type
  endOffset : n.endOffset = new.endOffset
  start_le : n.startOffset ≤ new.startOffset
  earlier : ∀ b ∈ before, b.startOffset ≤ n.startOffset ∧
    (b.type = new.type → b.endOffset < n.startOffset)
  later : ∀ a ∈ after, n.startOffset ≤ a.startOffset
  found : (n = new ∧ l = before ++ after ∧ ∀ a ∈ after, new.startOffset < a.startOffset) ∨
    ∃ m, l = before ++ m :: after ∧ m.type = new.type ∧ m.startOffset = n.startOffset ∧
      new.startOffset ≤ m.endOffset ∧ ∀ a ∈ after, a.type = new.type → m.endOffset < a.startOffset

theorem findPlace_spec (new : DocumentMarker) (h : Intervals l) (hne : Nonempty l) :
    Place new l (findPlace new l).1 (findPlace new l).2.1 (findPlace new l).2.2 := by
  induction l with
  | nil => exact ⟨rfl, rfl, le_rfl, forall_mem_nil _, forall_mem_nil _,
      .inl ⟨rfl, rfl, forall_mem_nil _⟩⟩
  | cons m rest ih =>
    have hle : ∀ a ∈ rest, m.startOffset ≤ a.startOffset := fun a ha =>
      rel_of_pairwise_cons h.sorted ha
    rw [findPlace]
    split_ifs with hlt htch
    · have haft : ∀ a ∈ m :: rest, new.startOffset < a.startOffset :=
        forall_mem_cons.mpr ⟨hlt, fun a ha => hlt.trans_le (hle a ha)⟩
      exact ⟨rfl, rfl, le_rfl, by simp, fun a ha => le_of_lt (haft a ha), .inl ⟨rfl, rfl, haft⟩⟩
    · exact ⟨rfl, rfl, not_lt.mp hlt, by simp, hle, .inr ⟨m, rfl, htch.1, rfl, htch.2,
        fun a ha hty => h.ends hne ha (htch.1.trans hty.symm)⟩⟩
    · have hp := ih h.tail hne.tail
      have hm : m.startOffset ≤ (findPlace new rest).2.1.startOffset ∧
          (m.type = new.type → m.endOffset < (findPlace new rest).2.1.startOffset) := by
        rcases hp.found with ⟨heq, _⟩ | ⟨k, hk, hty, hs, _⟩
        · rw [heq]
          exact ⟨not_lt.mp hlt, fun hty => not_le.mp fun hle => htch ⟨hty, hle⟩⟩
        have hmem : k ∈ rest := by
          rw [hk]
          simp
        rw [← hs]
        exact ⟨hle k hmem, fun hm => h.ends hne hmem (hm.trans hty.symm)⟩
      refine ⟨hp.type, hp.endOffset, hp.start_le,
        forall_mem_cons.mpr ⟨hm, hp.earlier⟩, hp.later, ?_⟩
      rcases hp.found with ⟨heq, hl, haft⟩ | ⟨k, hk, hrest⟩
      · exact .inl ⟨heq, congrArg (m :: ·) hl, haft⟩
      · exact .inr ⟨k, congrArg (m :: ·) hk, hrest⟩

/-- The marker grows to the right. -/
structure Grown (n : DocumentMarker) (l : MarkerList) (n' : DocumentMarker) (l' : MarkerList) :
    Prop where
  type : n'.type = n.type
  startOffset : n'.startOffset = n.startOffset
  endOffset : n.endOffset ≤ n'.endOffset
  sublist : l'.Sublist l
  apart : ∀ a ∈ l', a.type = n.type → n'.endOffset < a.startOffset
  covers : ∀ type x, n'.Covers type x ∨ Covers l' type x ↔ n.Covers type x ∨ Covers l type x

theorem absorb_spec (h : Intervals l) (hne : Nonempty l)
    (hle : ∀ a ∈ l, n.startOffset ≤ a.startOffset) :
    Grown n l (absorb n l).1 (absorb n l).2 := by
  induction l with
  | nil => exact ⟨rfl, rfl, le_rfl, .refl _, forall_mem_nil _, fun _ _ => Iff.rfl⟩
  | cons m rest ih =>
    have hm := hle m mem_cons_self
    have hrest := ih h.tail hne.tail fun a ha => hle a (mem_cons_of_mem m ha)
    rw [absorb]
    split_ifs with hlt hty he
    · refine ⟨rfl, rfl, le_rfl, .refl _, fun a ha _ => ?_, fun _ _ => Iff.rfl⟩
      rcases mem_cons.mp ha with rfl | ha
      · exact hlt
      · exact hlt.trans_le (rel_of_pairwise_cons h.sorted ha)
    · refine ⟨rfl, rfl, he, sublist_cons_self m rest,
        fun a ha heq => h.ends hne ha (hty.trans heq.symm), fun type x => ?_⟩
      rw [covers_cons, ← or_assoc]
      refine or_congr_left ?_
      simp only [DocumentMarker.Covers, hty, ← and_or_left]
      exact and_congr_right fun _ => by omega
    · refine ⟨hrest.type, hrest.startOffset, hrest.endOffset, hrest.sublist.cons m, hrest.apart,
        fun type x => (hrest.covers type x).trans ?_⟩
      rw [covers_cons, ← or_assoc]
      refine or_congr_left ?_
      simp only [DocumentMarker.Covers, hty, ← and_or_left]
      exact and_congr_right fun _ => by omega
    · refine ⟨hrest.type, hrest.startOffset, hrest.endOffset, hrest.sublist.cons_cons m,
        forall_mem_cons.mpr ⟨fun heq => (hty heq).elim, hrest.apart⟩, fun type x => ?_⟩
      rw [covers_cons, covers_cons, or_left_comm, hrest.covers, or_left_comm]

/-- The list after a marker is added. -/
structure Added (new : DocumentMarker) (l l' : MarkerList) : Prop where
  intervals : Intervals l'
  nonempty : Nonempty l'
  types : ∀ m ∈ l', m.type = new.type ∨ ∃ k ∈ l, k.type = m.type
  covers : (∀ type x, Covers l' type x ↔ Covers l type x ∨ new.Covers type x) ↔
    ∀ n ∈ l, n.type = new.type → n.startOffset ≤ new.startOffset → n.endOffset ≤ new.endOffset

theorem Place.sublist (h : Place new l before n after) : (before ++ after).Sublist l := by
  rcases h.found with ⟨_, rfl, _⟩ | ⟨m, rfl, _⟩
  · exact .refl _
  · exact (List.Sublist.refl before).append (sublist_cons_self m after)

/-- Nothing is lost at the place exactly if the marker that was there does not end later. -/
theorem Place.covers (h : Place new l before n after) (hnew : new.startOffset < new.endOffset) :
    (∀ type x, Covers before type x ∨ n.Covers type x ∨ Covers after type x ↔
      Covers l type x ∨ new.Covers type x) ↔
      ∀ k ∈ l, k.type = new.type → k.startOffset ≤ new.startOffset →
        k.endOffset ≤ new.endOffset := by
  have hs := h.start_le
  have hbef : ∀ k ∈ before, k.type = new.type → k.endOffset < new.startOffset :=
    fun k hk hty => lt_of_lt_of_le ((h.earlier k hk).2 hty) hs
  rcases h.found with ⟨rfl, rfl, haft⟩ | ⟨m, rfl, hty, hm, htch, haft⟩
  · refine iff_of_true (fun type x => ?_) fun k hk hty hle => ?_
    · rw [covers_append, or_assoc, or_comm (a := Covers after type x)]
    · rcases mem_append.mp hk with hk | hk
      · exact le_of_lt (lt_trans (hbef k hk hty) hnew)
      · exact absurd hle (not_le.mpr (haft k hk))
  · constructor
    · intro hall k hk hkt hle
      rcases mem_append.mp hk with hk | hk
      · exact le_of_lt (lt_trans (hbef k hk hkt) hnew)
      rcases mem_cons.mp hk with rfl | hk
      · -- the end of the new marker was covered
        by_contra hlt
        rcases (hall new.type new.endOffset).mpr (.inl ⟨k, by simp, hty, by omega, by omega⟩) with
          ⟨b, hb, hc⟩ | hc | ⟨a, ha, hc⟩
        · have := hbef b hb hc.1
          have := hc.2.2
          omega
        · have := h.endOffset
          have := hc.2.2
          omega
        · have := haft a ha hc.1
          have := hc.2.1
          omega
      · have := haft k hk hkt
        omega
    · intro hall type x
      have he := hall m (by simp) hty (by omega)
      have hn : n.Covers type x ↔ m.Covers type x ∨ new.Covers type x := by
        simp only [DocumentMarker.Covers, h.type, h.endOffset, hty, ← and_or_left]
        exact and_congr_right fun _ => by omega
      rw [covers_append, covers_cons, hn]
      tauto

/-- **Added markers.** The list stays an interval set, and what is covered is right exactly if
the new marker is not inside of another one of its type that ends later. -/
theorem add_spec (h : Intervals l) (hne : Nonempty l) (hnew : new.startOffset < new.endOffset) :
    Added new l (add new l) := by
  have hp := findPlace_spec new h hne
  have haft : (findPlace new l).2.2.Sublist l := (sublist_append_right ..).trans hp.sublist
  have hgrw := absorb_spec (h.sublist haft) (hne.sublist haft) hp.later
  have hs := (List.Sublist.refl (findPlace new l).1).append hgrw.sublist |>.trans hp.sublist
  have hmem : ∀ m ∈ add new l,
      m = (absorb (findPlace new l).2.1 (findPlace new l).2.2).1 ∨ m ∈ l := by
    exact forall_mem_append.mpr ⟨fun m hm => .inr (hs.subset (mem_append_left _ hm)),
      fun m hm => (mem_cons.mp hm).imp_right fun hm => hs.subset (mem_append_right _ hm)⟩
  refine ⟨⟨pairwise_middle (h.sublist hs).sorted (fun b hb => ?_) (fun a ha => ?_),
    pairwise_middle (h.sublist hs).apart (fun b hb hty => .inl ?_) (fun a ha hty => .inl ?_)⟩,
    fun m hm => ?_, fun m hm => ?_, Iff.trans ?_ (hp.covers hnew)⟩
  · rw [hgrw.startOffset]
    exact (hp.earlier b hb).1
  · rw [hgrw.startOffset]
    exact hp.later a (hgrw.sublist.subset ha)
  · rw [hgrw.startOffset]
    exact (hp.earlier b hb).2 (hty.trans (hgrw.type.trans hp.type))
  · exact hgrw.apart a ha (hty.symm.trans hgrw.type)
  · rcases hmem m hm with rfl | hm
    · have := hp.start_le
      have := hp.endOffset
      have := hgrw.startOffset
      have := hgrw.endOffset
      omega
    · exact hne m hm
  · rcases hmem m hm with rfl | hm
    · exact .inl (hgrw.type.trans hp.type)
    · exact .inr ⟨m, hm, rfl⟩
  · refine forall₂_congr fun type x => iff_congr ?_ Iff.rfl
    rw [add, covers_append, covers_cons, hgrw.covers]

/-! ## Removed ranges -/

variable {types : MarkerTypes} {start stop : Nat} {removePartially : Bool}

theorem mem_slices : n ∈ slices start stop m ↔
    (m.startOffset < start ∧ n = { m with endOffset := start }) ∨
      (stop < m.endOffset ∧ n = { m with startOffset := stop }) := by
  rw [slices, mem_append]
  split_ifs <;> simp [*]

/-- A nonempty part of a marker. -/
abbrev PartOf (n m : DocumentMarker) : Prop :=
  n.type = m.type ∧ m.startOffset ≤ n.startOffset ∧ n.endOffset ≤ m.endOffset ∧
    n.startOffset < n.endOffset

theorem partOf_of_mem_slices (hs : m.startOffset < stop) (he : start < m.endOffset)
    (h : n ∈ slices start stop m) : PartOf n m := by
  rcases mem_slices.mp h with ⟨hlt, rfl⟩ | ⟨hlt, rfl⟩
  · exact ⟨rfl, le_rfl, he.le, hlt⟩
  · exact ⟨rfl, hs.le, le_rfl, hlt⟩

theorem covers_slices (hs : m.startOffset < stop) (he : start < m.endOffset) :
    Covers (slices start stop m) type x ↔ m.Covers type x ∧ ¬(start ≤ x ∧ x < stop) := by
  by_cases hty : m.type = type
  · rw [slices, covers_append]
    split_ifs <;> simp only [covers_cons, covers_nil, DocumentMarker.Covers, hty, true_and,
      or_false, false_or, false_iff] <;> omega
  · refine iff_of_false ?_ fun h => hty h.1.1
    rintro ⟨n, hn, hc⟩
    exact hty ((partOf_of_mem_slices hs he hn).1.symm.trans hc.1)

theorem mem_removeLoop (hne : Nonempty l) (h : n ∈ removeLoop types start stop removePartially l) :
    ∃ m ∈ l, PartOf n m := by
  induction l with
  | nil => cases h
  | cons m rest ih =>
    have hsf := hne m mem_cons_self
    have hrest : n ∈ removeLoop types start stop removePartially rest →
        ∃ k ∈ m :: rest, PartOf n k := fun h =>
      (ih hne.tail h).imp fun k hk => ⟨mem_cons_of_mem m hk.1, hk.2⟩
    rw [removeLoop] at h
    split_ifs at h with hst hsk
    · exact ⟨n, h, rfl, le_rfl, le_rfl, hne n h⟩
    · rcases mem_cons.mp h with rfl | h
      · exact ⟨n, mem_cons_self, rfl, le_rfl, le_rfl, hsf⟩
      · exact hrest h
    · exact hrest h
    · rcases mem_append.mp h with h | h
      · exact ⟨m, mem_cons_self, partOf_of_mem_slices (by omega) (by omega) h⟩
      · exact hrest h

theorem sublist_removeLoop : (removeLoop types start stop true l).Sublist l := by
  induction l with
  | nil => exact .refl _
  | cons m rest ih =>
    rw [removeLoop, if_pos rfl]
    split_ifs
    · exact .refl _
    · exact ih.cons_cons m
    · exact ih.cons m

theorem covers_removeLoop (h : Sorted l) : Covers (removeLoop types start stop false l) type x ↔
    Covers l type x ∧ ¬(type ∈ types ∧ start ≤ x ∧ x < stop) := by
  induction l with
  | nil => simp [removeLoop, covers_nil]
  | cons m rest ih =>
    have ih := ih h.of_cons
    rw [removeLoop]
    split_ifs with hst hsk hfl
    · refine (and_iff_left_of_imp fun ⟨k, hk, hc⟩ => ?_).symm
      have hk' : stop ≤ k.startOffset := by
        rcases mem_cons.mp hk with rfl | hk
        · exact hst
        · exact hst.trans (rel_of_pairwise_cons h hk)
      have := hc.2.1
      omega
    · rw [covers_cons, covers_cons, ih, or_and_right]
      refine or_congr_left (and_iff_left_of_imp fun hc => ?_).symm
      rintro ⟨hls, hx, _⟩
      rcases hsk with he | hsk
      · have := hc.2.2
        omega
      · exact hsk (hc.1 ▸ hls)
    · cases hfl
    · rw [not_or, not_not] at hsk
      rw [covers_append, covers_cons, ih, covers_slices (by omega) (by omega), or_and_right]
      refine or_congr_left (and_congr_right fun hc => ?_)
      simp [← hc.1, hsk.2]

theorem apart_removeLoop (hlt : start < stop) (hne : Nonempty l) (h : l.Pairwise Apart) :
    (removeLoop types start stop false l).Pairwise Apart := by
  induction l with
  | nil => exact .nil
  | cons m rest ih =>
    have ih := ih hne.tail h.of_cons
    have hcrs : ∀ a, PartOf a m → ∀ b ∈ removeLoop types start stop false rest, a.Apart b := by
      rintro a ⟨ha, _⟩ b hb hty
      obtain ⟨k, hk, hkt, _⟩ := mem_removeLoop hne.tail hb
      have := rel_of_pairwise_cons h hk (ha.symm.trans (hty.trans hkt))
      omega
    rw [removeLoop]
    split_ifs with hst hsk hfl
    · exact h
    · exact .cons (hcrs m ⟨rfl, le_rfl, le_rfl, hne m mem_cons_self⟩) ih
    · cases hfl
    · refine pairwise_append.mpr ⟨?_, ih, fun a ha => ?_⟩
      · unfold slices
        split_ifs <;> simp [Apart, hlt]
      · exact hcrs a (partOf_of_mem_slices (by omega) (by omega) ha)

theorem starts_removeLoop (hne : Nonempty l) (h : Sorted l) :
    (∀ k ∈ removeLoop types start stop false l, stop ≤ k.startOffset) ↔
      ∀ n ∈ l, n.startOffset < stop → n.type ∈ types ∧ start ≤ n.startOffset := by
  induction l with
  | nil => simp [removeLoop]
  | cons m rest ih =>
    have hsf := hne m mem_cons_self
    rw [removeLoop]
    split_ifs with hst hsk hfl
    · have ha : ∀ k ∈ m :: rest, stop ≤ k.startOffset := forall_mem_cons.mpr
        ⟨hst, fun k hk => hst.trans (rel_of_pairwise_cons h hk)⟩
      exact iff_of_true ha fun n hn hlt => absurd (ha n hn) (not_le.mpr hlt)
    · refine iff_of_false (fun ha => hst (ha m mem_cons_self)) fun ha => ?_
      obtain ⟨hls, hle⟩ := ha m mem_cons_self (not_le.mp hst)
      rcases hsk with he | hsk
      · omega
      · exact hsk hls
    · cases hfl
    · rw [not_or, not_not] at hsk
      rw [forall_mem_append, forall_mem_cons, ih hne.tail h.of_cons]
      refine and_congr_left fun _ => ?_
      unfold slices
      split_ifs <;> simp [hsk.2] <;> omega

/-- No marker is cut in front of one that starts before the end of the range. -/
def KeepsOrder (types : MarkerTypes) (start stop : Nat) (l : MarkerList) : Prop :=
  l.Pairwise fun m n => m.type ∈ types → stop < m.endOffset → n.startOffset < stop →
    n.type ∈ types ∧ start ≤ n.startOffset

theorem sorted_removeLoop (hlt : start < stop) (hne : Nonempty l) (h : Sorted l) :
    Sorted (removeLoop types start stop false l) ↔ KeepsOrder types start stop l := by
  induction l with
  | nil => exact iff_of_true .nil .nil
  | cons m rest ih =>
    have hle : ∀ k ∈ removeLoop types start stop false rest, m.startOffset ≤ k.startOffset := by
      intro k hk
      obtain ⟨n, hn, _, hs, _⟩ := mem_removeLoop hne.tail hk
      exact le_trans (rel_of_pairwise_cons h hn) hs
    have hsts := @starts_removeLoop rest types start stop hne.tail h.of_cons
    rw [removeLoop, KeepsOrder, pairwise_cons]
    split_ifs with hst hsk hfl
    · refine iff_of_true h ⟨fun n hn _ _ hn' => ?_, ?_⟩
      · have := rel_of_pairwise_cons h hn
        omega
      · refine h.of_cons.imp_of_mem fun _ hn _ _ _ hn' => ?_
        have := rel_of_pairwise_cons h hn
        omega
    · rw [Sorted, pairwise_cons, and_iff_right hle]
      refine (ih hne.tail h.of_cons).trans (and_iff_right fun n hn hls he => ?_).symm
      rcases hsk with hsk | hsk
      · omega
      · exact absurd hls hsk
    · cases hfl
    · rw [not_or, not_not] at hsk
      have hsl : (slices start stop m).Pairwise fun a b => a.startOffset ≤ b.startOffset := by
        unfold slices
        split_ifs <;> simp
        omega
      rw [Sorted, pairwise_append, and_iff_right hsl, and_comm]
      refine and_congr ?_ (ih hne.tail h.of_cons)
      simp only [hsk.2, forall_const]
      constructor
      · intro hall n hn he
        exact hsts.mp (hall _ (mem_slices.mpr (.inr ⟨he, rfl⟩))) n hn
      · intro hall a ha k hk
        rcases mem_slices.mp ha with ⟨_, rfl⟩ | ⟨he, rfl⟩
        · exact hle k hk
        · exact hsts.mpr (fun n hn => hall n hn he) k hk

theorem removeLoop_eq_self (h : ∀ m ∈ l, m.type ∈ types → m.endOffset ≤ start) :
    removeLoop types start stop removePartially l = l := by
  induction l with
  | nil => rfl
  | cons m rest ih =>
    have hsk : m.endOffset ≤ start ∨ m.type ∉ types :=
      Decidable.or_iff_not_imp_right.mpr fun hls =>
        h m mem_cons_self (Decidable.not_not.mp hls)
    rw [removeLoop, if_pos hsk, ih fun n hn => h n (mem_cons_of_mem m hn), ite_self]

/-- **Removed ranges.** The markers are cut right exactly if the end of the range does not wrap
around, or nothing is to be cut, and no marker is cut in front of one that starts before the end of
the range. -/
theorem removeLoop_iff (h : Intervals l) (hne : Nonempty l) (hb : ∀ m ∈ l, m.endOffset < 2 ^ 32)
    {length : Nat} (hp : 0 < length) (hl : length < 2 ^ 31) :
    (Intervals (removeLoop types start ((start + length) % 2 ^ 32) false l) ∧
      ∀ type x, Covers (removeLoop types start ((start + length) % 2 ^ 32) false l) type x ↔
        Covers l type x ∧ ¬(type ∈ types ∧ start ≤ x ∧ x < start + length)) ↔
      (∀ m ∈ l, m.type ∈ types → start < m.endOffset → start + length < 2 ^ 32) ∧
        KeepsOrder types start (start + length) l := by
  by_cases hft : start + length < 2 ^ 32
  · rw [Nat.mod_eq_of_lt hft, and_iff_left fun type x => covers_removeLoop h.sorted,
      and_iff_right fun _ _ _ _ => hft, ← sorted_removeLoop (by omega) hne h.sorted]
    exact ⟨Intervals.sorted, fun hs => ⟨hs, apart_removeLoop (by omega) hne h.apart⟩⟩
  -- the end wraps around
  have hord : KeepsOrder types start (start + length) l := by
    refine h.sorted.imp_of_mem fun hm _ _ _ he => ?_
    have := hb _ hm
    omega
  rw [and_iff_left hord]
  constructor
  · rintro ⟨_, hc⟩ m hm hls he
    have hx := hc m.type (m.endOffset - 1)
    have hsf := hne m hm
    have hle := hb m hm
    rw [covers_removeLoop h.sorted] at hx
    exact ((hx.mp ⟨⟨m, hm, rfl, by omega, by omega⟩, by omega⟩).2 ⟨hls, by omega, by omega⟩).elim
  · intro ha
    have hno : ∀ m ∈ l, m.type ∈ types → m.endOffset ≤ start := fun m hm hls =>
      not_lt.mp fun hlt => hft (ha m hm hls hlt)
    rw [removeLoop_eq_self hno]
    refine ⟨h, fun type x => (and_iff_left_of_imp ?_).symm⟩
    rintro ⟨m, hm, rfl, _, hx⟩ ⟨hls, hx', _⟩
    have := hno m hm hls
    omega

end MarkerList

/-! ## Calls -/

namespace DocumentMarkerController

open MarkerList

variable {Node : Type} [DecidableEq Node]

/-- What a call does to the offsets that are covered. -/
def Effect (c c' : DocumentMarkerController Node) : MarkerCall Node → Prop
  | .addMarker node newMarker => ∀ type x, Covers (c'.markersFor node) type x ↔
      Covers (c.markersFor node) type x ∨ newMarker.Covers type x
  | .removeMarkers node startOffset length types false => ∀ type x,
      Covers (c'.markersFor node) type x ↔ Covers (c.markersFor node) type x ∧
        ¬(type ∈ types ∧ startOffset ≤ x ∧ x < startOffset + length.toNat)
  | .removeMarkers .. => True

/-- The call leaves interval sets, and has its effect. -/
def Right (c : DocumentMarkerController Node) (call : MarkerCall Node) : Prop :=
  ∀ c', c.step call = some c' → (∀ node, Intervals (c'.markersFor node)) ∧ Effect c c' call

/-- The calls that are right. -/
def Meets (c : DocumentMarkerController Node) : MarkerCall Node → Prop
  | .addMarker node newMarker => newMarker.startOffset < newMarker.endOffset →
      ∀ n ∈ c.markersFor node, n.type = newMarker.type → n.startOffset ≤ newMarker.startOffset →
        n.endOffset ≤ newMarker.endOffset
  | .removeMarkers node startOffset length types false => 0 < length →
      (∀ m ∈ c.markersFor node, m.type ∈ types → startOffset < m.endOffset →
        startOffset + length.toNat < 2 ^ 32) ∧
        KeepsOrder types startOffset (startOffset + length.toNat) (c.markersFor node)
  | .removeMarkers .. => True

/-- The markers of a node. -/
structure ListInv (types : MarkerTypes) (l : MarkerList) : Prop where
  intervals : Intervals l
  nonempty : Nonempty l
  bound : ∀ m ∈ l, m.endOffset < 2 ^ 32
  types : ∀ m ∈ l, m.type ∈ types

def Inv (c : DocumentMarkerController Node) : Prop :=
  ∀ node, ListInv c.possiblyExistingMarkerTypes (c.markersFor node)

variable {c : DocumentMarkerController Node} {node other : Node} {startOffset : Nat} {length : Int}
  {types : MarkerTypes} {removePartially : Bool} {newMarker : DocumentMarker}

theorem markersFor_addMarker (hne : newMarker.endOffset ≠ newMarker.startOffset) :
    (c.addMarker node newMarker).markersFor other = if other = node then
      MarkerList.add newMarker (c.markersFor node) else c.markersFor other := by
  rw [addMarker, if_neg hne, markersFor]
  split_ifs with heq
  · rw [heq, AList.lookup_insert, markersFor]
    cases c.markers.lookup node <;> rfl
  · rw [AList.lookup_insert_ne heq]
    rfl

theorem markersFor_setMarkers {list : MarkerList} : (c.setMarkers node list).markersFor other =
    if other = node then list else c.markersFor other := by
  by_cases heq : other = node
  · subst heq
    by_cases hemp : list = [] <;> simp [setMarkers, markersFor, hemp]
  · by_cases hemp : list = [] <;> simp [setMarkers, markersFor, hemp, heq,
      AList.lookup_erase_ne heq, AList.lookup_insert_ne heq]

theorem removeMarkers_eq (h : c.Inv) (hp : 0 < length) :
    let list := removeLoop types startOffset ((startOffset + length.toNat) % 2 ^ 32)
      removePartially (c.markersFor node)
    let c' := c.removeMarkers node startOffset length types removePartially
    c' = c.setMarkers node list ∨ (c' = c ∧ list = c.markersFor node) := by
  intro list c'
  rw [show c' = _ from removeMarkers.eq_1 ..]
  split_ifs with her
  · have hno := her.resolve_left (Int.not_le.mpr hp)
    exact .inr ⟨rfl, removeLoop_eq_self fun m hm hls =>
      (hno ⟨m.type, hls, (h node).types m hm⟩).elim⟩
  · cases hlku : c.markers.lookup node with
    | none => exact .inr ⟨rfl, by simp [list, markersFor, hlku, removeLoop]⟩
    | some l => exact .inl (by simp only [list, markersFor, hlku, Option.getD_some])

theorem markersFor_removeMarkers (h : c.Inv) (hp : 0 < length) (other : Node) :
    (c.removeMarkers node startOffset length types removePartially).markersFor other =
      if other = node then removeLoop types startOffset ((startOffset + length.toNat) % 2 ^ 32)
        removePartially (c.markersFor node) else c.markersFor other := by
  rcases removeMarkers_eq h hp with heq | ⟨heq, hsf⟩
  · rw [heq, markersFor_setMarkers]
  · rw [heq, hsf]
    split_ifs with hnd
    · rw [hnd]
    · rfl

theorem mask_removeMarkers (h : c.Inv) (hp : 0 < length) (other : Node) :
    (c.removeMarkers node startOffset length types removePartially).possiblyExistingMarkerTypes =
        c.possiblyExistingMarkerTypes ∨
      (c.removeMarkers node startOffset length types removePartially).markersFor other = [] := by
  rcases removeMarkers_eq h hp with heq | ⟨heq, _⟩
  · rw [heq, setMarkers]
    split_ifs with hemp hno
    · have hlku : (c.markers.erase node).lookup other = none := by
        rw [AList.lookup, hno]
        rfl
      exact .inr (by simp [markersFor, hlku])
    · exact .inl rfl
    · exact .inl rfl
  · exact .inl (by rw [heq])

variable {c' : DocumentMarkerController Node} {call : MarkerCall Node}

theorem right_of_step (hst : c.step call = some c') :
    c.Right call ↔ (∀ node, Intervals (c'.markersFor node)) ∧ Effect c c' call :=
  ⟨fun h => h c' hst, fun h _ hd => Option.some.inj (hst.symm.trans hd) ▸ h⟩

/-- The call is right if it meets its condition, and keeps the invariant if it is right. -/
def Spec (c c' : DocumentMarkerController Node) (call : MarkerCall Node) : Prop :=
  (c.Right call ↔ c.Meets call) ∧ (c.Right call → c'.Inv)

theorem addMarker_spec (h : c.Inv) (hst : c.step (.addMarker node newMarker) = some c') :
    Spec c c' (.addMarker node newMarker) := by
  rw [Spec, right_of_step hst]
  simp only [step] at hst
  split_ifs at hst with hvld
  cases hst
  by_cases hemp : newMarker.endOffset = newMarker.startOffset
  · rw [addMarker, if_pos hemp]
    refine ⟨iff_of_true ⟨fun n => (h n).intervals, fun type x => (or_iff_left ?_).symm⟩ ?_,
      fun _ => h⟩
    · rintro ⟨_, _, _⟩
      omega
    · intro hlt
      omega
  have hlt : newMarker.startOffset < newMarker.endOffset := by omega
  have ha := add_spec (h node).intervals (h node).nonempty hlt
  constructor
  · rw [and_iff_right fun n => ?_]
    · simp only [Effect, Meets, markersFor_addMarker hemp, if_true, hlt, forall_const]
      exact ha.covers
    · rw [markersFor_addMarker hemp]
      split_ifs
      · exact ha.intervals
      · exact (h n).intervals
  · rintro ⟨hiv, hef⟩ other
    have hms : (c.addMarker node newMarker).possiblyExistingMarkerTypes =
        insert newMarker.type c.possiblyExistingMarkerTypes := by rw [addMarker, if_neg hemp]
    by_cases heq : other = node
    · subst heq
      have hli : (c.addMarker other newMarker).markersFor other =
          MarkerList.add newMarker (c.markersFor other) := by
        rw [markersFor_addMarker hemp, if_pos rfl]
      refine ⟨hiv other, hli ▸ ha.nonempty, fun m hm => ?_, fun m hm => ?_⟩
      · -- the last offset of the marker is one of the old or the new ones
        have hls := ha.nonempty m (hli ▸ hm)
        rcases (hef m.type (m.endOffset - 1)).mp ⟨m, hm, rfl, by omega, by omega⟩ with
          ⟨k, hk, _, _, hlt⟩ | ⟨_, _, hlt⟩
        · have := (h other).bound k hk
          omega
        · omega
      · rw [hms, Finset.mem_insert]
        rcases ha.types m (hli ▸ hm) with hty | ⟨k, hk, hty⟩
        · exact .inl hty
        · exact .inr (hty ▸ (h other).types k hk)
    · rw [markersFor_addMarker hemp, if_neg heq, hms]
      exact { h other with types := fun m hm => Finset.mem_insert_of_mem ((h other).types m hm) }

theorem removeMarkers_spec (h : c.Inv)
    (hst : c.step (.removeMarkers node startOffset length types removePartially) = some c') :
    Spec c c' (.removeMarkers node startOffset length types removePartially) := by
  rw [Spec, right_of_step hst]
  simp only [step] at hst
  split_ifs at hst with hvld
  cases hst
  by_cases hp : 0 < length
  · constructor
    · have ha : ∀ {list : MarkerList}, (∀ n, Intervals (if n = node then list
          else c.markersFor n)) ↔ Intervals list := by
        refine ⟨fun ha => by simpa using ha node, fun hnd n => ?_⟩
        split_ifs
        · exact hnd
        · exact (h n).intervals
      cases removePartially with
      | true =>
        simp only [markersFor_removeMarkers h hp, ha]
        exact iff_of_true ⟨(h node).intervals.sublist sublist_removeLoop, trivial⟩ trivial
      | false =>
        simp only [Effect, Meets, markersFor_removeMarkers h hp, ha, if_true, hp, forall_const]
        exact removeLoop_iff (h node).intervals (h node).nonempty (h node).bound (by omega)
          (by omega)
    · rintro ⟨hiv, _⟩ other
      have hli : ∀ m ∈ (c.removeMarkers node startOffset length types removePartially).markersFor
          other, ∃ k ∈ c.markersFor other, PartOf m k := by
        intro m hm
        rw [markersFor_removeMarkers h hp] at hm
        split_ifs at hm with heq
        · exact heq ▸ mem_removeLoop (h node).nonempty hm
        · exact ⟨m, hm, rfl, le_rfl, le_rfl, (h other).nonempty m hm⟩
      refine ⟨hiv other, fun m hm => ?_, fun m hm => ?_, fun m hm => ?_⟩
      · obtain ⟨_, _, _, _, _, hlt⟩ := hli m hm
        exact hlt
      · obtain ⟨k, hk, _, _, he, _⟩ := hli m hm
        exact he.trans_lt ((h other).bound k hk)
      · obtain ⟨k, hk, hty, _⟩ := hli m hm
        rcases mask_removeMarkers h hp other with hms | hno
        · rw [hms, hty]
          exact (h other).types k hk
        · simp [hno] at hm
  · rw [removeMarkers, if_pos (.inl (Int.not_lt.mp hp))]
    refine ⟨?_, fun _ => h⟩
    cases removePartially with
    | true => exact iff_of_true ⟨fun n => (h n).intervals, trivial⟩ trivial
    | false =>
      refine iff_of_true ⟨fun n => (h n).intervals, fun type x => (and_iff_left ?_).symm⟩
        fun hlt => (hp hlt).elim
      omega

theorem step_spec (h : c.Inv) (hst : c.step call = some c') : Spec c c' call := by
  cases call with
  | addMarker => exact addMarker_spec h hst
  | removeMarkers => exact removeMarkers_spec h hst

/-- **Document markers.** In every run of calls, all calls leave interval sets and have their
effect if and only if each call meets its condition. -/
theorem markers_right_iff (calls : List (MarkerCall Node)) :
    Runs.AllSteps step Right (initial : DocumentMarkerController Node) calls ↔
      Runs.AllSteps step Meets initial calls :=
  Runs.allSteps_congr (fun _ _ _ h hrgt hstep => (step_spec h hstep).2 hrgt)
    (fun _ _ _ h hstep => (step_spec h hstep).1)
    (fun _ => ⟨⟨.nil, .nil⟩, forall_mem_nil _, forall_mem_nil _, forall_mem_nil _⟩)

/-- A spelling marker inside of another one cuts it off. -/
theorem markers_not_right : ¬Runs.AllSteps step Right (initial : DocumentMarkerController Unit)
    [.addMarker () ⟨.spelling, 0, 10⟩, .addMarker () ⟨.spelling, 2, 4⟩] := by
  intro h
  obtain ⟨_, hrest⟩ := h _ rfl
  obtain ⟨hrgt, _⟩ := hrest _ rfl
  have hcov := (hrgt _ rfl).2 .spelling 6
  revert hcov
  decide +kernel

end DocumentMarkerController

end WebKit.Dom
