import WebKit.Runtime.MapDataRefinement

/-!
# Iterators and runs of a `Map`

An iterator skips the empty slots at its index and gives the first entry at or after its position
in the ordered map.  So every call has the same answer from both.
-/

namespace WebKit.Runtime

open List MapData NumberedSlot Vectors

variable {Key Value : Type*} {kind : Key → TableKind} {m : MapData Key Value}
  {a : OrderedMap Key Value} {slots : List (NumberedSlot Key Value)}

/-! ## Iterators -/

theorem refreshCursor_spec (slots : List (NumberedSlot Key Value)) (index : Nat) :
    ∃ skipped ≤ slots.length,
      refreshCursor (slots.map slot) index = index + skipped ∧
      (∀ i z, slots[i]? = some z → i < skipped → ¬z.live = true) ∧
      ∀ z, slots[skipped]? = some z → z.live = true := by
  induction slots generalizing index with
  | nil =>
    refine ⟨0, le_refl 0, rfl, fun i z hz => ?_, fun z hz => ?_⟩
    · cases hz
    · cases hz
  | cons z rest ih =>
    by_cases hlv : z.live = true
    · obtain ⟨key, val, hsl, -⟩ := exists_of_live hlv
      refine ⟨0, Nat.zero_le _, ?_, nofun, fun x hx => ?_⟩
      · rw [map_cons, hsl]
        rfl
      · cases hx
        exact hlv
    · obtain ⟨skipped, hle, hcsr, hemp, hst⟩ := ih (index + 1)
      refine ⟨skipped + 1, Nat.succ_le_succ hle, ?_, fun i x hx hi => ?_, fun x hx => hst x hx⟩
      · rw [map_cons, slot_of_not_live hlv, refreshCursor, hcsr]
        omega
      · cases i with
        | zero =>
          cases hx
          exact hlv
        | succ i => exact hemp i x hx (Nat.lt_of_succ_lt_succ hi)

variable {index position : Nat}

theorem SamePlace.refresh {nn skipped : Nat} (h : SamePlace slots nn index position)
    (hemp : ∀ i z, (slots.drop index)[i]? = some z → i < skipped → ¬z.live = true)
    (hle : index + skipped ≤ slots.length) :
    SamePlace slots nn (index + skipped) position where
  index_le := hle
  position_le := h.position_le
  before_iff := fun i z hz hlv => by
    rw [← h.before_iff i z hz hlv]
    constructor
    · intro hlt
      by_contra hge
      have hdrop : (slots.drop index)[i - index]? = some z := by
        rw [getElem?_drop, Nat.add_sub_cancel' (Nat.le_of_not_lt hge)]
        exact hz
      exact hemp (i - index) z hdrop (by omega) hlv
    · omega

section

variable (h : Refines kind m a slots)

include h

theorem Refines.find_position (hp : SamePlace slots a.nextNumber index position)
    {z : NumberedSlot Key Value} (hz : slots[index]? = some z) {e : OrderedEntry Key Value}
    (he : z.entry = some e) :
    a.entries.find? (fun ent => position ≤ ent.number) = some e := by
  obtain ⟨bef, after, hspl, hidx, -⟩ := exists_split hz
  have hlv : z.live = true := (hasKey_of_entry he).live
  have hnum : e.number = z.number := by
    obtain ⟨cont, -, rfl⟩ := Option.map_eq_some_iff.mp he
    rfl
  have hat : position ≤ e.number := by
    have hn : ¬z.number < position := fun hlt =>
      lt_irrefl index ((hp.before_iff index z hz hlv).mpr hlt)
    omega
  have hbef : ∀ x ∈ bef.filterMap entry, ¬position ≤ x.number := by
    intro x hx
    obtain ⟨y, hy, hent⟩ := mem_filterMap.mp hx
    obtain ⟨i, hi, hg⟩ := mem_iff_getElem.mp hy
    have hyi : slots[i]? = some y := by
      rw [hspl, getElem?_append_left hi, getElem?_eq_getElem hi, hg]
    have hlt := (hp.before_iff i y hyi (hasKey_of_entry hent).live).mp (by omega)
    obtain ⟨cont, -, rfl⟩ := Option.map_eq_some_iff.mp hent
    exact Nat.not_le_of_lt hlt
  rw [h.ordered, hspl, filterMap_append, filterMap_cons, he, find?_append,
    find?_eq_none.mpr (fun x hx => by simpa using hbef x hx)]
  simp [hat]

theorem Refines.find_position_none (hp : SamePlace slots a.nextNumber index position)
    (hend : slots.length ≤ index) :
    a.entries.find? (fun ent => position ≤ ent.number) = none := by
  refine List.find?_eq_none.mpr (fun e he => ?_)
  obtain ⟨i, z, hz, hent⟩ := h.mem_ordered.mp he
  have hi := lt_of_getElem? hz
  have hlt := (hp.before_iff i z hz (hasKey_of_entry hent).live).mp (by omega)
  obtain ⟨cont, -, rfl⟩ := Option.map_eq_some_iff.mp hent
  simpa using hlt

theorem Refines.samePlace_behind {z : NumberedSlot Key Value} (hz : slots[index]? = some z) :
    SamePlace slots a.nextNumber (index + 1) (z.number + 1) where
  index_le := lt_of_getElem? hz
  position_le := h.number_lt z (mem_of_getElem? hz)
  before_iff := fun i x hx _ => by
    obtain ⟨hi, hxi⟩ := List.getElem?_eq_some_iff.mp hx
    obtain ⟨hidx, hzi⟩ := List.getElem?_eq_some_iff.mp hz
    have hnm := pairwise_iff_getElem.mp h.numbers
    rcases lt_trichotomy i index with hlt | heq | hgt
    · have := hnm i index hi hidx hlt
      rw [hxi, hzi] at this
      omega
    · subst heq
      rw [hxi] at hzi
      subst hzi
      omega
    · have := hnm index i hidx hi hgt
      rw [hxi, hzi] at this
      omega

theorem Refines.iterators_length : m.iterators.length = a.iterators.length := by
  refine le_antisymm ?_ ?_
  · by_contra hlt
    have hi := h.iterators a.iterators.length
    rw [getElem?_eq_none le_rfl, getElem?_eq_getElem (Nat.lt_of_not_le hlt)] at hi
    cases hi
  · by_contra hlt
    have hi := h.iterators m.iterators.length
    rw [getElem?_eq_none le_rfl, getElem?_eq_getElem (Nat.lt_of_not_le hlt)] at hi
    cases hi

theorem Refines.set_iterator (n : Nat) {x y : Option Nat}
    (hxy : Option.Rel (SamePlace slots a.nextNumber) x y) :
    Refines kind { m with iterators := m.iterators.set n x }
      { a with iterators := a.iterators.set n y } slots :=
  { h with
    iterators := fun i => by
      simp only [getElem?_set, h.iterators_length]
      split_ifs
      · exact .some hxy
      · exact .none
      · exact h.iterators i }

theorem Refines.createIterator : Refines kind m.createIteratorData a.createIterator slots :=
  { h with
    iterators := fun i => by
      have hl := h.iterators_length
      simp only [createIteratorData, OrderedMap.createIterator]
      rcases lt_or_ge i m.iterators.length with hlt | hge
      · rw [getElem?_append_left hlt, getElem?_append_left (hl ▸ hlt)]
        exact h.iterators i
      rw [getElem?_append_right hge, getElem?_append_right (hl ▸ hge), ← hl]
      cases i - m.iterators.length with
      | zero =>
        refine .some (.some ⟨Nat.zero_le _, Nat.zero_le _, fun i z _ _ => ?_⟩)
        omega
      | succ k => exact .none }

theorem Refines.finish (n : Nat) :
    Refines kind (m.finish n) (a.finish n) slots := h.set_iterator n .none

/-- **Iteration.** An iterator gives the entry that it gives in the ordered map. -/
theorem Refines.next (n : Nat) :
    (m.next n).1 = (a.next n).1 ∧ Refines kind (m.next n).2 (a.next n).2 slots := by
  have hits := h.iterators n
  rw [MapData.next, OrderedMap.next]
  cases hm : m.iterators[n]? with
  | none =>
    rw [hm] at hits
    cases ha : a.iterators[n]? with
    | none => exact ⟨rfl, h⟩
    | some y => rw [ha] at hits; cases hits
  | some x =>
    rw [hm] at hits
    obtain ⟨y, ha, hxy⟩ : ∃ y, a.iterators[n]? = some y ∧
        Option.Rel (SamePlace slots a.nextNumber) x y := by
      generalize a.iterators[n]? = o at hits ⊢
      cases hits with
      | some hxy => exact ⟨_, rfl, hxy⟩
    rw [ha]
    cases hxy with
    | none => exact ⟨rfl, h⟩
    | @some index position hp =>
      obtain ⟨skipped, hskp, hcsr, hemp, hst⟩ := refreshCursor_spec (slots.drop index) index
      rw [map_drop, ← h.entries] at hcsr
      rw [length_drop] at hskp
      have hi := hp.index_le
      have hrf := hp.refresh hemp (by omega)
      have hsl : m.entries[index + skipped]? = slots[index + skipped]?.map slot := by
        rw [h.entries, getElem?_map]
      simp only [hcsr, hsl]
      cases hz : slots[index + skipped]? with
      | none =>
        -- The iterator is at the end, and stays where it is in the ordered map.
        have hno := h.find_position_none hrf (getElem?_eq_none_iff.mp hz)
        have hsm : a.iterators.set n (some position) = a.iterators := by
          obtain ⟨hn, hg⟩ := List.getElem?_eq_some_iff.mp ha
          rw [← hg, set_getElem_self]
        have hs := h.set_iterator n (.some hrf)
        rw [hsm] at hs
        simp only [hno]
        exact ⟨rfl, hs⟩
      | some z =>
        rw [getElem?_drop] at hst
        obtain ⟨key, val, hent, he⟩ := exists_of_live (hst z hz)
        have hfnd := h.find_position hrf hz he
        have hs := h.set_iterator n (.some (h.samePlace_behind hz))
        simp only [Option.map_some, hent, hfnd]
        exact ⟨trivial, hs⟩

end

/-! ## Runs -/

namespace MapState

variable (kind) in
/-- The storage refines the ordered map, until the capacity overflows. -/
def Inv (s : MapState Key Value) : Prop :=
  s.undefined = true ∨ ∃ slots, Refines kind s.data s.ordered slots

variable {s s' : MapState Key Value}

theorem answer_agrees {data : MapAnswer Key Value × MapData Key Value}
    {ordered : MapAnswer Key Value × OrderedMap Key Value} (hagr : s.Agrees)
    (hans : data.1 = ordered.1) : (s.answer data ordered).Agrees :=
  ⟨hagr.1, by rw [answer, hans, hagr.2]⟩

variable [DecidableEq Key]

theorem set_eq_none_iff (s : MapState Key Value) (key : Key) (val : Value) :
    s.data.set kind key val = none ↔ ¬s.GrowthFits kind (.set key val) := by
  rw [MapData.set, GrowthFits]
  cases hfn : s.data.find kind key with
  | some index => simp
  | none =>
    rw [ensureSpaceForAppend]
    by_cases hrm : s.data.capacity > s.data.entries.length
    · rw [if_pos hrm]
      simp only [forall_const, reduceCtorEq, false_iff, not_not]
      exact fun hfl => absurd hfl (Nat.not_le_of_lt hrm)
    rw [if_neg hrm]
    have hfl := Nat.le_of_not_lt hrm
    by_cases hft : grownCapacity s.data.capacity < 2 ^ 31
    · rw [if_pos hft]
      simp only [forall_const, reduceCtorEq, false_iff, not_not]
      exact fun _ => hft
    · rw [if_neg hft]
      simp only [forall_const, true_iff]
      exact fun h => hft (h hfl)

theorem step_spec {event : MapEvent Key Value} (hi : s.Inv kind) (hagr : s.Agrees)
    (hst : s.step kind event = some s') :
    s'.Inv kind ∧ (s'.Agrees ↔ s.GrowthFits kind event) := by
  obtain ⟨slots, h⟩ : ∃ slots, Refines kind s.data s.ordered slots := by
    refine hi.resolve_left (fun hun => ?_)
    rw [hagr.1] at hun
    cases hun
  cases event with
  | set key val =>
    rw [step] at hst
    cases hs : s.data.set kind key val with
    | none =>
      rw [hs] at hst
      cases hst
      refine ⟨.inl rfl, iff_of_false (fun hagr' => ?_) ((set_eq_none_iff s key val).mp hs)⟩
      cases hagr'.1
    | some data =>
      rw [hs] at hst
      cases hst
      have hft : s.GrowthFits kind (.set key val) := by
        by_contra hn
        rw [(set_eq_none_iff s key val).mpr hn] at hs
        cases hs
      exact ⟨.inr (h.set hs), iff_of_true hagr hft⟩
  | get key =>
    cases hst
    exact ⟨.inr ⟨slots, h⟩,
      iff_of_true (answer_agrees hagr (congrArg MapAnswer.value h.get)) trivial⟩
  | contains key =>
    cases hst
    exact ⟨.inr ⟨slots, h⟩,
      iff_of_true (answer_agrees hagr (congrArg MapAnswer.bool h.contains)) trivial⟩
  | remove key =>
    cases hst
    exact ⟨.inr h.remove.2,
      iff_of_true (answer_agrees hagr (congrArg MapAnswer.bool h.remove.1)) trivial⟩
  | size =>
    cases hst
    exact ⟨.inr ⟨slots, h⟩,
      iff_of_true (answer_agrees hagr (congrArg MapAnswer.count h.size)) trivial⟩
  | clear =>
    cases hst
    exact ⟨.inr ⟨[], h.clear⟩, iff_of_true hagr trivial⟩
  | createIterator =>
    cases hst
    exact ⟨.inr ⟨slots, h.createIterator⟩, iff_of_true hagr trivial⟩
  | next n =>
    cases hst
    exact ⟨.inr ⟨slots, (h.next n).2⟩,
      iff_of_true (answer_agrees hagr (congrArg MapAnswer.entry (h.next n).1)) trivial⟩
  | finish n =>
    cases hst
    exact ⟨.inr ⟨slots, h.finish n⟩, iff_of_true hagr trivial⟩
  | copyBackingStore =>
    cases hst
    exact ⟨.inr h.copyBackingStore, iff_of_true hagr trivial⟩

open Runs

/-- **The storage refines the ordered map** in a run exactly when no call makes the capacity
overflow: all lookups, removals, sizes and iterators then have the answers of the ordered map,
however often the store is packed. -/
theorem agrees_iff_growthFits (kind : Key → TableKind) (events : List (MapEvent Key Value)) :
    AllStates (step kind) Agrees (create : MapState Key Value) events ↔
      AllSteps (step kind) (GrowthFits kind) create events := by
  have hinv : ∀ (s : MapState Key Value) event s', s.Inv kind → s.Agrees →
      s.step kind event = some s' → s'.Inv kind :=
    fun s event s' h hagr hstep => (step_spec h hagr hstep).1
  exact allStates_iff_allSteps_of hinv
    (fun s event s' h hagr hstep => (step_spec h hagr hstep).2)
    (.inr ⟨[], refines_create⟩) ⟨rfl, rfl⟩

/-! ## A key that is set and removed -/

/-- Nine keys, all in the table of the values. -/
def oneTable : Fin 9 → TableKind := fun _ => .valueKeyedTable

def setRemove : List (MapEvent (Fin 9) Unit) := [.set 8 (), .remove 8]

/-- Eight keys that stay in the map. -/
def setOthers : List (MapEvent (Fin 9) Unit) :=
  [.set 0 (), .set 1 (), .set 2 (), .set 3 (), .set 4 (), .set 5 (), .set 6 (), .set 7 ()]

def otherSlots : List (Slot (Fin 9) Unit) :=
  [.entry 0 (), .entry 1 (), .entry 2 (), .entry 3 (), .entry 4 (), .entry 5 (), .entry 6 (),
    .entry 7 ()]

/-- A store of the eight keys and of empty slots. -/
def emptySlots (capacity count : Nat) : MapData (Fin 9) Unit where
  tables := fun table key => if table = .valueKeyedTable ∧ key ≠ 8 then some key else none
  capacity := capacity
  deletedCount := count
  entries := otherSlots ++ List.replicate count .empty
  iterators := []

theorem length_entries_emptySlots (capacity count : Nat) :
    (emptySlots capacity count).entries.length = count + 8 := by
  simp [emptySlots, otherSlots]

theorem packLoop_replicate (destination : List (Slot (Fin 9) Unit)) (count : Nat) :
    packLoop destination [] (List.replicate count .empty) =
      (destination, List.replicate count .empty, []) := by
  induction count with
  | zero => rfl
  | succ count ih => simp [replicate_succ, packLoop, ih]

/-- The eight keys are at the front, and keep their indices. -/
theorem moveBackingStore_emptySlots (capacity count newCapacity : Nat) :
    (emptySlots capacity count).moveBackingStore newCapacity = emptySlots newCapacity 0 := by
  rw [moveBackingStore]
  split
  · rw [replaceAndPackBackingStore]
    simp only [emptySlots, otherSlots, cons_append, nil_append, packLoop, packLoop_replicate,
      replicate_zero]
    congr 1
    funext table key
    split
    · next h =>
      obtain ⟨_ | _ | _ | _ | _ | _ | _ | _ | _ | _, hlt⟩ := key
      iterate 8 rfl
      · exact absurd rfl h.2
      · omega
    · rfl
  · next h =>
    obtain rfl : count = 0 := not_not.mp h
    rfl

/-- The store with the key behind the empty slots. -/
def filledSlots (capacity count : Nat) : MapData (Fin 9) Unit :=
  { emptySlots capacity count with
    tables := (emptySlots capacity count).updateTable oneTable 8 (some (count + 8))
    entries := (emptySlots capacity count).entries ++ [.entry 8 ()] }

variable {capacity : Nat} {s : MapState (Fin 9) Unit}

theorem set_emptySlots {m : MapData (Fin 9) Unit} {count : Nat} (hno : m.find oneTable 8 = none)
    (hspc : m.ensureSpaceForAppend = some (emptySlots capacity count)) :
    m.set oneTable 8 () = some (filledSlots capacity count) := by
  rw [MapData.set, hno]
  simp only [hspc, length_entries_emptySlots]
  rfl

theorem remove_filledSlots (capacity count : Nat) :
    ((filledSlots capacity count).remove oneTable 8).2 = emptySlots capacity (count + 1) := by
  have hfn : (filledSlots capacity count).find oneTable 8 = some (count + 8) := rfl
  have htbs : (filledSlots capacity count).updateTable oneTable 8 none =
      (emptySlots capacity count).tables := by
    funext table key
    rw [updateTable_apply]
    split
    · next h => exact (if_neg fun hne => hne.2 h.2).symm
    · next hne => exact (updateTable_apply ..).trans (if_neg hne)
  have hens : (filledSlots capacity count).entries.set (count + 8) .empty
      = (emptySlots capacity (count + 1)).entries := by
    show ((emptySlots capacity count).entries ++ [Slot.entry 8 ()]).set (count + 8) Slot.empty = _
    rw [set_append_right _ _ (le_of_eq (length_entries_emptySlots ..)), length_entries_emptySlots,
      Nat.sub_self, set_cons_zero, emptySlots, append_assoc, ← replicate_succ']
    rfl
  rw [remove, hfn]
  simp only [htbs, hens]
  rfl

theorem run_setRemove {cnt : Nat} (hno : s.data.find oneTable 8 = none)
    (hspc : s.data.ensureSpaceForAppend = some (emptySlots capacity cnt)) :
    ∃ s', run (step oneTable) s setRemove = some s' ∧
      s'.data = emptySlots capacity (cnt + 1) := by
  have hs := set_emptySlots hno hspc
  have hrem := remove_filledSlots capacity cnt
  refine ⟨_, run_cons.mpr ⟨{ s with
    data := filledSlots capacity cnt, ordered := s.ordered.set 8 () }, ?_,
    run_cons.mpr ⟨_, rfl, rfl⟩⟩, hrem⟩
  rw [step, hs]

/-- The key is set and removed some times, and when it is set again the capacity overflows. -/
def Overflows (s : MapState (Fin 9) Unit) : Prop :=
  ∃ rounds s', run (step oneTable) s
    ((List.replicate rounds setRemove).flatten ++ [.set 8 ()]) = some s' ∧ s'.undefined = true

theorem Overflows.of_run_setRemove {s' : MapState (Fin 9) Unit}
    (hr : run (step oneTable) s setRemove = some s') (h : s'.Overflows) : s.Overflows := by
  obtain ⟨rounds, t, ht, hun⟩ := h
  refine ⟨rounds + 1, t, ?_, hun⟩
  obtain ⟨s₁, h₁, hrest⟩ := run_cons.mp hr
  obtain ⟨s₂, h₂, hdn⟩ := run_cons.mp hrest
  obtain rfl := Option.some.inj hdn
  exact run_cons.mpr ⟨s₁, h₁, run_cons.mpr ⟨s₂, h₂, ht⟩⟩

theorem overflows_of_full (room : Nat)
    (hfl : ∀ s : MapState (Fin 9) Unit, s.data = emptySlots capacity (capacity - 8) → s.Overflows)
    (hrm : room + 8 ≤ capacity) (hs : s.data = emptySlots capacity (capacity - 8 - room)) :
    s.Overflows := by
  induction room generalizing s with
  | zero => exact hfl s hs
  | succ room ih =>
    have hspc : s.data.ensureSpaceForAppend
        = some (emptySlots capacity (capacity - 8 - (room + 1))) := by
      have hlt : s.data.capacity > s.data.entries.length := by
        rw [hs, length_entries_emptySlots]
        show capacity - 8 - (room + 1) + 8 < capacity
        omega
      rw [ensureSpaceForAppend, if_pos hlt, hs]
    obtain ⟨s', hr, hs'⟩ := run_setRemove (by rw [hs]; rfl) hspc
    rw [show capacity - 8 - (room + 1) + 1 = capacity - 8 - room by omega] at hs'
    exact Overflows.of_run_setRemove hr (ih (by omega) hs')

theorem overflows_of_grown (hgrw : grownCapacity capacity < 2 ^ 31 →
      ∀ s : MapState (Fin 9) Unit,
        s.data = emptySlots (max (grownCapacity capacity) minimumMapSize) 1 → s.Overflows)
    (height : 8 ≤ capacity) (hs : s.data = emptySlots capacity (capacity - 8)) :
    s.Overflows := by
  have hno : s.data.find oneTable 8 = none := by rw [hs]; rfl
  have hc : s.data.capacity = capacity := by rw [hs]; rfl
  have hfl : ¬s.data.capacity > s.data.entries.length := by
    rw [hc, hs, length_entries_emptySlots]
    omega
  by_cases hft : grownCapacity capacity < 2 ^ 31
  · have hspc : s.data.ensureSpaceForAppend
        = some (emptySlots (max (grownCapacity capacity) minimumMapSize) 0) := by
      rw [ensureSpaceForAppend, if_neg hfl, hc, if_pos hft, hs, moveBackingStore_emptySlots]
    obtain ⟨s', hr, hs'⟩ := run_setRemove hno hspc
    exact Overflows.of_run_setRemove hr (hgrw hft s' hs')
  · have hun : s.data.set oneTable 8 () = none := by
      rw [MapData.set, hno, ensureSpaceForAppend, if_neg hfl, hc, if_neg hft]
    refine ⟨0, { s with undefined := true }, run_cons.mpr ⟨_, ?_, rfl⟩, rfl⟩
    rw [step, hun]

/-- The capacity grows until it overflows. -/
theorem overflows_full (distance : Nat) (hds : 2 ^ 31 ≤ capacity + distance)
    (height : 8 ≤ capacity) (hs : s.data = emptySlots capacity (capacity - 8)) :
    s.Overflows := by
  induction distance generalizing capacity s with
  | zero =>
    refine overflows_of_grown (fun hft => ?_) height hs
    rw [grownCapacity] at hft
    omega
  | succ distance ih =>
    refine overflows_of_grown (fun _ t ht => ?_) height hs
    have hlr : capacity + 1 ≤ max (grownCapacity capacity) minimumMapSize := by
      refine le_trans ?_ (le_max_left _ _)
      rw [grownCapacity]
      omega
    generalize max (grownCapacity capacity) minimumMapSize = larger at ht hlr
    have hfull : ∀ u : MapState (Fin 9) Unit, u.data = emptySlots larger (larger - 8) →
        u.Overflows := fun u hu => ih (by omega) (by omega) hu
    refine overflows_of_full (larger - 9) hfull (by omega) ?_
    rw [show larger - 8 - (larger - 9) = 1 by omega]
    exact ht

/-- A map of eight keys overflows its capacity if a ninth is set and removed often enough. -/
theorem set_remove_overflows : ∃ rounds, ¬AllStates (step oneTable) Agrees
    (create : MapState (Fin 9) Unit)
    (setOthers ++ ((List.replicate rounds setRemove).flatten ++ [.set 8 ()])) := by
  obtain ⟨s₀, hrun₀, hs₀⟩ : ∃ s, run (step oneTable) create setOthers = some s ∧
      s.data = emptySlots 8 0 := by
    refine ⟨_, rfl, ?_⟩
    show MapData.mk _ _ _ _ _ = MapData.mk _ _ _ _ _
    congr 1
    funext table key
    obtain ⟨_ | _ | _ | _ | _ | _ | _ | _ | _ | _, hlt⟩ := key
    iterate 9 cases table <;> rfl
    omega
  obtain ⟨rounds, s, hrun, hundef⟩ := overflows_full (2 ^ 31) (by omega) le_rfl hs₀
  refine ⟨rounds, fun hall => ?_⟩
  have hagr : s.Agrees := hall.last (run_append hrun₀ hrun)
  rw [hagr.1] at hundef
  cases hundef

end MapState

end WebKit.Runtime
