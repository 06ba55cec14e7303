import WebKit.Lib.Vectors
import WebKit.Runtime.MapData

/-!
# The storage refines the ordered map

The slots, empty ones included, are given the numbers of the entries they have or had. Removing an
entry then changes one slot, packing takes the empty slots out, and the numbers increase all along.
An iterator of the store and one of the ordered map are at the same place if the entries before the
index are those with a number below the position.
-/

namespace WebKit.Runtime

open List MapData Vectors

/-- A slot with the number of the entry that it was made for. -/
structure NumberedSlot (Key Value : Type*) where
  number : Nat
  content : Option (Key × Value)

namespace NumberedSlot

variable {Key Value : Type*} (z : NumberedSlot Key Value)

def slot : Slot Key Value :=
  match z.content with
  | some (key, value) => .entry key value
  | none => .empty

def entry : Option (OrderedEntry Key Value) :=
  z.content.map (fun content => ⟨z.number, content.1, content.2⟩)

def live : Bool := z.content.isSome

def HasKey (key : Key) (z : NumberedSlot Key Value) : Prop := ∃ value, z.content = some (key, value)

variable {z : NumberedSlot Key Value} {key : Key}

theorem HasKey.live (h : z.HasKey key) : z.live = true := by
  obtain ⟨val, hv⟩ := h
  rw [NumberedSlot.live, hv]
  rfl

theorem slot_of_not_live (h : ¬z.live = true) : z.slot = .empty := by
  rw [live, Bool.not_eq_true, Option.isSome_eq_false_iff, Option.isNone_iff_eq_none]
    at h
  rw [slot, h]

theorem exists_of_live (h : z.live = true) :
    ∃ key val, z.slot = .entry key val ∧ z.entry = some ⟨z.number, key, val⟩ := by
  obtain ⟨⟨key, val⟩, hcon⟩ := Option.isSome_iff_exists.mp h
  refine ⟨key, val, ?_, ?_⟩
  · rw [slot, hcon]
  · rw [entry, hcon]
    rfl

end NumberedSlot

/-! ## The relation -/

open NumberedSlot

theorem rel_map {α β γ : Type*} {r : α → β → Prop} {r' : γ → β → Prop} {f : α → γ} {x : Option α}
    {y : Option β} (himp : ∀ a b, r a b → r' (f a) b) (h : Option.Rel r x y) :
    Option.Rel r' (x.map f) y := by
  cases h with
  | none => exact .none
  | some hr => exact .some (himp _ _ hr)

theorem rel_mono {α β : Type*} {r r' : α → β → Prop} {x : Option α} {y : Option β}
    (himp : ∀ a b, r a b → r' a b) (h : Option.Rel r x y) : Option.Rel r' x y := by
  simpa using rel_map (f := id) himp h

section Relation

variable {Key Value : Type*}

/-- An iterator at an index of the slots, and one at a position in the numbers. -/
structure SamePlace (slots : List (NumberedSlot Key Value)) (nextNumber index position : Nat) :
    Prop where
  index_le : index ≤ slots.length
  position_le : position ≤ nextNumber
  before_iff : ∀ i z, slots[i]? = some z → z.live = true → (i < index ↔ z.number < position)

/-- The storage is the ordered map, with the slots as they are. -/
structure Refines (kind : Key → TableKind) (m : MapData Key Value) (a : OrderedMap Key Value)
    (slots : List (NumberedSlot Key Value)) : Prop where
  entries : m.entries = slots.map slot
  ordered : a.entries = slots.filterMap entry
  numbers : slots.Pairwise (fun x y => x.number < y.number)
  number_lt : ∀ z ∈ slots, z.number < a.nextNumber
  /-- The tables lead to the slots with the keys, each key in the table of its kind. -/
  tables : ∀ table key index, m.tables table key = some index ↔
    table = kind key ∧ ∃ z, slots[index]? = some z ∧ z.HasKey key
  capacity : slots.length ≤ m.capacity
  deletedCount : m.deletedCount + slots.countP live = slots.length
  iterators : ∀ n : Nat, Option.Rel (Option.Rel (SamePlace slots a.nextNumber))
    m.iterators[n]? a.iterators[n]?

variable {kind : Key → TableKind} {m : MapData Key Value} {a : OrderedMap Key Value}
  {slots : List (NumberedSlot Key Value)}

theorem refines_create : Refines kind (create : MapData Key Value) OrderedMap.create [] where
  entries := rfl
  ordered := rfl
  numbers := List.Pairwise.nil
  number_lt := forall_mem_nil _
  tables := fun tbl key index => by simp [create]
  capacity := le_refl 0
  deletedCount := rfl
  iterators := fun n => by simp [create, OrderedMap.create]

variable (h : Refines kind m a slots)

include h

/-! ## Lookups -/

section Lookup

variable {key : Key} {index : Nat}

theorem Refines.find_eq_some :
    m.find kind key = some index ↔ ∃ z, slots[index]? = some z ∧ z.HasKey key := by
  rw [find, h.tables, and_iff_right rfl]

theorem Refines.index_unique {other : Nat}
    {x y : NumberedSlot Key Value} (hx : slots[index]? = some x) (hxk : x.HasKey key)
    (hy : slots[other]? = some y) (hyk : y.HasKey key) : index = other := by
  have hi := h.find_eq_some.mpr ⟨x, hx, hxk⟩
  have hoth := h.find_eq_some.mpr ⟨y, hy, hyk⟩
  exact Option.some.inj (hi.symm.trans hoth)

variable {e : OrderedEntry Key Value}

theorem Refines.mem_ordered : e ∈ a.entries ↔ ∃ (index : Nat) (z : NumberedSlot Key Value),
      slots[index]? = some z ∧ z.entry = some e := by
  rw [h.ordered, mem_filterMap]
  constructor
  · rintro ⟨z, hz, he⟩
    obtain ⟨index, hi⟩ := mem_iff_getElem?.mp hz
    exact ⟨index, z, hi, he⟩
  · rintro ⟨index, z, hz, he⟩
    exact ⟨z, mem_of_getElem? hz, he⟩

omit h in
theorem hasKey_of_entry {z : NumberedSlot Key Value} (he : z.entry = some e) : z.HasKey e.key := by
  obtain ⟨cont, hcon, rfl⟩ := Option.map_eq_some_iff.mp he
  exact ⟨cont.2, hcon⟩

variable [DecidableEq Key]

theorem Refines.ordered_find_none : a.find key = none ↔ m.find kind key = none := by
  rw [OrderedMap.find, find?_eq_none]
  constructor
  · intro hno
    refine Option.eq_none_iff_forall_ne_some.mpr (fun index hi => ?_)
    obtain ⟨z, hz, val, hv⟩ := h.find_eq_some.mp hi
    have hm : (⟨z.number, key, val⟩ : OrderedEntry Key Value) ∈ a.entries := by
      refine h.mem_ordered.mpr ⟨index, z, hz, ?_⟩
      rw [entry, hv]
      rfl
    exact absurd (hno _ hm) (by simp)
  · intro hno e he hk
    obtain ⟨index, z, hz, hent⟩ := h.mem_ordered.mp he
    have hi : m.find kind key = some index :=
      h.find_eq_some.mpr ⟨z, hz, of_decide_eq_true hk ▸ hasKey_of_entry hent⟩
    rw [hno] at hi
    cases hi

theorem Refines.find_spec (hi : m.find kind key = some index) :
    ∃ z val, slots[index]? = some z ∧ z.content = some (key, val) ∧
      a.find key = some ⟨z.number, key, val⟩ := by
  obtain ⟨z, hz, val, hv⟩ := h.find_eq_some.mp hi
  refine ⟨z, val, hz, hv, ?_⟩
  cases hfnd : a.find key with
  | none =>
    rw [h.ordered_find_none.mp hfnd] at hi
    cases hi
  | some e =>
    have hk : e.key = key := by simpa using find?_some hfnd
    obtain ⟨oth, y, hy, he⟩ := h.mem_ordered.mp (mem_of_find?_eq_some hfnd)
    have heq : oth = index := h.index_unique hy (hk ▸ hasKey_of_entry he) hz ⟨val, hv⟩
    rw [heq, hz] at hy
    cases hy
    rw [entry, hv] at he
    exact he.symm

theorem Refines.get : m.get kind key = a.get key := by
  rw [MapData.get, OrderedMap.get]
  cases hfn : m.find kind key with
  | none =>
    rw [h.ordered_find_none.mpr hfn]
    rfl
  | some index =>
    obtain ⟨z, val, hz, hcon, hfnd⟩ := h.find_spec hfn
    have hsl : m.entries[index]? = some (.entry key val) := by
      rw [h.entries, getElem?_map, hz, Option.map_some, slot, hcon]
    rw [hfnd]
    simp only [hsl]
    rfl

theorem Refines.contains : m.contains kind key = a.contains key := by
  rw [MapData.contains, OrderedMap.contains]
  cases hfn : m.find kind key with
  | none =>
    rw [h.ordered_find_none.mpr hfn]
    rfl
  | some index =>
    obtain ⟨z, val, -, -, hfnd⟩ := h.find_spec hfn
    rw [hfnd]
    rfl

end Lookup

theorem Refines.size : m.size = a.size := by
  have hl : a.entries.length = slots.countP live := by
    rw [h.ordered, length_filterMap_eq_countP]
    refine countP_congr (fun z _ => ?_)
    rw [entry, live, Option.isSome_map]
  have hc := h.deletedCount
  rw [MapData.size, OrderedMap.size, hl, h.entries, length_map]
  omega

/-! ## A slot that changes -/

section Change

variable {key : Key} {index : Nat} {z : NumberedSlot Key Value}

omit h in
theorem exists_split (hz : slots[index]? = some z) :
    ∃ bef after, slots = bef ++ z :: after ∧ bef.length = index ∧
      ∀ z', slots.set index z' = bef ++ z' :: after := by
  obtain ⟨hi, hg⟩ := List.getElem?_eq_some_iff.mp hz
  refine ⟨slots.take index, slots.drop (index + 1), ?_, ?_, fun z' => ?_⟩
  · rw [← hg, getElem_cons_drop, take_append_drop]
  · rw [length_take, min_eq_left (le_of_lt hi)]
  · rw [set_eq_take_append_cons_drop, if_pos hi]

omit h in
theorem getElem?_change (hz : slots[index]? = some z) (z' : NumberedSlot Key Value) (i : Nat) :
    (slots.set index z')[i]? = if i = index then some z' else slots[i]? := by
  have hi := lt_of_getElem? hz
  rw [getElem?_set]
  by_cases heq : i = index
  · rw [if_pos heq.symm, if_pos hi, if_pos heq]
  · rw [if_neg (fun h => heq h.symm), if_neg heq]

omit h in
theorem SamePlace.change {nextNumber place position : Nat}
    (h : SamePlace slots nextNumber place position) (hz : slots[index]? = some z)
    (hlv : z.live = true) (content : Option (Key × Value)) :
    SamePlace (slots.set index { z with content }) nextNumber place position where
  index_le := by
    rw [length_set]
    exact h.index_le
  position_le := h.position_le
  before_iff := fun i x hx hxl => by
    rw [getElem?_change hz] at hx
    by_cases heq : i = index
    · rw [if_pos heq] at hx
      cases hx
      exact heq ▸ h.before_iff index z hz hlv
    · rw [if_neg heq] at hx
      exact h.before_iff i x hx hxl

theorem Refines.change (hz : slots[index]? = some z)
    (hlv : z.live = true) {content : Option (Key × Value)} {m' : MapData Key Value}
    {a' : OrderedMap Key Value} (hnx : a'.nextNumber = a.nextNumber)
    (hcap : m'.capacity = m.capacity) (hits : m'.iterators = m.iterators)
    (hits' : a'.iterators = a.iterators)
    (hens : m'.entries = m.entries.set index (slot { z with content }))
    (hor : a'.entries = (slots.set index { z with content }).filterMap entry)
    (htbs : ∀ table key i, m'.tables table key = some i ↔ table = kind key ∧
      ∃ x, (slots.set index { z with content })[i]? = some x ∧ x.HasKey key)
    (hdel : m'.deletedCount + content.isSome.toNat = m.deletedCount + 1) :
    Refines kind m' a' (slots.set index { z with content }) where
  entries := by rw [hens, h.entries, map_set]
  ordered := hor
  numbers := by
    obtain ⟨before, after, rfl, rfl, -⟩ := exists_split hz
    have hnm := h.numbers
    rw [← pairwise_map (f := number)] at hnm ⊢
    simpa using hnm
  number_lt := fun x hx => by
    rw [hnx]
    rcases mem_or_eq_of_mem_set hx with hmem | rfl
    · exact h.number_lt x hmem
    · exact h.number_lt z (mem_of_getElem? hz)
  tables := htbs
  capacity := by
    rw [length_set, hcap]
    exact h.capacity
  deletedCount := by
    have hcnt := h.deletedCount
    obtain ⟨before, after, rfl, -, hset⟩ := exists_split hz
    rw [countP_append, countP_cons, if_pos hlv] at hcnt
    rw [hset, countP_append, countP_cons]
    cases content <;> simp [live] at hcnt hdel ⊢ <;> omega
  iterators := fun n => by
    rw [hits, hits', hnx]
    refine rel_mono (fun _ _ => rel_mono fun _ _ hpla => ?_) (h.iterators n)
    exact SamePlace.change hpla hz hlv content

theorem Refines.key_ne_of_split {bef after : List _}
    (hspl : slots = bef ++ z :: after) (hk : z.HasKey key) :
    (∀ e ∈ bef.filterMap entry, e.key ≠ key) ∧ ∀ e ∈ after.filterMap entry, e.key ≠ key := by
  have hz : slots[bef.length]? = some z := by rw [hspl]; simp
  constructor <;> intro e he heq
  all_goals
    obtain ⟨x, hx, hent⟩ := mem_filterMap.mp he
    obtain ⟨i, hi⟩ := mem_iff_getElem?.mp hx
    have hxk : x.HasKey key := heq ▸ hasKey_of_entry hent
  · have hlt := lt_of_getElem? hi
    have hxi : slots[i]? = some x := by rw [hspl, getElem?_append_left hlt, hi]
    exact Nat.ne_of_lt hlt (h.index_unique hxi hxk hz hk)
  · have hxi : slots[bef.length + (i + 1)]? = some x := by
      rw [hspl, getElem?_append_right (Nat.le_add_right _ _)]
      simpa using hi
    have := h.index_unique hxi hxk hz hk
    omega

variable [DecidableEq Key]

theorem Refines.set_found (hfn : m.find kind key = some index)
    (value : Value) :
    ∃ slots', Refines kind { m with entries := m.entries.set index (.entry key value) }
      (a.set key value) slots' := by
  obtain ⟨z, old, hz, hcon, hfnd⟩ := h.find_spec hfn
  have hkey : z.HasKey key := ⟨old, hcon⟩
  refine ⟨slots.set index { z with content := some (key, value) }, ?_⟩
  have hset : a.set key value = { a with
      entries := a.entries.map (fun entry =>
        if entry.key = key then { entry with value } else entry) } := by
    rw [OrderedMap.set, hfnd]
    rfl
  rw [hset]
  obtain ⟨before, after, hspl, -, hset'⟩ := exists_split hz
  refine h.change hz hkey.live rfl rfl rfl rfl rfl ?_ ?_ rfl
  · obtain ⟨hbef, haft⟩ := h.key_ne_of_split hspl hkey
    have hsm : ∀ l : List (OrderedEntry Key Value), (∀ e ∈ l, e.key ≠ key) →
        l.map (fun entry => if entry.key = key then { entry with value } else entry) = l :=
      fun l hl =>
      (map_congr_left (fun e he => if_neg (hl e he))).trans (map_id _)
    have hent : z.entry = some ⟨z.number, key, old⟩ := by rw [entry, hcon]; rfl
    rw [hset']
    simp only [h.ordered, hspl, filterMap_append, filterMap_cons, hent,
      map_append, map_cons, hsm _ hbef, hsm _ haft]
    simp [entry]
  · intro table k i
    rw [h.tables, getElem?_change hz]
    by_cases heq : i = index
    · have hsm : ({ z with content := some (key, value) } : NumberedSlot Key Value).HasKey k ↔
          z.HasKey k := by
        simp [HasKey, hcon]
      rw [if_pos heq, heq, hz]
      simp [hsm]
    · rw [if_neg heq]

theorem Refines.remove_found (hfn : m.find kind key = some index) :
    ∃ slots', Refines kind
      { m with
        tables := m.updateTable kind key none
        entries := m.entries.set index .empty
        deletedCount := m.deletedCount + 1 }
      (a.remove key).2 slots' := by
  obtain ⟨z, old, hz, hcon, hfnd⟩ := h.find_spec hfn
  have hkey : z.HasKey key := ⟨old, hcon⟩
  refine ⟨slots.set index { z with content := none }, ?_⟩
  obtain ⟨before, after, hspl, -, hset'⟩ := exists_split hz
  refine h.change hz hkey.live rfl rfl rfl rfl rfl ?_ ?_ rfl
  · obtain ⟨hbef, haft⟩ := h.key_ne_of_split hspl hkey
    have hsm : ∀ l : List (OrderedEntry Key Value), (∀ e ∈ l, e.key ≠ key) →
        l.filter (fun entry => entry.key ≠ key) = l := fun l hl =>
      filter_eq_self.mpr (fun e he => decide_eq_true (hl e he))
    have hent : z.entry = some ⟨z.number, key, old⟩ := by rw [entry, hcon]; rfl
    rw [hset', OrderedMap.remove]
    simp only [h.ordered, hspl, filterMap_append, filterMap_cons, hent,
      filter_append, hsm _ hbef]
    rw [filter_cons_of_neg (by simp), hsm _ haft]
    simp [entry]
  · intro table k i
    show m.updateTable kind key none table k = some i ↔ _
    rw [getElem?_change hz, updateTable_apply]
    by_cases heq : i = index
    · -- The key has no slot any more.
      rw [if_pos heq]
      constructor
      · intro htbl
        split at htbl
        · cases htbl
        next hne =>
        obtain ⟨hkn, x, hx, hxk⟩ := (h.tables table k i).mp htbl
        rw [heq, hz] at hx
        cases hx
        obtain ⟨v, hv⟩ := hxk
        rw [hcon] at hv
        obtain ⟨rfl, -⟩ := Prod.mk.inj (Option.some.inj hv)
        exact absurd ⟨hkn, rfl⟩ hne
      · rintro ⟨-, x, ⟨⟩, v, hv⟩
        cases hv
    · rw [if_neg heq, ← h.tables]
      split
      · next hsm =>
        obtain ⟨rfl, rfl⟩ := hsm
        constructor
        · rintro ⟨⟩
        · intro htbl
          rw [find, htbl] at hfn
          exact absurd (Option.some.inj hfn) heq
      · rfl

end Change

/-! ## Packing -/

section Packing

open Packing

/-- What the loop makes of the index of an iterator. -/
def packedIterator (packedSize : Nat) : List (NumberedSlot Key Value) → Option Nat → Option Nat
  | [], iterator => iterator
  | z :: rest, iterator =>
    if z.live then packedIterator (packedSize + 1) rest iterator
    else packedIterator packedSize rest (MapData.didRemoveEntry packedSize iterator)

/-- What the loop leaves in the old slots. -/
def forwardedSlots (packedSize : Nat) : List (NumberedSlot Key Value) → List (Slot Key Value)
  | [] => []
  | z :: rest =>
    if z.live then .forwarded packedSize :: forwardedSlots (packedSize + 1) rest
    else .empty :: forwardedSlots packedSize rest

omit h in
theorem packLoop_eq (dst : List (Slot Key Value)) (iterators : List (Option Nat))
    (slots : List (NumberedSlot Key Value)) :
    packLoop dst iterators (slots.map slot)
      = (dst ++ (slots.filter live).map slot,
        forwardedSlots dst.length slots,
        iterators.map (packedIterator dst.length slots)) := by
  induction slots generalizing dst iterators with
  | nil => simp [packLoop, forwardedSlots, packedIterator]
  | cons z rest ih =>
    by_cases hlv : z.live = true
    · obtain ⟨key, val, hsl, -⟩ := exists_of_live hlv
      rw [map_cons, hsl, packLoop, ih]
      · simp [forwardedSlots, packedIterator, hlv, hsl]
      · exact nofun
    · rw [map_cons, slot_of_not_live hlv, packLoop, ih]
      simp [forwardedSlots, packedIterator, hlv]

variable {index packedSize : Nat}

omit h in
theorem packedIterator_eq (h : index ≤ packedSize + slots.length) :
    packedIterator packedSize slots (some index)
      = some (if index ≤ packedSize then index
          else packedSize + rank live slots (index - packedSize)) := by
  induction slots generalizing packedSize index with
  | nil =>
    have hle : index ≤ packedSize := h
    rw [packedIterator, if_pos hle]
  | cons z rest ih =>
    rw [length_cons] at h
    rw [packedIterator]
    by_cases hlv : z.live = true
    · rw [if_pos hlv, ih (by omega)]
      by_cases hle : index ≤ packedSize
      · rw [if_pos (by omega), if_pos hle]
      obtain ⟨off, rfl⟩ : ∃ off, index = packedSize + (off + 1) :=
        ⟨index - packedSize - 1, by omega⟩
      rw [if_neg hle, Nat.add_sub_cancel_left, rank_cons_succ_of_pos hlv]
      split
      · next hz =>
        obtain rfl : off = 0 := by omega
        simp
      · rw [show packedSize + (off + 1) - (packedSize + 1) = off by omega]
        congr 1
        omega
    · rw [if_neg hlv, didRemoveEntry]
      by_cases hle : index ≤ packedSize
      · rw [if_pos hle, ih (by omega), if_pos hle, if_pos hle]
      obtain ⟨off, rfl⟩ : ∃ off, index = packedSize + (off + 1) :=
        ⟨index - packedSize - 1, by omega⟩
      rw [if_neg hle, if_neg hle, Nat.add_sub_cancel_left, rank_cons_succ_of_neg hlv,
        show packedSize + (off + 1) - 1 = packedSize + off by omega, ih (by omega)]
      split
      · next hz =>
        obtain rfl : off = 0 := by omega
        simp
      · rw [Nat.add_sub_cancel_left]

omit h in
theorem packedIterator_rank (h : index ≤ slots.length) :
    packedIterator 0 slots (some index) = some (rank live slots index) := by
  rw [packedIterator_eq (by omega)]
  split
  · next hz =>
    obtain rfl : index = 0 := by omega
    simp
  · rw [zero_add, Nat.sub_zero]

omit h in
theorem packedIterator_none (packedSize : Nat) (slots : List (NumberedSlot Key Value)) :
    packedIterator packedSize slots none = none := by
  induction slots generalizing packedSize with
  | nil => rfl
  | cons z rest ih =>
    rw [packedIterator]
    split
    · exact ih _
    · exact ih _

omit h in
theorem forwardingIndex_eq {z : NumberedSlot Key Value} (hz : slots[index]? = some z)
    (hlv : z.live = true) :
    forwardingIndex (forwardedSlots packedSize slots) index
      = packedSize + rank live slots index := by
  have hsl : (forwardedSlots packedSize slots)[index]?
      = some (.forwarded (packedSize + rank live slots index)) := by
    induction slots generalizing packedSize index with
    | nil => cases hz
    | cons x rest ih =>
      cases index with
      | zero =>
        cases hz
        rw [forwardedSlots, if_pos hlv]
        rfl
      | succ index =>
        rw [forwardedSlots]
        by_cases hx : x.live = true
        · rw [if_pos hx, rank_cons_succ_of_pos hx, getElem?_cons_succ, ih hz]
          congr 2
          omega
        · rw [if_neg hx, rank_cons_succ_of_neg hx, getElem?_cons_succ, ih hz]
  rw [forwardingIndex, hsl]

omit h in
theorem SamePlace.pack {nn pos : Nat} (h : SamePlace slots nn index pos) :
    SamePlace (slots.filter live) nn (rank live slots index) pos where
  index_le := rank_le_length
  position_le := h.position_le
  before_iff := fun i z hz hlv => by
    obtain ⟨old, hold, rfl⟩ := exists_of_getElem?_filter hz
    rw [rank_lt_rank_iff hold hlv]
    exact h.before_iff old z hold hlv

variable {newCapacity : Nat}

/-- **Packing** takes the empty slots out, and nothing else changes. -/
theorem Refines.pack (hc : slots.length ≤ newCapacity) :
    Refines kind (m.replaceAndPackBackingStore newCapacity) a (slots.filter live) := by
  have hlp := packLoop_eq [] m.iterators slots
  rw [← h.entries] at hlp
  have hpc : m.replaceAndPackBackingStore newCapacity
      = { tables := fun tbl key =>
            (m.tables tbl key).map (forwardingIndex (forwardedSlots 0 slots))
          capacity := newCapacity
          deletedCount := 0
          entries := (slots.filter live).map slot
          iterators := m.iterators.map (packedIterator 0 slots) } := by
    rw [replaceAndPackBackingStore, hlp]
    rfl
  rw [hpc]
  refine
    { entries := rfl
      ordered := ?_
      numbers := h.numbers.sublist filter_sublist
      number_lt := fun z hz => h.number_lt z (mem_filter.mp hz).1
      tables := fun tbl key index => ?_
      capacity := le_trans (length_filter_le _ _) hc
      deletedCount := ?_
      iterators := fun n => ?_ }
  · -- The empty slots have no entry.
    rw [h.ordered, filterMap_filter]
    refine filterMap_congr (fun z _ => ?_)
    by_cases hlv : z.live = true
    · rw [if_pos hlv]
    rw [if_neg hlv]
    rw [live, Bool.not_eq_true, Option.isSome_eq_false_iff,
      Option.isNone_iff_eq_none] at hlv
    rw [entry, hlv]
    rfl
  · constructor
    · intro htbl
      obtain ⟨old, hold, rfl⟩ := Option.map_eq_some_iff.mp htbl
      obtain ⟨hkn, z, hz, hk⟩ := (h.tables tbl key old).mp hold
      rw [forwardingIndex_eq hz hk.live, zero_add]
      exact ⟨hkn, z, getElem?_rank hz hk.live, hk⟩
    · rintro ⟨hkn, z, hz, hk⟩
      obtain ⟨old, hold, rfl⟩ := exists_of_getElem?_filter hz
      have htbl := (h.tables tbl key old).mpr ⟨hkn, z, hold, hk⟩
      simp only [htbl, Option.map_some, forwardingIndex_eq hold hk.live, zero_add]
  · rw [zero_add, countP_eq_length_filter, filter_filter]
    simp
  · rw [getElem?_map]
    refine rel_map (fun _ _ hit => ?_) (h.iterators n)
    cases hit with
    | none => rw [packedIterator_none]; exact .none
    | some hp =>
      rw [packedIterator_rank hp.index_le]
      exact .some hp.pack

theorem Refines.moveBackingStore (hc : slots.length ≤ newCapacity) :
    ∃ slots', Refines kind (m.moveBackingStore newCapacity) a slots' ∧
      slots'.length ≤ slots.length := by
  rw [MapData.moveBackingStore]
  split
  · exact ⟨_, h.pack hc, length_filter_le _ _⟩
  · exact ⟨slots, { h with capacity := hc }, le_rfl⟩

end Packing

/-! ## A new entry -/

section Append

variable {key : Key}

omit h in
theorem SamePlace.append {nn index pos : Nat}
    (h : SamePlace slots nn index pos) (cont : Option (Key × Value)) :
    SamePlace (slots ++ [⟨nn, cont⟩]) (nn + 1) index pos where
  index_le := by
    rw [length_append]
    exact le_trans h.index_le (Nat.le_add_right _ _)
  position_le := Nat.le_succ_of_le h.position_le
  before_iff := fun i z hz hlv => by
    rcases getElem?_concat.mp hz with hz | ⟨rfl, rfl⟩
    · exact h.before_iff i z hz hlv
    -- The new slot is behind every iterator.
    have hi := h.index_le
    have hps := h.position_le
    simp only
    omega

variable {m' : MapData Key Value}

theorem Refines.ensureSpaceForAppend
    (hspc : m.ensureSpaceForAppend = some m') :
    ∃ slots', Refines kind m' a slots' ∧ slots'.length < m'.capacity := by
  have hl : m.entries.length = slots.length := by rw [h.entries, length_map]
  rw [MapData.ensureSpaceForAppend, hl] at hspc
  split at hspc
  · next hrm =>
    cases hspc
    exact ⟨slots, h, hrm⟩
  split at hspc
  · cases hspc
    have hc := h.capacity
    have hgrw : slots.length < max (grownCapacity m.capacity) MapData.minimumMapSize := by
      refine lt_of_lt_of_le ?_ (le_max_left _ _)
      rw [grownCapacity]
      omega
    obtain ⟨slots', hm, hle⟩ := h.moveBackingStore (le_of_lt hgrw)
    refine ⟨slots', hm, lt_of_le_of_lt hle ?_⟩
    rw [MapData.moveBackingStore]
    split <;> exact hgrw
  · cases hspc

variable [DecidableEq Key]

theorem Refines.append (hfn : m.find kind key = none)
    (hrm : slots.length < m.capacity) (val : Value) :
    Refines kind
      { m with
        tables := m.updateTable kind key (some m.entries.length)
        entries := m.entries ++ [.entry key val] }
      (a.set key val) (slots ++ [⟨a.nextNumber, some (key, val)⟩]) := by
  have hs : a.set key val = { a with
      entries := a.entries ++ [⟨a.nextNumber, key, val⟩]
      nextNumber := a.nextNumber + 1 } := by
    rw [OrderedMap.set, h.ordered_find_none.mpr hfn]
    rfl
  have hl : m.entries.length = slots.length := by rw [h.entries, length_map]
  rw [hs]
  refine
    { entries := by rw [map_append, h.entries]; rfl
      ordered := by rw [filterMap_append, h.ordered]; rfl
      numbers := ?_
      number_lt := ?_
      tables := fun tbl k i => ?_
      capacity := by rw [length_append]; exact hrm
      deletedCount := ?_
      iterators := fun n => ?_ }
  · refine pairwise_append.mpr ⟨h.numbers, pairwise_singleton _ _, ?_⟩
    intro x hx y hy
    rw [mem_singleton.mp hy]
    exact h.number_lt x hx
  · refine forall_mem_append.mpr ⟨fun z hz => Nat.lt_succ_of_lt (h.number_lt z hz), ?_⟩
    exact fun z hz => mem_singleton.mp hz ▸ Nat.lt_succ_self _
  · show m.updateTable kind key (some m.entries.length) tbl k = some i ↔ _
    rw [updateTable_apply, hl]
    constructor
    · intro htbl
      split at htbl
      · next hsm =>
        cases htbl
        obtain ⟨rfl, rfl⟩ := hsm
        exact ⟨rfl, _, getElem?_concat_length, val, rfl⟩
      · obtain ⟨hkn, z, hz, hk⟩ := (h.tables tbl k i).mp htbl
        exact ⟨hkn, z, getElem?_concat.mpr (.inl hz), hk⟩
    · rintro ⟨rfl, z, hz, hk⟩
      rcases getElem?_concat.mp hz with hz | ⟨rfl, rfl⟩
      · have htbl := (h.tables (kind k) k i).mpr ⟨rfl, z, hz, hk⟩
        have hne : ¬(kind k = kind key ∧ k = key) := by
          rintro ⟨-, rfl⟩
          rw [find, htbl] at hfn
          cases hfn
        rw [if_neg hne]
        exact htbl
      · obtain ⟨v, hv⟩ := hk
        obtain ⟨rfl, -⟩ := Prod.mk.inj (Option.some.inj hv)
        rw [if_pos ⟨rfl, rfl⟩]
  · have hc := h.deletedCount
    rw [countP_append, length_append, countP_singleton]
    simp only [live, Option.isSome_some, if_true, length_singleton] at hc ⊢
    omega
  · exact rel_mono (fun _ _ => rel_mono fun _ _ hp => hp.append _) (h.iterators n)

theorem Refines.set {val : Value} (hs : m.set kind key val = some m') :
    ∃ slots', Refines kind m' (a.set key val) slots' := by
  rw [MapData.set] at hs
  cases hfn : m.find kind key with
  | some index =>
    rw [hfn] at hs
    cases hs
    exact h.set_found hfn val
  | none =>
    rw [hfn] at hs
    cases hspc : m.ensureSpaceForAppend with
    | none => rw [hspc] at hs; cases hs
    | some grown =>
      rw [hspc] at hs
      cases hs
      obtain ⟨slots', hgrw, hrm⟩ := h.ensureSpaceForAppend hspc
      have hno : grown.find kind key = none :=
        hgrw.ordered_find_none.mp (h.ordered_find_none.mpr hfn)
      exact ⟨_, hgrw.append hno hrm val⟩

theorem Refines.remove : (m.remove kind key).1 = (a.remove key).1 ∧
      ∃ slots', Refines kind (m.remove kind key).2 (a.remove key).2 slots' := by
  have hans : (a.remove key).1 = (a.find key).isSome := rfl
  rw [MapData.remove]
  cases hfn : m.find kind key with
  | some index =>
    obtain ⟨z, val, -, -, hfnd⟩ := h.find_spec hfn
    refine ⟨?_, h.remove_found hfn⟩
    rw [hans, hfnd]
    rfl
  | none =>
    have hno := h.ordered_find_none.mpr hfn
    refine ⟨?_, slots, ?_⟩
    · rw [hans, hno]
      rfl
    · have hsm : (a.remove key).2 = a := by
        have hkp : a.entries.filter (fun ent => ent.key ≠ key) = a.entries := by
          refine filter_eq_self.mpr (fun e he => ?_)
          have hne := find?_eq_none.mp hno e he
          simpa using hne
        rw [OrderedMap.remove]
        simp only [hkp]
      rw [hsm]
      exact h

end Append

theorem Refines.clear : Refines kind m.clear a.clear [] where
  entries := rfl
  ordered := rfl
  numbers := List.Pairwise.nil
  number_lt := forall_mem_nil _
  tables := fun tbl key index => by simp [MapData.clear]
  capacity := le_refl 0
  deletedCount := rfl
  iterators := fun n => by
    rw [MapData.clear, getElem?_map]
    refine rel_map (fun _ _ hit => ?_) (h.iterators n)
    cases hit with
    | none => exact .none
    | some hp => exact .some ⟨le_refl 0, hp.position_le, by simp⟩

theorem Refines.copyBackingStore :
    ∃ slots', Refines kind m.copyBackingStore a slots' := by
  rw [MapData.copyBackingStore]
  split
  · exact ⟨slots, h⟩
  · obtain ⟨slots', hm, -⟩ := h.moveBackingStore h.capacity
    exact ⟨slots', hm⟩

end Relation

end WebKit.Runtime
