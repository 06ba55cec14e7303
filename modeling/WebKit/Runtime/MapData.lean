import Mathlib.Algebra.Ring.Nat
import WebKit.Lib.Packing
import WebKit.Lib.Runs

/-!
# `MapDataImpl`, the storage of a JavaScript `Map`

The entries of a map stand in an array in the order in which they were added, and four hash tables,
one for each kind of key, have the index of every key. A removed entry leaves an empty slot. When
the array is full, or when the collector moves it, it is packed: entries move down over the empty
slots, their old slots get their new index for the tables, and every iterator, an index into the
array, is told of each empty slot.

The capacity grows by half each time the array is full, also of empty slots, and is computed in 32
bits. An overflow is `undefined`; a small map gets there if a key is set and removed often enough.
Allocation always succeeds.

`OrderedMap` says what the storage is for: a list of entries, each numbered when it is added. An
iterator is a number, and moves to the first entry with this number or a higher one.
-/

namespace WebKit.Runtime

/-- The table that a key is in. -/
inductive TableKind where
  | cellKeyedTable
  | valueKeyedTable
  | stringKeyedTable
  | symbolKeyedTable
  deriving DecidableEq

/-- A slot of `m_entries`. While the store is packed, a moved entry has its new index. -/
inductive Slot (Key Value : Type*) where
  | empty
  | entry (key : Key) (value : Value)
  | forwarded (index : Nat)
  deriving DecidableEq

/-- The slots are the first `m_size` ones; an iterator is its index, or none if it is finished. -/
structure MapData (Key Value : Type*) where
  tables : TableKind → Key → Option Nat
  capacity : Nat
  deletedCount : Nat
  entries : List (Slot Key Value)
  iterators : List (Option Nat)

namespace MapData

variable {Key Value : Type*}

def create : MapData Key Value where
  tables := fun _ _ => none
  capacity := 0
  deletedCount := 0
  entries := []
  iterators := []

def minimumMapSize : Nat := 8

/-! ## Packing -/

def didRemoveEntry (packedIndex : Nat) : Option Nat → Option Nat
  | none => none
  | some index => if index ≤ packedIndex then some index else some (index - 1)

/-- The loop of `replaceAndPackBackingStore`: the destination, the old slots as it leaves them, and
the iterators. The new index of an entry is the length of the destination. -/
def packLoop (destination : List (Slot Key Value)) (iterators : List (Option Nat)) :
    List (Slot Key Value) → List (Slot Key Value) × List (Slot Key Value) × List (Option Nat)
  | [] => (destination, [], iterators)
  | .empty :: rest =>
    let (packed, old, iterators) :=
      packLoop destination (iterators.map (didRemoveEntry destination.length)) rest
    (packed, .empty :: old, iterators)
  | slot :: rest =>
    let (packed, old, iterators) := packLoop (destination ++ [slot]) iterators rest
    (packed, .forwarded destination.length :: old, iterators)

/-- `m_entries[index].key().get().asInt32()`. A slot in a table has been moved. -/
def forwardingIndex (old : List (Slot Key Value)) (index : Nat) : Nat :=
  match old[index]? with
  | some (.forwarded newIndex) => newIndex
  | _ => 0

variable (m : MapData Key Value) (newCapacity : Nat)

def replaceAndPackBackingStore : MapData Key Value :=
  let (packed, old, iterators) := packLoop [] m.iterators m.entries
  { tables := fun table key => (m.tables table key).map (forwardingIndex old)
    capacity := newCapacity
    deletedCount := 0
    entries := packed
    iterators := iterators }

def replaceBackingStore : MapData Key Value :=
  { m with capacity := newCapacity }

/-- The store is packed if entries were removed, and copied otherwise. -/
def moveBackingStore : MapData Key Value :=
  if m.deletedCount ≠ 0 then m.replaceAndPackBackingStore newCapacity
  else m.replaceBackingStore newCapacity

/-- The capacity that a full store is given, before the comparison with the minimum. -/
def grownCapacity (capacity : Nat) : Nat := capacity + capacity / 2 + 1

/-- A sum that does not fit `int32_t` is undefined. -/
def ensureSpaceForAppend : Option (MapData Key Value) :=
  if m.capacity > m.entries.length then some m
  else if grownCapacity m.capacity < 2 ^ 31 then
    some (m.moveBackingStore (max (grownCapacity m.capacity) minimumMapSize))
  else none

/-- The collector moves a store that exists. -/
def copyBackingStore : MapData Key Value :=
  if m.capacity = 0 then m else m.moveBackingStore m.capacity

/-! ## Lookups and changes -/

section Keys

variable [DecidableEq Key] (kind : Key → TableKind)

/-- The index of the entry with the key. -/
def find (m : MapData Key Value) (key : Key) : Option Nat := m.tables (kind key) key

/-- `table.add(key, index)` and `table.remove(key)`. -/
def updateTable (m : MapData Key Value) (key : Key) (index : Option Nat) :
    TableKind → Key → Option Nat :=
  fun table other =>
    if table = kind key ∧ other = key then index else m.tables table other

theorem updateTable_apply (key other : Key) (idx : Option Nat)
    (tbl : TableKind) : m.updateTable kind key idx tbl other
      = if tbl = kind key ∧ other = key then idx else m.tables tbl other := rfl

def set (m : MapData Key Value) (key : Key) (value : Value) : Option (MapData Key Value) :=
  match m.find kind key with
  | some index => some { m with entries := m.entries.set index (.entry key value) }
  | none =>
    match m.ensureSpaceForAppend with
    | none => none
    | some m =>
      some
        { m with
          tables := m.updateTable kind key (some m.entries.length)
          entries := m.entries ++ [.entry key value] }

/-- The value of the slot that a table leads to. -/
def get (m : MapData Key Value) (key : Key) : Option Value :=
  match m.find kind key with
  | none => none
  | some index =>
    match m.entries[index]? with
    | some (.entry _ value) => some value
    | _ => none

def contains (m : MapData Key Value) (key : Key) : Bool := (m.find kind key).isSome

def remove (m : MapData Key Value) (key : Key) : Bool × MapData Key Value :=
  match m.find kind key with
  | none => (false, m)
  | some location =>
    (true,
      { m with
        tables := m.updateTable kind key none
        entries := m.entries.set location .empty
        deletedCount := m.deletedCount + 1 })

end Keys

def size : Nat := m.entries.length - m.deletedCount

def didRemoveAllEntries : Option Nat → Option Nat
  | none => none
  | some _ => some 0

def clear : MapData Key Value where
  tables := fun _ _ => none
  capacity := 0
  deletedCount := 0
  entries := []
  iterators := m.iterators.map didRemoveAllEntries

/-! ## Iterators -/

def createIteratorData : MapData Key Value :=
  { m with iterators := m.iterators ++ [some 0] }

/-- The loop of `refreshCursor` over the slots from the index on. -/
def refreshCursor : List (Slot Key Value) → Nat → Nat
  | .empty :: rest, index => refreshCursor rest (index + 1)
  | _, index => index

/-- `IteratorData::next` of the n-th iterator: the entry it gives, if it gives one. -/
def next (n : Nat) : Option (Key × Value) × MapData Key Value :=
  match m.iterators[n]? with
  | some (some index) =>
    let index := refreshCursor (m.entries.drop index) index
    match m.entries[index]? with
    | some (.entry key value) =>
      (some (key, value), { m with iterators := m.iterators.set n (some (index + 1)) })
    | _ => (none, { m with iterators := m.iterators.set n (some index) })
  | _ => (none, m)

def finish (n : Nat) : MapData Key Value :=
  { m with iterators := m.iterators.set n none }

end MapData

/-! ## What the storage is for -/

/-- An entry, with the number it was given when it was added. -/
structure OrderedEntry (Key Value : Type*) where
  number : Nat
  key : Key
  value : Value
  deriving DecidableEq

/-- The entries in the order of their numbers, and where each iterator goes on, or none. -/
structure OrderedMap (Key Value : Type*) where
  entries : List (OrderedEntry Key Value)
  nextNumber : Nat
  iterators : List (Option Nat)

namespace OrderedMap

variable {Key Value : Type*} [DecidableEq Key]

def create : OrderedMap Key Value := ⟨[], 0, []⟩

def find (m : OrderedMap Key Value) (key : Key) : Option (OrderedEntry Key Value) :=
  m.entries.find? (fun entry => entry.key = key)

variable (m : OrderedMap Key Value) (key : Key)

/-- A key that is there keeps its place. -/
def set (value : Value) : OrderedMap Key Value :=
  if (m.find key).isSome then
    { m with
      entries := m.entries.map (fun entry =>
        if entry.key = key then { entry with value } else entry) }
  else
    { m with
      entries := m.entries ++ [⟨m.nextNumber, key, value⟩]
      nextNumber := m.nextNumber + 1 }

def get : Option Value :=
  (m.find key).map OrderedEntry.value

def contains : Bool := (m.find key).isSome

def remove : Bool × OrderedMap Key Value :=
  ((m.find key).isSome, { m with entries := m.entries.filter (fun entry => entry.key ≠ key) })

def size : Nat := m.entries.length

def clear : OrderedMap Key Value := { m with entries := [] }

/-- A new iterator is before all entries. -/
def createIterator : OrderedMap Key Value :=
  { m with iterators := m.iterators ++ [some 0] }

/-- The first entry at or after the position of the iterator, which then is right behind it. -/
def next (n : Nat) : Option (Key × Value) × OrderedMap Key Value :=
  match m.iterators[n]? with
  | some (some position) =>
    match m.entries.find? (fun entry => position ≤ entry.number) with
    | some entry =>
      (some (entry.key, entry.value),
        { m with iterators := m.iterators.set n (some (entry.number + 1)) })
    | none => (none, m)
  | _ => (none, m)

def finish (n : Nat) : OrderedMap Key Value :=
  { m with iterators := m.iterators.set n none }

end OrderedMap

/-! ## Both side by side -/

/-- A call, or a move of the store by the collector. Iterators are numbered as they are
created. -/
inductive MapEvent (Key Value : Type*) where
  | set (key : Key) (value : Value)
  | get (key : Key)
  | contains (key : Key)
  | remove (key : Key)
  | size
  | clear
  | createIterator
  | next (n : Nat)
  | finish (n : Nat)
  | copyBackingStore

inductive MapAnswer (Key Value : Type*) where
  | value (value : Option Value)
  | bool (result : Bool)
  | count (size : Nat)
  | entry (entry : Option (Key × Value))
  deriving DecidableEq

/-- The storage and the ordered map after the same calls, with the answers, the last one first. -/
structure MapState (Key Value : Type*) where
  data : MapData Key Value
  dataAnswers : List (MapAnswer Key Value)
  /-- The capacity has overflowed. -/
  undefined : Bool
  ordered : OrderedMap Key Value
  orderedAnswers : List (MapAnswer Key Value)

namespace MapState

variable {Key Value : Type*} [DecidableEq Key] (kind : Key → TableKind)

def create : MapState Key Value where
  data := .create
  dataAnswers := []
  undefined := false
  ordered := .create
  orderedAnswers := []

/-- Both answer a call. -/
def answer (s : MapState Key Value) (data : MapAnswer Key Value × MapData Key Value)
    (ordered : MapAnswer Key Value × OrderedMap Key Value) : MapState Key Value :=
  { s with
    data := data.2
    dataAnswers := data.1 :: s.dataAnswers
    ordered := ordered.2
    orderedAnswers := ordered.1 :: s.orderedAnswers }

def step (s : MapState Key Value) : MapEvent Key Value → Option (MapState Key Value)
  | .set key value =>
    match s.data.set kind key value with
    | some data => some { s with data, ordered := s.ordered.set key value }
    | none => some { s with undefined := true }
  | .get key =>
    some (s.answer (.value (s.data.get kind key), s.data)
      (.value (s.ordered.get key), s.ordered))
  | .contains key =>
    some (s.answer (.bool (s.data.contains kind key), s.data)
      (.bool (s.ordered.contains key), s.ordered))
  | .remove key =>
    let data := s.data.remove kind key
    let ordered := s.ordered.remove key
    some (s.answer (.bool data.1, data.2) (.bool ordered.1, ordered.2))
  | .size => some (s.answer (.count s.data.size, s.data) (.count s.ordered.size, s.ordered))
  | .clear => some { s with data := s.data.clear, ordered := s.ordered.clear }
  | .createIterator =>
    some { s with data := s.data.createIteratorData, ordered := s.ordered.createIterator }
  | .next n =>
    let data := s.data.next n
    let ordered := s.ordered.next n
    some (s.answer (.entry data.1, data.2) (.entry ordered.1, ordered.2))
  | .finish n => some { s with data := s.data.finish n, ordered := s.ordered.finish n }
  | .copyBackingStore => some { s with data := s.data.copyBackingStore }

/-- The storage has answered every call as the ordered map. -/
def Agrees (s : MapState Key Value) : Prop :=
  s.undefined = false ∧ s.dataAnswers = s.orderedAnswers

/-- A call does not make the capacity overflow. -/
def GrowthFits (s : MapState Key Value) : MapEvent Key Value → Prop
  | .set key _ => s.data.find kind key = none → s.data.capacity ≤ s.data.entries.length →
      MapData.grownCapacity s.data.capacity < 2 ^ 31
  | _ => True

end MapState

end WebKit.Runtime
