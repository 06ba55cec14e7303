import Mathlib.Algebra.Ring.Nat
import Mathlib.Data.List.Nodup
import Mathlib.Data.List.Perm.Basic
import WebKit.Lib.Runs

/-!
# Storage maps

A `StorageMap` is a map from strings to strings with a quota. A mutation of a map with more than
one reference works on a copy, and returns it. The iterator for `key` is kept from one call to the
next.

The entries of a table are listed in the order of its iterators. A new entry, a removed entry and a
copy may change the order, so events say what it is then. Using an iterator that was made before
the table changed has no result.
-/

namespace WebKit.Storage

/-- A string that is not null. Lengths are `unsigned`. -/
abbrev WString : Type := { characters : List (BitVec 16) // characters.length < 2 ^ 32 }

namespace WString

def length (s : WString) : Nat := s.val.length

end WString

def unsigned (n : Nat) : Nat := n % 2 ^ 32

def unsignedMax : Nat := 2 ^ 32 - 1

abbrev Entries : Type := List (WString × WString)

/-- A table has less than this many entries: its size is a power of two and an `unsigned`. -/
def maximumKeyCount : Nat := 2 ^ 31

structure Iterator where
  /-- The version of the table it belongs to. -/
  version : Nat
  position : Nat
  deriving DecidableEq

structure StorageMap where
  map : Entries
  /-- How often entries were added to the table or removed. -/
  version : Nat
  /-- None is `end()`. -/
  iterator : Option Iterator
  iteratorIndex : Nat
  quotaSize : Nat
  currentLength : Nat
  /-- The quota that the map, or the map it was copied from, was created with. -/
  createdWith : Nat

namespace StorageMap

def noQuota : Nat := unsignedMax

def create (quota : Nat) : StorageMap where
  map := []
  version := 0
  iterator := none
  iteratorIndex := unsignedMax
  quotaSize := quota
  currentLength := 0
  createdWith := quota

variable (m : StorageMap)

/-- `copy`, with the entries in the order of the new table. -/
def copy (copied : Entries) : Option StorageMap :=
  if copied.Perm m.map then
    some { create m.quotaSize with
      map := copied
      currentLength := m.currentLength
      createdWith := m.createdWith }
  else none

def invalidateIterator : StorageMap :=
  { m with iterator := none, iteratorIndex := unsignedMax }

/-! ## `key` -/

/-- The loop of `setIteratorToIndex`: this many increments. -/
def advance : Nat → StorageMap → StorageMap
  | 0, m => m
  | n + 1, m =>
    advance n { m with
      iteratorIndex := m.iteratorIndex + 1
      iterator := m.iterator.map fun it => { it with position := it.position + 1 } }

def setIteratorToIndex (index : Nat) : StorageMap :=
  if m.iteratorIndex = index then m
  else
    let m := if index < m.iteratorIndex then
      { m with iteratorIndex := 0, iterator := some ⟨m.version, 0⟩ } else m
    advance (index - m.iteratorIndex) m

def length (m : StorageMap) : Nat := m.map.length

/-- The key of the entry that the iterator is at. -/
def iteratorKey : Option WString :=
  match m.iterator with
  | none => none
  | some it =>
    if it.version = m.version then m.map[it.position]?.map (·.1) else none

/-- `key`. The null string is `none`; no result is `none` too, at the outside. -/
def key (index : Nat) : Option (Option WString × StorageMap) :=
  if index ≥ m.length then some (none, m)
  else
    let m := m.setIteratorToIndex index
    match m.iteratorKey with
    | none => none
    | some k => some (some k, m)

/-! ## Mutations of a map that is not shared -/

def get (key : WString) : Option WString := m.map.lookup key

/-- The length of a value, which may be null. -/
def valueLength (value : Option WString) : Nat := value.elim 0 WString.length

variable (key value : WString)

/-- `HashMap::add`, and the assignment of the value if there is an entry already. -/
def add (order : Entries) : Option StorageMap :=
  match m.get key with
  | some _ =>
    some { m with map := m.map.map fun e => if e.1 = key then (key, value) else e }
  | none =>
    if order.Perm ((key, value) :: m.map) ∧ order.length < maximumKeyCount then
      some { m with map := order, version := m.version + 1 }
    else none

/-- The length after `setItem`, and whether a step of its computation overflowed. -/
def newLength : Nat × Bool :=
  let newLength₀ := m.currentLength
  let overflow := decide (unsigned (newLength₀ + value.length) < newLength₀)
  let newLength₁ := unsigned (newLength₀ + value.length)
  let oldValue := m.get key
  let newLength₂ := unsigned (newLength₁ + (2 ^ 32 - valueLength oldValue))
  let overflow := overflow || decide (newLength₂ > newLength₁)
  let adjustedKeyLength := if oldValue.isNone then key.length else 0
  let overflow := overflow || decide (unsigned (newLength₂ + adjustedKeyLength) < newLength₂)
  (unsigned (newLength₂ + adjustedKeyLength), overflow)

/-- `setItem` of a map with one reference. The result says whether the quota was exceeded. -/
def setItem (order : Entries) :
    Option (StorageMap × Bool) :=
  let (newLength, overflow) := m.newLength key value
  let overQuota := decide (newLength > m.quotaSize / 2)
  if m.quotaSize ≠ noQuota ∧ (overflow || overQuota) then some (m, true)
  else
    (add { m with currentLength := newLength } key value order).map fun m =>
      (m.invalidateIterator, false)

/-- `removeItem` of a map with one reference. -/
def removeItem (key : WString) (order : Entries) : Option StorageMap :=
  match m.get key with
  | some oldValue =>
    if order.Perm (m.map.eraseP fun e => e.1 = key) then
      some { m.invalidateIterator with
        map := order
        version := m.version + 1
        currentLength :=
          unsigned (unsigned (m.currentLength + (2 ^ 32 - key.length)) +
            (2 ^ 32 - oldValue.length)) }
    else none
  | none => some m

/-- The lengths that `importItems` adds, one by one. -/
def importLength (currentLength : Nat) (items : Entries) : Nat :=
  items.foldl (fun n e => unsigned (unsigned (n + e.1.length) + e.2.length)) currentLength

/-- `importItems`, of keys that are new. It does not look at the references. -/
def importItems (items order : Entries) : Option StorageMap :=
  if items.isEmpty then some m
  else if order.Perm (items ++ m.map) ∧ order.length < maximumKeyCount ∧
      (order.map (·.1)).Nodup then
    some { m with
      map := order
      version := m.version + items.length
      currentLength := importLength m.currentLength items }
  else none

end StorageMap

/-! ## Handles -/

/-- What happened in an operation through a handle. -/
structure Observation where
  handle : Nat
  /-- The contents seen through each handle. -/
  before : List (Option Entries)
  after : List (Option Entries)
  /-- For `setItem`: the quota, the new entry and whether an exception was reported. -/
  setItem : Option (Nat × (WString × WString) × Bool) := none

/-- All maps and all references to them. -/
structure World where
  maps : List StorageMap
  /-- A handle refers to a map, until it is released. -/
  handles : List (Option Nat)
  observations : List Observation

inductive Event
  | create (quota : Nat)
  /-- Another reference to the map of a handle. -/
  | share (handle : Nat)
  | release (handle : Nat)
  | setItem (handle : Nat) (key value : WString) (copied order : Entries)
  | setItemIgnoringQuota (handle : Nat) (key value : WString) (copied order : Entries)
  | removeItem (handle : Nat) (key : WString) (copied order : Entries)
  | importItems (handle : Nat) (items order : Entries)
  | key (handle index : Nat)

namespace World

def initial : World := ⟨[], [], []⟩

variable (w : World)

def refCount (map : Nat) : Nat := w.handles.count (some map)

def mapOf (handle : Nat) : Option (Nat × StorageMap) :=
  match w.handles[handle]? with
  | some (some map) => w.maps[map]?.map fun m => (map, m)
  | _ => none

/-- The entries that are seen through a handle. -/
def entriesOf (map : Option Nat) : Option Entries :=
  map.bind fun map => w.maps[map]?.map StorageMap.map

/-- What is seen through each handle. -/
def contents : List (Option Entries) := w.handles.map w.entriesOf

/-- A map is changed in place. -/
def set (w : World) (map : Nat) (m : StorageMap) : World := { w with maps := w.maps.set map m }

/-- The handle refers to a new map from now on. -/
def replace (handle : Nat) (m : StorageMap) : World :=
  { w with maps := w.maps ++ [m], handles := w.handles.set handle (some w.maps.length) }

/-- The operation is recorded. -/
def observe (w w' : World) (handle : Nat)
    (setItem : Option (Nat × (WString × WString) × Bool)) : World :=
  { w' with observations := ⟨handle, w.contents, w'.contents, setItem⟩ :: w.observations }

/-- Copy-on-write: `mutate` works on a copy of the map if it has other references. -/
def copyOnWrite {β : Type} (w : World) (handle map : Nat) (m : StorageMap) (copied : Entries)
    (mutate : StorageMap → Option (StorageMap × β)) : Option (World × β) :=
  if w.refCount map > 1 then do
    let m ← m.copy copied
    let (m, result) ← mutate m
    some (w.replace handle m, result)
  else do
    let (m, result) ← mutate m
    some (w.set map m, result)

/-- `setItemIgnoringQuota`: the quota is changed while `setItem` runs, also while it copies. -/
def setItemIgnoringQuota (handle map : Nat) (m : StorageMap) (copied : Entries)
    (key value : WString) (order : Entries) : Option World :=
  if w.refCount map > 1 then do
    let m ← StorageMap.copy { m with quotaSize := StorageMap.noQuota } copied
    let (m, _) ← m.setItem key value order
    some (w.replace handle m)
  else do
    let (m', _) ← StorageMap.setItem { m with quotaSize := StorageMap.noQuota } key value order
    some (w.set map { m' with quotaSize := m.quotaSize })

def step (w : World) : Event → Option World
  | .create quota =>
    if quota < 2 ^ 32 then
      some { w with
        maps := w.maps ++ [.create quota]
        handles := w.handles ++ [some w.maps.length] }
    else none
  | .share handle =>
    match w.mapOf handle with
    | none => none
    | some (map, _) => some { w with handles := w.handles ++ [some map] }
  | .release handle => some { w with handles := w.handles.set handle none }
  | .setItem handle key value copied order =>
    match w.mapOf handle with
    | none => none
    | some (map, m) =>
      (w.copyOnWrite handle map m copied fun m => m.setItem key value order).map fun r =>
        w.observe r.1 handle (some (m.quotaSize, (key, value), r.2))
  | .setItemIgnoringQuota handle key value copied order =>
    match w.mapOf handle with
    | none => none
    | some (map, m) =>
      (w.setItemIgnoringQuota handle map m copied key value order).map fun w' =>
        w.observe w' handle none
  | .removeItem handle key copied order =>
    match w.mapOf handle with
    | none => none
    | some (map, m) =>
      (w.copyOnWrite handle map m copied fun m =>
        (m.removeItem key order).map fun m => (m, ())).map fun r => w.observe r.1 handle none
  | .importItems handle items order =>
    match w.mapOf handle with
    | none => none
    | some (map, m) =>
      (m.importItems items order).map fun m => w.observe (w.set map m) handle none
  | .key handle index =>
    match w.mapOf handle with
    | none => none
    | some (map, m) => (m.key index).map fun r => w.observe (w.set map r.2) handle none

end World

end WebKit.Storage
