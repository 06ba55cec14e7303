import WebKit.Lib.OpenAddressing

/-!
# `HashTable`

Open addressing with double hashing, as in `wtf/HashTable.h`. A bucket whose key is the empty value
is `empty`, one whose key is the deleted value is `deleted`, and keys are neither.

Hashes, strides and masks are 32-bit words, and the products in the load tests and the table sizes
are taken modulo `2 ^ 32`. The counters never exceed the number of buckets. A probe loop may
inspect as many buckets as the table has; `none` is a loop that would go on, or that reads outside.
-/

namespace WebKit.Wtf

open OpenAddressing

/-- What a table takes from `HashFunctions` and `KeyTraits`. -/
structure KeyTraits (κ : Type) where
  hash : κ → BitVec 32
  minimumTableSize : Nat
  minimumTableSize_pow : ∃ m, 1 ≤ m ∧ m ≤ 30 ∧ minimumTableSize = 2 ^ m

/-- The result of an `unsigned` computation. -/
def unsigned (n : Nat) : Nat := n % 2 ^ 32

def doubleHash (key : BitVec 32) : BitVec 32 :=
  let key := ~~~key + (key >>> 23)
  let key := key ^^^ (key <<< 12)
  let key := key ^^^ (key >>> 7)
  let key := key ^^^ (key <<< 2)
  key ^^^ (key >>> 20)

def roundUpToPowerOfTwo (v : BitVec 32) : BitVec 32 :=
  let v := v - 1
  let v := v ||| (v >>> 1)
  let v := v ||| (v >>> 2)
  let v := v ||| (v >>> 4)
  let v := v ||| (v >>> 8)
  let v := v ||| (v >>> 16)
  v + 1

/-- The members of `HashTable`. A table that is not allocated has no buckets. -/
structure HashTable (κ ν : Type) where
  table : List (Bucket κ ν) := []
  keyCount : Nat := 0
  deletedCount : Nat := 0

namespace HashTable

variable {κ ν : Type} [DecidableEq κ]

def maxLoad : Nat := 2

def minLoad : Nat := 6

variable (t : HashTable κ ν)

def tableSize : Nat := t.table.length

def tableSizeMask : BitVec 32 := BitVec.ofNat 32 t.tableSize - 1

def size : Nat := t.keyCount

def shouldExpand : Bool :=
  unsigned ((t.keyCount + t.deletedCount) * maxLoad) ≥ t.tableSize

def mustRehashInPlace : Bool :=
  unsigned (t.keyCount * minLoad) < unsigned (t.tableSize * 2)

variable (tr : KeyTraits κ)

def shouldShrink (t : HashTable κ ν) : Bool :=
  unsigned (t.keyCount * minLoad) < t.tableSize && t.tableSize > tr.minimumTableSize

/-! ## Probing -/

/-- The stride of a key with hash `h`: it is set at the first collision and then
stays. -/
def stride (h : BitVec 32) : BitVec 32 := 1 ||| doubleHash h

/-- The loop of `lookup` from position `i`: the bucket of `key`, if there is one. -/
def lookupLoop (table : List (Bucket κ ν)) (key : κ) (k sizeMask : BitVec 32) :
    Nat → BitVec 32 → Option (Option Nat)
  | 0, _ => none
  | fuel + 1, i =>
    match table[i.toNat]? with
    | none => none
    | some .empty => some none
    | some .deleted => lookupLoop table key k sizeMask fuel ((i + k) &&& sizeMask)
    | some (.live key' _) =>
      if key' = key then some (some i.toNat)
      else lookupLoop table key k sizeMask fuel ((i + k) &&& sizeMask)

def lookup (t : HashTable κ ν) (key : κ) : Option (Option Nat) :=
  if t.table = [] then some none
  else
    let h := tr.hash key
    lookupLoop t.table key (stride h) t.tableSizeMask t.tableSize (h &&& t.tableSizeMask)

/-- The loop of `lookupForWriting` and `add`: the bucket of `key`, or the bucket to write to. -/
def writingLoop (table : List (Bucket κ ν)) (key : κ) (k sizeMask : BitVec 32) :
    Nat → BitVec 32 → Option Nat → Option (Nat × Bool)
  | 0, _, _ => none
  | fuel + 1, i, deletedEntry =>
    match table[i.toNat]? with
    | none => none
    | some .empty => some (deletedEntry.getD i.toNat, false)
    | some .deleted =>
      writingLoop table key k sizeMask fuel ((i + k) &&& sizeMask) (some i.toNat)
    | some (.live key' _) =>
      if key' = key then some (i.toNat, true)
      else writingLoop table key k sizeMask fuel ((i + k) &&& sizeMask) deletedEntry

def lookupForWriting (t : HashTable κ ν) (key : κ) : Option (Nat × Bool) :=
  let h := tr.hash key
  writingLoop t.table key (stride h) t.tableSizeMask t.tableSize (h &&& t.tableSizeMask) none

/-- The loop of `addUniqueForInitialization`: the first empty bucket. -/
def uniqueLoop (table : List (Bucket κ ν)) (k sizeMask : BitVec 32) :
    Nat → BitVec 32 → Option Nat
  | 0, _ => none
  | fuel + 1, i =>
    match table[i.toNat]? with
    | none => none
    | some .empty => some i.toNat
    | some _ => uniqueLoop table k sizeMask fuel ((i + k) &&& sizeMask)

def uniquePosition (t : HashTable κ ν) (key : κ) : Option Nat :=
  let h := tr.hash key
  uniqueLoop t.table (stride h) t.tableSizeMask t.tableSize (h &&& t.tableSizeMask)

def addUniqueForInitialization (t : HashTable κ ν) (key : κ) (value : ν) :
    Option (HashTable κ ν) := do
  let entry ← t.uniquePosition tr key
  some { t with table := t.table.set entry (.live key value) }

/-! ## Queries -/

def find (t : HashTable κ ν) (key : κ) : Option (Option Nat) :=
  if t.table = [] then some none else t.lookup tr key

def contains (t : HashTable κ ν) (key : κ) : Option Bool :=
  if t.table = [] then some false else (t.lookup tr key).map (·.isSome)

/-- What an iterator at position `p` points to. -/
def valueAt (p : Nat) : Option ν :=
  match t.table[p]? with
  | some (.live _ v) => some v
  | _ => none

/-! ## Rehashing -/

def reinsert (t : HashTable κ ν) (key : κ) (value : ν) :
    Option (HashTable κ ν × Nat) := do
  let (newEntry, _) ← t.lookupForWriting tr key
  some ({ t with table := t.table.set newEntry (.live key value) }, newEntry)

/-- The loop of `rehash` over the old table from position `i`. -/
def reinsertAll (tr : KeyTraits κ) (entry : Option Nat) :
    List (Bucket κ ν) → Nat → HashTable κ ν → Option Nat → Option (HashTable κ ν × Option Nat)
  | [], _, t, newEntry => some (t, newEntry)
  | .live key value :: rest, i, t, newEntry => do
    let (t, reinsertedEntry) ← t.reinsert tr key value
    reinsertAll tr entry rest (i + 1) t
      (if entry = some i then some reinsertedEntry else newEntry)
  | _ :: rest, i, t, newEntry => reinsertAll tr entry rest (i + 1) t newEntry

def rehash (t : HashTable κ ν) (newTableSize : Nat) (entry : Option Nat) :
    Option (HashTable κ ν × Option Nat) := do
  let (t, newEntry) ← reinsertAll tr entry t.table 0
    { t with table := List.replicate newTableSize .empty } none
  some ({ t with deletedCount := 0 }, newEntry)

def expand (t : HashTable κ ν) (entry : Option Nat) :
    Option (HashTable κ ν × Option Nat) :=
  let newSize :=
    if t.tableSize = 0 then tr.minimumTableSize
    else if t.mustRehashInPlace then t.tableSize
    else unsigned (t.tableSize * 2)
  t.rehash tr newSize entry

def shrink (t : HashTable κ ν) : Option (HashTable κ ν) :=
  (t.rehash tr (t.tableSize / 2) none).map (·.1)

/-! ## Operations -/

/-- Write a new entry, over a deleted bucket or an empty one. -/
def writeEntry (entry : Nat) (key : κ) (value : ν) : HashTable κ ν where
  table := t.table.set entry (.live key value)
  keyCount := t.keyCount + 1
  deletedCount :=
    match t.table[entry]? with
    | some .deleted => t.deletedCount - 1
    | _ => t.deletedCount

/-- `add`: the position of the entry, and whether it is new. -/
def add (t : HashTable κ ν) (key : κ) (value : ν) :
    Option (HashTable κ ν × Option Nat × Bool) := do
  let t ← if t.table = [] then (t.expand tr none).map (·.1) else some t
  let (entry, found) ← t.lookupForWriting tr key
  if found then some (t, some entry, false)
  else
    let t := t.writeEntry entry key value
    if t.shouldExpand then
      let (t, entry) ← t.expand tr (some entry)
      some (t, entry, true)
    else some (t, some entry, true)

/-- `remove(ValueType*)`. -/
def removeEntry (t : HashTable κ ν) (pos : Nat) : Option (HashTable κ ν) :=
  let t : HashTable κ ν := ⟨t.table.set pos .deleted, t.keyCount - 1, t.deletedCount + 1⟩
  if t.shouldShrink tr then t.shrink tr else some t

/-- `remove(const KeyType&)`. -/
def remove (t : HashTable κ ν) (key : κ) : Option (HashTable κ ν) := do
  match ← t.find tr key with
  | none => some t
  | some pos => t.removeEntry tr pos

/-- The loop of `removeIf`, which runs from the last bucket to the first. -/
def removeIfLoop (functor : κ → ν → Bool) :
    List (Bucket κ ν) → Nat × Nat → List (Bucket κ ν) × Nat × Nat
  | [], counts => ([], counts)
  | b :: rest, counts =>
    let (rest, keyCount, deletedCount) := removeIfLoop functor rest counts
    match b with
    | .live key value =>
      if functor key value then (.deleted :: rest, keyCount - 1, deletedCount + 1)
      else (b :: rest, keyCount, deletedCount)
    | _ => (b :: rest, keyCount, deletedCount)

def removeIf (t : HashTable κ ν) (functor : κ → ν → Bool) :
    Option (HashTable κ ν) :=
  let (table, keyCount, deletedCount) :=
    removeIfLoop functor t.table (t.keyCount, t.deletedCount)
  let t : HashTable κ ν := ⟨table, keyCount, deletedCount⟩
  if t.shouldShrink tr then t.shrink tr else some t

def clear (_ : HashTable κ ν) : HashTable κ ν := {}

/-- The table size that the copy constructor computes for `otherKeyCount` keys. -/
def copyTableSize (otherKeyCount : Nat) : Nat :=
  let bestTableSize :=
    unsigned ((roundUpToPowerOfTwo (BitVec.ofNat 32 otherKeyCount)).toNat * 2)
  let aboveThreeQuarterLoad := unsigned (otherKeyCount * 12) ≥ unsigned (bestTableSize * 5)
  let bestTableSize := if aboveThreeQuarterLoad then unsigned (bestTableSize * 2) else bestTableSize
  max bestTableSize tr.minimumTableSize

/-- The loop of the copy constructor over the entries of the other table. -/
def copyAll (tr : KeyTraits κ) : List (Bucket κ ν) → HashTable κ ν → Option (HashTable κ ν)
  | [], t => some t
  | .live key value :: rest, t => do
    let t ← t.addUniqueForInitialization tr key value
    copyAll tr rest t
  | _ :: rest, t => copyAll tr rest t

/-- `HashTable(const HashTable&)`. -/
def copy (other : HashTable κ ν) : Option (HashTable κ ν) :=
  if other.size = 0 then some {}
  else
    copyAll tr other.table
      ⟨List.replicate (copyTableSize tr other.size) .empty, other.size, 0⟩

end HashTable

end WebKit.Wtf
