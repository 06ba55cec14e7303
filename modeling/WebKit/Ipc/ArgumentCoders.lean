import WebKit.Wtf.HashTableAnyKey
import WebKit.Ipc.ArgumentBuffers

/-!
# Argument coders

The types that `ArgumentCoders.h` and `ArgumentCoders.cpp` can code, their values, and `encode` and
`decode` of each. A type is a tree; the coders recurse over it.

Keys of hash tables are integers, durations, strings and pairs of keys. A decoded table keeps, as
history, the entries in the order in which they were added.

Allocations do not fail, and the vectors that `decode` fills element by element do not reach the
greatest capacity. The limits of strings and arithmetic vectors are in the model.
-/

namespace WebKit.Ipc

open Parsing OpenAddressing Wtf

/-! ## Types and values -/

inductive IntSize where
  | one
  | two
  | four
  | eight
  deriving DecidableEq

def IntSize.bytes : IntSize → Nat
  | .one => 1
  | .two => 2
  | .four => 4
  | .eight => 8

theorem IntSize.isAlignment (s : IntSize) : IsAlignment s.bytes := by
  cases s with
  | one => exact ⟨0, by decide, rfl⟩
  | two => exact ⟨1, by decide, rfl⟩
  | four => exact ⟨2, by decide, rfl⟩
  | eight => exact ⟨3, by decide, rfl⟩

inductive Arith where
  | bool
  | integer (size : IntSize)
  deriving DecidableEq

inductive KeyTy where
  | arith (a : Arith)
  | duration (rep : IntSize)
  | string
  | cstring
  | pair (first second : KeyTy)
  deriving DecidableEq

/-- The types that are coded. `vector` has elements that are not arithmetic. -/
inductive Ty where
  | key (k : KeyTy)
  | byteArray
  | optional (t : Ty)
  | pair (first second : Ty)
  | arithmeticVector (a : Arith)
  | vector (t : Ty)
  | hashMap (key : KeyTy) (mapped : Ty)
  | hashSet (key : KeyTy)
  deriving DecidableEq

inductive WTFString where
  | null
  | latin1 (characters : List (BitVec 8))
  | utf16 (characters : List (BitVec 16))
  deriving DecidableEq

/-- A table, and the entries that were added to it. -/
structure Table (κ ε : Type) where
  table : HashTable κ ε := {}
  added : List ε := []

def Arith.size : Arith → Nat
  | .bool => 1
  | .integer s => s.bytes

def Arith.Val : Arith → Type
  | .bool => Bool
  | .integer s => BitVec (8 * s.bytes)

def KeyTy.Val : KeyTy → Type
  | .arith a => a.Val
  | .duration rep => BitVec (8 * rep.bytes)
  | .string => WTFString
  | .cstring => Option (List Byte)
  | .pair k k' => k.Val × k'.Val

/-- What is compared of a key. -/
def KeyTy.Content : KeyTy → Type
  | .arith a => a.Val
  | .duration rep => BitVec (8 * rep.bytes)
  | .string => Option (List (BitVec 16))
  | .cstring => Option (List Byte)
  | .pair k k' => k.Content × k'.Content

def Ty.Val : Ty → Type
  | .key k => k.Val
  | .byteArray => List Byte
  | .optional t => Option t.Val
  | .pair t u => t.Val × u.Val
  | .arithmeticVector a => List a.Val
  | .vector t => List t.Val
  | .hashMap k t => Table k.Content (k.Val × t.Val)
  | .hashSet k => Table k.Content k.Val

instance Arith.decidableEqVal : (a : Arith) → DecidableEq a.Val
  | .bool => inferInstanceAs (DecidableEq Bool)
  | .integer s => inferInstanceAs (DecidableEq (BitVec (8 * s.bytes)))

instance KeyTy.decidableEqContent : (k : KeyTy) → DecidableEq k.Content
  | .arith a => a.decidableEqVal
  | .duration rep => inferInstanceAs (DecidableEq (BitVec (8 * rep.bytes)))
  | .string => inferInstanceAs (DecidableEq (Option (List (BitVec 16))))
  | .cstring => inferInstanceAs (DecidableEq (Option (List Byte)))
  | .pair k k' =>
    have := k.decidableEqContent
    have := k'.decidableEqContent
    inferInstanceAs (DecidableEq (k.Content × k'.Content))

def WTFString.characters : WTFString → Option (List (BitVec 16))
  | .null => none
  | .latin1 cs => some (cs.map (·.setWidth 16))
  | .utf16 cs => some cs

def KeyTy.content : (k : KeyTy) → k.Val → k.Content
  | .arith _, v => v
  | .duration _, v => v
  | .string, v => WTFString.characters v
  | .cstring, v => v
  | .pair k k', v => (k.content v.1, k'.content v.2)

/-- The entries of a table in the order of its buckets, in which an iterator meets them. -/
def entries {κ ε : Type} (t : HashTable κ ε) : List ε :=
  t.table.filterMap fun
    | .live _ e => some e
    | _ => none

/-! ## Encoding -/

def Arith.toBytes : (a : Arith) → a.Val → List Byte
  | .bool, v => [bif v then 1 else 0]
  | .integer s, v => Ipc.toBytes s.bytes (BitVec.toNat v)

/-- A `bool` is true if its byte is not zero. -/
def Arith.ofBytes : (a : Arith) → List Byte → a.Val
  | .bool, bytes => decide (Ipc.ofBytes bytes ≠ 0)
  | .integer s, bytes => BitVec.ofNat (8 * s.bytes) (Ipc.ofBytes bytes)

/-- The length that stands for the null string. -/
def nullLength : Nat := 2 ^ 32 - 1

section Encode

variable (junk : Nat → Nat → Byte)

namespace ArgumentEncoder

variable (e : ArgumentEncoder)

def encodeArith (a : Arith) (v : a.Val) : ArgumentEncoder :=
  e.encodeFixedLengthData junk (a.toBytes v) a.size

def encodeBool (v : Bool) : ArgumentEncoder := e.encodeArith junk .bool v

/-- `encode` of a number, as an unsigned integer of this size. -/
def encodeUnsigned (s : IntSize) (n : Nat) : ArgumentEncoder :=
  e.encodeArith junk (.integer s) (BitVec.ofNat (8 * s.bytes) n)

def encodeVariableLengthByteArray (data : List Byte) : ArgumentEncoder :=
  (e.encodeUnsigned junk .eight data.length).encodeFixedLengthData junk data 1

def encodeCString : Option (List Byte) → ArgumentEncoder
  | none => e.encodeUnsigned junk .four nullLength
  | some data => (e.encodeUnsigned junk .four data.length).encodeFixedLengthData junk data 1

def encodeString : WTFString → ArgumentEncoder
  | .null => e.encodeUnsigned junk .four nullLength
  | .latin1 cs =>
    ((e.encodeUnsigned junk .four cs.length).encodeBool junk true).encodeFixedLengthData
      junk cs 1
  | .utf16 cs =>
    ((e.encodeUnsigned junk .four cs.length).encodeBool junk false).encodeFixedLengthData
      junk (cs.flatMap fun c => toBytes 2 c.toNat) 2

end ArgumentEncoder

def KeyTy.encode : (k : KeyTy) → k.Val → ArgumentEncoder → ArgumentEncoder
  | .arith a, v, e => e.encodeArith junk a v
  | .duration rep, v, e =>
    e.encodeArith junk (.integer .eight) (BitVec.signExtend 64 (v : BitVec (8 * rep.bytes)))
  | .string, v, e => e.encodeString junk v
  | .cstring, v, e => e.encodeCString junk v
  | .pair k k', v, e => k'.encode v.2 (k.encode v.1 e)

def Ty.encode : (t : Ty) → t.Val → ArgumentEncoder → ArgumentEncoder
  | .key k, v, e => k.encode junk v e
  | .byteArray, v, e => e.encodeVariableLengthByteArray junk v
  | .optional t, v, e =>
    match (v : Option t.Val) with
    | none => e.encodeBool junk false
    | some v => t.encode v (e.encodeBool junk true)
  | .pair t u, v, e => u.encode v.2 (t.encode v.1 e)
  | .arithmeticVector a, v, e =>
    (e.encodeUnsigned junk .eight (List.length v)).encodeFixedLengthData junk
      (List.flatMap a.toBytes v) a.size
  | .vector t, v, e =>
    List.foldl (fun e x => t.encode x e) (e.encodeUnsigned junk .eight (List.length v)) v
  | .hashMap k t, v, e =>
    List.foldl (fun e x => t.encode x.2 (k.encode junk x.1 e))
      (e.encodeUnsigned junk .eight v.table.size) (entries v.table)
  | .hashSet k, v, e =>
    List.foldl (fun e x => k.encode junk x e)
      (e.encodeUnsigned junk .eight v.table.size) (entries v.table)

end Encode

/-! ## Decoding -/

def decodeArith (a : Arith) : Decode a.Val := do
  let bytes ← decodeFixedLengthData a.size a.size
  pure (a.ofBytes bytes)

def decodeBool : Decode Bool := decodeArith .bool

def decodeUnsigned (s : IntSize) : Decode Nat := do
  let bytes ← decodeFixedLengthData s.bytes s.bytes
  pure (ofBytes bytes)

def decodeVariableLengthByteArray : Decode (List Byte) := do
  let size ← decodeUnsigned .eight
  decodeFixedLengthData size 1

/-- The greatest length that `createUninitialized` of a string accepts. -/
def maxStringLength (characterSize : Nat) : Nat := (2 ^ 32 - 1 - 24) / characterSize

/-- `decodeStringText`: the bytes of the characters. -/
def decodeStringText (characterSize length : Nat) : Decode (List Byte) := do
  if ← bufferIsLargeEnoughToContain characterSize length then
    if length ≤ maxStringLength characterSize then
      decodeFixedLengthData (length * characterSize) characterSize
    else Parser.fault .crash
  else failToDecode

/-- `ArgumentCoder<String>::decode`. The empty string is one object, of 8-bit characters. -/
def decodeString : Decode WTFString := do
  let length ← decodeUnsigned .four
  if length = nullLength then pure .null
  else
    let is8Bit ← decodeBool
    if is8Bit then
      let data ← decodeStringText 1 length
      pure (.latin1 data)
    else
      let data ← decodeStringText 2 length
      if length = 0 then pure (.latin1 [])
      else pure (.utf16 ((chunks 2 length data).map fun c => BitVec.ofNat 16 (ofBytes c)))

/-- The lengths that `CStringBuffer::createUninitialized` accepts are below this. -/
def maxCStringLength : Nat := 2 ^ 32 - 1 - 16

def decodeCString : Decode (Option (List Byte)) := do
  let length ← decodeUnsigned .four
  if length = nullLength then pure none
  else if ← bufferIsLargeEnoughToContain 1 length then
    if length < maxCStringLength then
      let data ← decodeFixedLengthData length 1
      pure (some data)
    else Parser.fault .crash
  else failToDecode

/-- `VectorArgumentCoder<true, ...>::decode`. The result of `decodeFixedLengthData` is not
looked at. -/
def decodeArithmeticVector (a : Arith) : Decode (List a.Val) := do
  let size ← decodeUnsigned .eight
  if ← bufferIsLargeEnoughToContain a.size size then
    if size ≤ (2 ^ 32 - 1) / a.size then
      let data ← Parser.attempt (decodeFixedLengthData (size * a.size) a.size)
      let data := data.getD (List.replicate (size * a.size) 0)
      pure ((chunks a.size size data).map a.ofBytes)
    else Parser.fault .crash
  else failToDecode

/-- The loop of `VectorArgumentCoder<false, ...>::decode`. -/
def decodeElements {α : Type} (decodeElement : Decode α) : Nat → Decode (List α)
  | 0 => pure []
  | n + 1 => do
    let element ← decodeElement
    let rest ← decodeElements decodeElement n
    pure (element :: rest)

/-- The loop of `decode` for a hash table. -/
def decodeEntries {κ ε : Type} [DecidableEq κ] (tr : HashTraits κ) (extract : ε → κ)
    (decodeEntry : Decode ε) : Nat → Table κ ε → Decode (Table κ ε)
  | 0, T => pure T
  | n + 1, T => do
    let entry ← decodeEntry
    match T.table.addAnyKey tr (extract entry) entry with
    | none => Parser.fault .crash
    | some (table, true) =>
      decodeEntries tr extract decodeEntry n ⟨table, T.added ++ [entry]⟩
    | some (_, false) => failToDecode

def decodePair {α β : Type} (decodeFirst : Decode α) (decodeSecond : Decode β) :
    Decode (α × β) := do
  let first ← decodeFirst
  let second ← decodeSecond
  pure (first, second)

def KeyTy.decode : (k : KeyTy) → Decode k.Val
  | .arith a => decodeArith a
  | .duration rep => do
    let count ← decodeArith (.integer .eight)
    pure (BitVec.setWidth (8 * rep.bytes) (count : BitVec 64))
  | .string => decodeString
  | .cstring => decodeCString
  | .pair k k' => decodePair k.decode k'.decode

section Decode

variable (traits : (k : KeyTy) → HashTraits k.Content)

def Ty.decode : (t : Ty) → Decode t.Val
  | .key k => k.decode
  | .byteArray => decodeVariableLengthByteArray
  | .optional t => do
    let isEngaged ← decodeBool
    if isEngaged then
      let value ← t.decode
      pure (some value)
    else pure none
  | .pair t u => decodePair t.decode u.decode
  | .arithmeticVector a => decodeArithmeticVector a
  | .vector t => do
    let size ← decodeUnsigned .eight
    decodeElements t.decode size
  | .hashMap k t => do
    let size ← decodeUnsigned .eight
    decodeEntries (traits k) (fun entry => k.content entry.1) (decodePair k.decode t.decode)
      size {}
  | .hashSet k => do
    let size ← decodeUnsigned .eight
    decodeEntries (traits k) k.content k.decode size {}

end Decode

end WebKit.Ipc
