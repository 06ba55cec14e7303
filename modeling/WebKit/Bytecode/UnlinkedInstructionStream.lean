import Mathlib.Data.Option.Basic
import Mathlib.Tactic.IntervalCases

/-!
# Packed unlinked instructions

`UnlinkedInstructionStream` packs instruction words into bytes: an opcode takes one, an operand
one, two or five, with its format in the top three bits. `Reader` unpacks them.

The size of the buffer is the 32-bit product of the word count and five; packing has no result
(`none`) when it writes past its end, nor has reading past the end. A reader is the bytes that it
has not read yet.
-/

namespace WebKit.Bytecode

abbrev Byte := BitVec 8

/-- An instruction word, or an operand. -/
abbrev Word := BitVec 32

inductive PackedValueType where
  | positive5Bit | negative5Bit | positive13Bit | negative13Bit
  | constantRegister5Bit | constantRegister13Bit | full32Bit
deriving DecidableEq

open PackedValueType

/-- The first byte of an operand: its format above five bits of the value. -/
def firstByte (type : PackedValueType) (bits : Word) : Byte :=
  BitVec.ofNat 8 type.ctorIdx <<< 5 ||| bits.setWidth 8

/-- `append32`: the bytes it writes. -/
def append32 (value : Word) : List Byte :=
  if value &&& 0xffffffe0 = 0 then [value.setWidth 8]
  else if value &&& 0xffffffe0 = 0xffffffe0 then [firstByte negative5Bit (value &&& 0x1f)]
  else if value &&& 0xffffffe0 = 0x40000000 then [firstByte constantRegister5Bit (value &&& 0x1f)]
  else if value &&& 0xffffe000 = 0 then
    [firstByte positive13Bit (value >>> 8 &&& 0x1f), (value &&& 0xff).setWidth 8]
  else if value &&& 0xffffe000 = 0xffffe000 then
    [firstByte negative13Bit (value >>> 8 &&& 0x1f), (value &&& 0xff).setWidth 8]
  else if value &&& 0xffffe000 = 0x40000000 then
    [firstByte constantRegister13Bit (value >>> 8 &&& 0x1f), (value &&& 0xff).setWidth 8]
  else
    [firstByte full32Bit 0, (value &&& 0xff).setWidth 8, (value >>> 8 &&& 0xff).setWidth 8,
      (value >>> 16 &&& 0xff).setWidth 8, (value >>> 24 &&& 0xff).setWidth 8]

/-- `Reader::read32`: the operand and the bytes after it. -/
def read32 : List Byte → Option (Word × List Byte)
  | [] => none
  | first :: data =>
    let low := first.setWidth 32 &&& 0x1f
    match (first >>> 5).toNat, data with
    | 0, _ => some (first.setWidth 32, data)
    | 1, _ => some (0xffffffe0 ||| first.setWidth 32, data)
    | 2, b :: data => some (low <<< 8 ||| b.setWidth 32, data)
    | 3, b :: data => some (0xffffe000 ||| low <<< 8 ||| b.setWidth 32, data)
    | 4, _ => some (0x40000000 ||| low, data)
    | 5, b :: data => some (0x40000000 ||| low <<< 8 ||| b.setWidth 32, data)
    | _, b :: c :: d :: e :: data => some (b.setWidth 32 ||| c.setWidth 32 <<< 8 |||
        d.setWidth 32 <<< 16 ||| e.setWidth 32 <<< 24, data)
    | _, _ => none

/-! ## One operand -/

theorem firstByte_spec (type : PackedValueType) : ∀ w : BitVec 5,
    (firstByte type (w.setWidth 32) >>> 5).toNat = type.ctorIdx ∧
      (firstByte type (w.setWidth 32)).setWidth 32 &&& 0x1f = w.setWidth 32 := by
  cases type <;> decide

theorem firstByte_fiveBits : ∀ w : BitVec 5,
    (w.setWidth 32).setWidth 8 = firstByte positive5Bit (w.setWidth 32) ∧
      (firstByte positive5Bit (w.setWidth 32)).setWidth 32 = w.setWidth 32 ∧
        0xffffffe0 ||| (firstByte negative5Bit (w.setWidth 32)).setWidth 32 =
          0xffffffe0 ||| w.setWidth 32 := by
  decide

section bits

variable (value : Word)

theorem exists_fiveBits : ∃ w : BitVec 5, value &&& 0x1f = w.setWidth 32 := by
  refine ⟨value.setWidth 5, BitVec.eq_of_getLsbD_eq fun i hi => ?_⟩
  interval_cases i <;> simp

theorem thirteenBits : (value >>> 8 &&& 0x1f) <<< 8 ||| ((value &&& 0xff).setWidth 8).setWidth 32 =
    value &&& 0x1fff := by
  refine BitVec.eq_of_getLsbD_eq fun i hi => ?_
  interval_cases i <;> simp

theorem fourBytes : ((value &&& 0xff).setWidth 8).setWidth 32 |||
    ((value >>> 8 &&& 0xff).setWidth 8).setWidth 32 <<< 8 |||
      ((value >>> 16 &&& 0xff).setWidth 8).setWidth 32 <<< 16 |||
        ((value >>> 24 &&& 0xff).setWidth 8).setWidth 32 <<< 24 = value := by
  refine BitVec.eq_of_getLsbD_eq fun i hi => ?_
  interval_cases i <;> simp

variable {value}

theorem eq_or_of_and {mask bits : Word} (h : value &&& mask = bits) :
    bits ||| value &&& ~~~mask = value := by
  rw [← h]
  ext i
  simp only [BitVec.getElem_or, BitVec.getElem_and, BitVec.getElem_not]
  cases value[i] <;> cases mask[i] <;> rfl

end bits

theorem read32_append32 (value : Word) (rest : List Byte) :
    read32 (append32 value ++ rest) = some (value, rest) := by
  obtain ⟨w, hw⟩ := exists_fiveBits value
  obtain ⟨w', hw'⟩ := exists_fiveBits (value >>> 8)
  have h13 := thirteenBits value
  unfold append32
  rw [hw'] at h13 ⊢
  rw [hw]
  -- the case numbers are those of the formats
  split_ifs with h0 h1 h4 h2 h3 h5
  case neg => exact congrArg (fun v => some (v, rest)) (fourBytes value)
  case pos =>
    have hv : w.setWidth 32 = value := hw ▸ BitVec.zero_or.symm.trans (eq_or_of_and h0)
    rw [← hv, (firstByte_fiveBits w).1]
    simp only [List.singleton_append, read32, firstByte_spec _ _, PackedValueType.ctorIdx,
      firstByte_fiveBits]
  all_goals simp only [List.cons_append, List.nil_append, read32, firstByte_spec _ _,
    PackedValueType.ctorIdx, BitVec.or_assoc, h13, firstByte_fiveBits, Option.some.injEq,
    Prod.mk.injEq, and_true]
  · exact hw ▸ eq_or_of_and h1
  · exact hw ▸ eq_or_of_and h4
  · exact BitVec.zero_or.symm.trans (eq_or_of_and h2)
  · exact eq_or_of_and h3
  · exact eq_or_of_and h5

theorem length_flatMap_append32 (values : List Word) :
    values.length ≤ (values.flatMap append32).length ∧
      (values.flatMap append32).length ≤ values.length * 5 := by
  induction values with
  | nil => simp
  | cons value values ih =>
    have hvalue : 1 ≤ (append32 value).length ∧ (append32 value).length ≤ 5 := by
      unfold append32
      split_ifs <;> simp
    rw [List.flatMap_cons, List.length_append, List.length_cons]
    omega

/-! ## The stream and its reader -/

section stream

variable (opcodeLength : Word → Nat)

/-- An instruction with the operands its opcode declares, in a vector of instruction words. -/
structure Instruction where
  opcode : Byte
  operands : List Word
  length_eq : operands.length + 1 = opcodeLength (opcode.setWidth 32)
  length_le : operands.length ≤ 15

def Instruction.words {opcodeLength} (i : Instruction opcodeLength) : List Word :=
  i.opcode.setWidth 32 :: i.operands

/-- The bytes that the loop of the constructor writes. -/
def packed : List Word → List Byte
  | [] => []
  | opcode :: rest =>
    let opLength := opcodeLength opcode
    opcode.setWidth 8 :: (rest.take (opLength - 1)).flatMap append32 ++
      packed (rest.drop (opLength - 1))
termination_by words => words.length
decreasing_by simp only [List.length_drop, List.length_cons]; omega

def unlinkedInstructionStream (words : List Word) : Option (List Byte) :=
  let bytes := packed opcodeLength words
  if bytes.length ≤ words.length * 5 % 2 ^ 32 then some bytes else none

/-- The loop of `Reader::next`. -/
def readOperands : Nat → List Byte → Option (List Word × List Byte)
  | 0, data => some ([], data)
  | n + 1, data => do
    let (value, data) ← read32 data
    let (values, data) ← readOperands n data
    return (value :: values, data)

/-- `Reader::next`: the unpacked words, which have to fit into `m_unpackedBuffer`. -/
def next : List Byte → Option (List Word × List Byte)
  | [] => none
  | opcode :: data => do
    let opLength := opcodeLength (opcode.setWidth 32)
    guard (opLength ≤ 16)
    let (operands, data) ← readOperands (opLength - 1) data
    return (opcode.setWidth 32 :: operands, data)

def atEnd (data : List Byte) : Bool := data.isEmpty

/-- What the first `n` calls of `Reader::next` return, and the reader after them. -/
def nexts : Nat → List Byte → Option (List (List Word) × List Byte)
  | 0, data => some ([], data)
  | n + 1, data => do
    let (words, data) ← next opcodeLength data
    let (rest, data) ← nexts n data
    return (words :: rest, data)

theorem readOperands_flatMap (operands : List Word) (rest : List Byte) :
    readOperands operands.length (operands.flatMap append32 ++ rest) = some (operands, rest) := by
  induction operands with
  | nil => rfl
  | cons value operands ih =>
    simp [readOperands, List.append_assoc, read32_append32, ih]

variable {opcodeLength}

theorem packed_words_append (i : Instruction opcodeLength) (words : List Word) :
    packed opcodeLength (i.words ++ words) =
      i.opcode :: (i.operands.flatMap append32 ++ packed opcodeLength words) := by
  have hlength : opcodeLength (i.opcode.setWidth 32) - 1 = i.operands.length := by
    rw [← i.length_eq, Nat.add_sub_cancel]
  rw [Instruction.words, List.cons_append, packed, hlength, List.take_left', List.drop_left']
  · simp
  · rfl
  · rfl

theorem next_words (i : Instruction opcodeLength) (rest : List Byte) :
    next opcodeLength (i.opcode :: (i.operands.flatMap append32 ++ rest)) = some (i.words, rest) := by
  rw [next, ← i.length_eq, guard, if_pos (Nat.succ_le_succ i.length_le)]
  simp [readOperands_flatMap, Instruction.words]

theorem nexts_packed (instructions : List (Instruction opcodeLength)) (n : Nat)
    (hn : n ≤ instructions.length) :
    nexts opcodeLength n (packed opcodeLength (instructions.flatMap (·.words))) =
      some ((instructions.take n).map (·.words),
        packed opcodeLength ((instructions.drop n).flatMap (·.words))) := by
  induction n generalizing instructions with
  | zero => rfl
  | succ n ih =>
    cases instructions with
    | nil => cases hn
    | cons i instructions =>
      have := ih instructions (Nat.le_of_succ_le_succ hn)
      simp [nexts, packed_words_append, next_words, this]

theorem length_packed (words : List Word) :
    words.length ≤ (packed opcodeLength words).length ∧
      (packed opcodeLength words).length ≤ words.length * 5 := by
  fun_induction packed with
  | case1 => simp
  | case2 opcode rest opLength ih =>
    have := length_flatMap_append32 (rest.take (opLength - 1))
    simp only [List.length_take, List.length_drop, List.length_cons, List.length_append] at *
    omega

/-- Where the size of the buffer wraps around, packing writes past its end. -/
theorem stream_eq_none (words : List Word) (hcount : 2 ^ 32 ≤ words.length * 5)
    (hfits : words.length < 2 ^ 30) : unlinkedInstructionStream opcodeLength words = none := by
  have hmod : words.length * 5 % 2 ^ 32 = words.length * 5 - 2 ^ 32 := by omega
  have : words.length ≤ (packed opcodeLength words).length := (length_packed words).1
  exact if_neg (by omega)

/-- Packing is lossless exactly if the size of the buffer does not wrap around: a reader returns the
instructions one after the other, and is at the end exactly after the last. -/
theorem stream_lossless (instructions : List (Instruction opcodeLength))
    (hfits : (instructions.flatMap (·.words)).length < 2 ^ 30) :
    (instructions.flatMap (·.words)).length * 5 < 2 ^ 32 ↔
    ∃ data, unlinkedInstructionStream opcodeLength (instructions.flatMap (·.words)) = some data ∧
      ∀ n ≤ instructions.length, ∃ rest,
        nexts opcodeLength n data = some ((instructions.take n).map (·.words), rest) ∧
          (atEnd rest ↔ n = instructions.length) := by
  constructor
  · intro hcount
    refine ⟨_, if_pos ?_, fun n hn => ⟨_, nexts_packed instructions n hn, ?_⟩⟩
    · rw [Nat.mod_eq_of_lt hcount]
      exact (length_packed _).2
    · rw [show n = instructions.length ↔ instructions.drop n = [] by
        rw [List.drop_eq_nil_iff]; omega]
      cases instructions.drop n <;> simp [atEnd, packed_words_append, packed]
  · rintro ⟨data, hdata, -⟩
    by_contra hcount
    rw [stream_eq_none _ (not_lt.mp hcount) hfits] at hdata
    cases hdata

end stream

/-- The lengths of `op_enter`, which has no operands, and of an opcode with seven. -/
def lengths (opcode : Word) : Nat := if opcode = 0 then 1 else 8

def enter : Instruction lengths := ⟨0, [], rfl, by decide⟩

/-- An operand in each format. -/
def operands : List Word := [5, -3, 0x40000003, 300, -300, 0x40000100, 0x12345678]

theorem stream_lossless_operands : ∃ data,
    unlinkedInstructionStream lengths (0 :: 9 :: operands ++ [0]) = some data ∧
      ∀ n ≤ 3, ∃ rest, nexts lengths n data = some ([[0], 9 :: operands, [0]].take n, rest) ∧
        (atEnd rest ↔ n = 3) := by
  have hlossless := (stream_lossless [enter, ⟨9, operands, rfl, by decide⟩, enter] (by decide)).mp
    (by decide)
  simpa [enter, Instruction.words] using hlossless

theorem stream_overruns : unlinkedInstructionStream lengths
    ((List.replicate 858993460 enter).flatMap (·.words)) = none := by
  have hlength : ((List.replicate 858993460 enter).flatMap (·.words)).length = 858993460 * 1 := by
    rw [List.length_flatMap, List.map_replicate, List.sum_replicate_nat]
    rfl
  exact stream_eq_none _ (by rw [hlength]; decide) (by rw [hlength]; decide)

end WebKit.Bytecode
