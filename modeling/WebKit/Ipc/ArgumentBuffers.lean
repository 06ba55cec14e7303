import WebKit.Lib.Parser
import Mathlib.Algebra.Group.Nat.Defs

/-!
# `ArgumentEncoder` and `ArgumentDecoder`

The encoder pads by offsets in its buffer, which it reallocates while it grows; the decoder aligns
pointers. A decoder that has failed points past the end of its buffer.

Memory that was not written holds anything (`junk`). Addresses do not wrap.
-/

namespace WebKit.Ipc

open Parsing List

abbrev Byte : Type := BitVec 8

/-! ## Numbers as bytes -/

/-- The `n` bytes of a number, the least significant first. -/
def toBytes : Nat → Nat → List Byte
  | 0, _ => []
  | n + 1, v => BitVec.ofNat 8 v :: toBytes n (v / 256)

def ofBytes : List Byte → Nat
  | [] => 0
  | b :: rest => b.toNat + 256 * ofBytes rest

theorem length_toBytes (n v : Nat) : (toBytes n v).length = n := by
  induction n generalizing v with
  | zero => rfl
  | succ n ih => simp [toBytes, ih]

theorem ofBytes_toBytes (n v : Nat) : ofBytes (toBytes n v) = v % 256 ^ n := by
  induction n generalizing v with
  | zero => simp [toBytes, ofBytes, Nat.mod_one]
  | succ n ih =>
    rw [toBytes, ofBytes, ih, pow_succ, mul_comm (256 ^ n), Nat.mod_mul]
    simp

/-- The elements of an array, of the same size each. -/
def chunks (size : Nat) : Nat → List Byte → List (List Byte)
  | 0, _ => []
  | n + 1, bytes => bytes.take size :: chunks size n (bytes.drop size)

theorem length_chunks (size n : Nat) (bs : List Byte) : (chunks size n bs).length = n := by
  induction n generalizing bs with
  | zero => rfl
  | succ n ih => simp [chunks, ih]

variable {size : Nat} {α : Type} {f : α → List Byte}

theorem chunks_flatMap_append (hf : ∀ x, (f x).length = size) (l : List α) (more : List Byte) :
    chunks size l.length (l.flatMap f ++ more) = l.map f := by
  induction l with
  | nil => rfl
  | cons x rest ih =>
    rw [length_cons, chunks, flatMap_cons, map_cons, append_assoc,
      take_left' (hf x), drop_left' (hf x), ih]

theorem chunks_flatMap (hf : ∀ x, (f x).length = size) (l : List α) :
    chunks size l.length (l.flatMap f) = l.map f := by
  have h := chunks_flatMap_append hf l []
  rwa [append_nil] at h

theorem length_flatMap_of_size (hf : ∀ x, (f x).length = size) (l : List α) :
    (l.flatMap f).length = l.length * size := by
  induction l with
  | nil => simp
  | cons x rest ih =>
    rw [flatMap_cons, length_append, hf, ih, length_cons, Nat.add_mul, one_mul, add_comm]

/-! ## Alignment -/

/-- `roundUpToAlignment` of the encoder. -/
def roundUpToAlignment (value alignment : Nat) : Nat :=
  (value + alignment - 1) / alignment * alignment

/-- `roundUpToAlignment` of the decoder: `(ptr + mask) & ~mask`. -/
def roundUpPointer (ptr alignment : Nat) : Nat :=
  let alignmentMask := alignment - 1
  (ptr + alignmentMask) - ((ptr + alignmentMask) &&& alignmentMask)

/-- The alignments in use. -/
def IsAlignment (alignment : Nat) : Prop := ∃ k ≤ 3, alignment = 2 ^ k

variable {alignment : Nat}

theorem le_roundUpToAlignment (h : IsAlignment alignment) (val : Nat) :
    val ≤ roundUpToAlignment val alignment := by
  obtain ⟨k, _, rfl⟩ := h
  have hmod := Nat.div_add_mod (val + 2 ^ k - 1) (2 ^ k)
  unfold roundUpToAlignment
  rw [mul_comm]
  omega

theorem le_roundUpPointer (ptr alignment : Nat) : ptr ≤ roundUpPointer ptr alignment := by
  have : (ptr + (alignment - 1)) &&& (alignment - 1) ≤ alignment - 1 := Nat.and_le_right
  unfold roundUpPointer
  dsimp only
  omega

theorem roundUpPointer_eq (h : IsAlignment alignment) {base : Nat} (hb : base % 8 = 0) (off : Nat) :
    roundUpPointer (base + off) alignment = base + roundUpToAlignment off alignment := by
  obtain ⟨k, hk, rfl⟩ := h
  unfold roundUpPointer roundUpToAlignment
  dsimp only
  rw [Nat.and_two_pow_sub_one_eq_mod]
  obtain rfl | rfl | rfl | rfl : k = 0 ∨ k = 1 ∨ k = 2 ∨ k = 3 := by omega
  all_goals omega

/-! ## The encoder -/

/-- The members of the encoder. The buffer is the inline buffer or the last allocation. -/
structure ArgumentEncoder where
  buffer : List Byte
  bufferSize : Nat
  allocations : Nat
  size_le : bufferSize ≤ buffer.length
  capacity_pos : 0 < buffer.length

/-- The loop of `reserve`. -/
def doubleCapacity (size : Nat) : Nat → Nat → Nat
  | 0, newCapacity => newCapacity
  | fuel + 1, newCapacity =>
    if newCapacity < size then doubleCapacity size fuel (newCapacity * 2) else newCapacity

theorem le_doubleCapacity {fuel capacity : Nat} (hp : 0 < capacity) (h : size ≤ capacity + fuel) :
    size ≤ doubleCapacity size fuel capacity := by
  induction fuel generalizing capacity with
  | zero => simpa [doubleCapacity] using h
  | succ fuel ih =>
    rw [doubleCapacity]
    split
    · exact ih (by omega) (by omega)
    · omega

namespace ArgumentEncoder

variable (junk : Nat → Nat → Byte)

def create : ArgumentEncoder where
  buffer := (List.range 512).map (junk 0)
  bufferSize := 0
  allocations := 0
  size_le := Nat.zero_le _
  capacity_pos := by simp

variable (e : ArgumentEncoder)

/-- What has been encoded. -/
def bytes : List Byte := e.buffer.take e.bufferSize

theorem length_bytes : e.bytes.length = e.bufferSize := by
  rw [bytes, length_take, Nat.min_eq_left e.size_le]

/-- The buffer after a reallocation. -/
def moveTo (newCapacity : Nat) : List Byte :=
  e.buffer.take e.bufferSize ++
    (List.range (newCapacity - e.bufferSize)).map fun i =>
      junk (e.allocations + 1) (e.bufferSize + i)

theorem length_moveTo (newCapacity : Nat) :
    (e.moveTo junk newCapacity).length = max e.bufferSize newCapacity := by
  have := e.size_le
  simp [moveTo]
  omega

theorem le_newCapacity (size : Nat) :
    size ≤ doubleCapacity size size (roundUpToAlignment (e.buffer.length * 2) 4096) := by
  refine le_doubleCapacity ?_ (Nat.le_add_left size _)
  have := e.capacity_pos
  unfold roundUpToAlignment
  omega

def reserve (size : Nat) : ArgumentEncoder :=
  if h : size ≤ e.buffer.length then e
  else
    { buffer := e.moveTo junk
        (doubleCapacity size size (roundUpToAlignment (e.buffer.length * 2) 4096))
      bufferSize := e.bufferSize
      allocations := e.allocations + 1
      size_le := by rw [length_moveTo]; exact Nat.le_max_left _ _
      capacity_pos := by
        have := e.le_newCapacity size
        rw [length_moveTo]
        omega }

theorem bufferSize_reserve (size : Nat) : (e.reserve junk size).bufferSize = e.bufferSize := by
  unfold reserve
  split
  · rfl
  · rfl

theorem bytes_reserve (size : Nat) : (e.reserve junk size).bytes = e.bytes := by
  unfold reserve
  split
  · rfl
  · show List.take e.bufferSize (e.bytes ++ _) = e.bytes
    exact take_left' e.length_bytes

theorem le_length_reserve (size : Nat) : size ≤ (e.reserve junk size).buffer.length := by
  unfold reserve
  split
  · assumption
  · have := e.le_newCapacity size
    show size ≤ (e.moveTo junk _).length
    rw [length_moveTo]
    omega

/-- `encodeFixedLengthData`, with `grow`. -/
def encodeFixedLengthData (data : List Byte) (alignment : Nat) :
    ArgumentEncoder :=
  let alignedSize := roundUpToAlignment e.bufferSize alignment
  let grown := e.reserve junk (alignedSize + data.length)
  { buffer := grown.buffer.take alignedSize ++ data ++
      grown.buffer.drop (alignedSize + data.length)
    bufferSize := alignedSize + data.length
    allocations := grown.allocations
    size_le := by
      have : alignedSize + data.length ≤ grown.buffer.length := e.le_length_reserve junk _
      simp
      omega
    capacity_pos := by
      have := grown.capacity_pos
      simp
      omega }

theorem bytes_encodeFixedLengthData (data : List Byte) (h : IsAlignment alignment) :
    ∃ pad, e.bytes.length + pad.length = roundUpToAlignment e.bytes.length alignment ∧
      (e.encodeFixedLengthData junk data alignment).bytes = e.bytes ++ pad ++ data := by
  have hle := le_roundUpToAlignment h e.bufferSize
  let size := roundUpToAlignment e.bufferSize alignment + data.length
  have hcap := e.le_length_reserve junk size
  have hkp := e.bytes_reserve junk size
  have hsz := e.bufferSize_reserve junk size
  generalize hgrw : e.reserve junk size = grown at hcap hkp hsz
  -- the padding is what lies in the buffer between the end and the aligned position
  refine ⟨(grown.buffer.take (roundUpToAlignment e.bufferSize alignment)).drop e.bufferSize, ?_, ?_⟩
  · rw [length_bytes]
    simp
    omega
  · have hbef : e.bytes =
        (grown.buffer.take (roundUpToAlignment e.bufferSize alignment)).take e.bufferSize := by
      rw [take_take, Nat.min_eq_left hle, ← hkp, bytes, hsz]
    rw [hbef, take_append_drop]
    show List.take _ (List.take _ (e.reserve junk _).buffer ++ data ++ _) = _
    rw [hgrw]
    refine take_left' ?_
    show _ = size
    simp
    omega

end ArgumentEncoder

/-! ## The decoder -/

/-- How decoding can stop. -/
inductive Fault where
  /-- `CRASH()`, a failed assertion or a null pointer. -/
  | crash
  /-- A read outside of the buffer. -/
  | outOfBounds
  deriving DecidableEq

/-- The address of the buffer, the bytes there, and the position, at most one past its end. -/
@[ext]
structure ArgumentDecoder where
  buffer : Nat
  bytes : List Byte
  bufferPos : Nat
  aligned : buffer % 8 = 0
  le_pos : buffer ≤ bufferPos
  pos_le : bufferPos ≤ buffer + bytes.length + 1

namespace ArgumentDecoder

/-- A decoder of the bytes, in a buffer at a multiple of eight. -/
def create (bytes : List Byte) (address : Nat) : ArgumentDecoder where
  buffer := 8 * address
  bytes := bytes
  bufferPos := 8 * address
  aligned := by omega
  le_pos := Nat.le_refl _
  pos_le := by omega

variable (d : ArgumentDecoder)

def bufferEnd : Nat := d.buffer + d.bytes.length

def isInvalid : Bool := d.bufferEnd < d.bufferPos

def markInvalid : ArgumentDecoder :=
  { d with
    bufferPos := d.bufferEnd + 1
    le_pos := by unfold bufferEnd; omega
    pos_le := Nat.le_refl _ }

end ArgumentDecoder

abbrev Decode : Type → Type := Parser Fault ArgumentDecoder

/-- Return false from an invalid decoder. -/
def failToDecode {α : Type} : Decode α := Parser.fail ArgumentDecoder.markInvalid

def alignedBufferIsLargeEnoughToContain (alignedPosition bufferEnd size : Nat) : Bool :=
  alignedPosition ≤ bufferEnd && size ≤ bufferEnd - alignedPosition

theorem isLargeEnough_iff {alignedPosition bufferEnd : Nat} :
    alignedBufferIsLargeEnoughToContain alignedPosition bufferEnd size = true ↔
      alignedPosition ≤ bufferEnd ∧ size ≤ bufferEnd - alignedPosition := by
  simp [alignedBufferIsLargeEnoughToContain]

def alignBufferPosition (alignment size : Nat) : Decode Unit := fun d =>
  let alignedPosition := roundUpPointer d.bufferPos alignment
  if h : alignedBufferIsLargeEnoughToContain alignedPosition d.bufferEnd size = true then
    .ok (some (),
      { d with
        bufferPos := alignedPosition
        le_pos := Nat.le_trans d.le_pos (le_roundUpPointer _ _)
        pos_le := Nat.le_succ_of_le (isLargeEnough_iff.mp h).1 })
  else .ok (none, d.markInvalid)

/-- `memcpy` from the position, which moves on. -/
def readBytes (size : Nat) : Decode (List Byte) := fun d =>
  if h : d.bufferPos + size ≤ d.bufferEnd then
    .ok (some ((d.bytes.drop (d.bufferPos - d.buffer)).take size),
      { d with
        bufferPos := d.bufferPos + size
        le_pos := Nat.le_trans d.le_pos (Nat.le_add_right _ _)
        pos_le := by unfold ArgumentDecoder.bufferEnd at h; omega })
  else .error .outOfBounds

def decodeFixedLengthData (size alignment : Nat) : Decode (List Byte) := do
  alignBufferPosition alignment size
  readBytes size

/-- `bufferIsLargeEnoughToContain<T>`, for elements whose size is their alignment. -/
def bufferIsLargeEnoughToContain (elementSize numElements : Nat) : Decode Bool := fun d =>
  if (2 ^ 64 - 1) / elementSize < numElements then .ok (some false, d)
  else
    .ok (some (alignedBufferIsLargeEnoughToContain (roundUpPointer d.bufferPos elementSize)
      d.bufferEnd (numElements * elementSize)), d)

/-! ## Reading what was written -/

/-- The decoders before and after the bytes from the end of `b` to the end of `b'`. -/
structure Between (b b' : List Byte) (d d' : ArgumentDecoder) : Prop where
  written : b' <+: d.bytes
  buffer : d'.buffer = d.buffer
  bytes : d'.bytes = d.bytes
  start : d.bufferPos = d.buffer + b.length
  stop : d'.bufferPos = d.buffer + b'.length

theorem Between.split {b b' b'' : List Byte} {d d' : ArgumentDecoder} (h : Between b b'' d d')
    (h' : b' <+: b'') :
    ∃ d₁, Between b b' d d₁ ∧ Between b' b'' d₁ d' := by
  have hl := (h'.trans h.written).length_le
  refine ⟨{ d with bufferPos := d.buffer + b'.length, le_pos := by omega, pos_le := by omega },
    ⟨h'.trans h.written, rfl, rfl, h.start, rfl⟩, ⟨h.written, h.buffer, h.bytes, rfl, h.stop⟩⟩

theorem Between.create {b bs : List Byte} (h : b <+: bs) (adr : Nat) :
    ∃ d', Between [] b (.create bs adr) d' := by
  have hl := h.length_le
  exact ⟨{ ArgumentDecoder.create bs adr with
      bufferPos := 8 * adr + b.length
      le_pos := Nat.le_add_right _ _
      pos_le := Nat.le_succ_of_le (Nat.add_le_add_left hl _) }, ⟨h, rfl, rfl, rfl, rfl⟩⟩

/-- The data with their padding. -/
structure Padded (alignment : Nat) (data b b' : List Byte) : Prop where
  aligned : IsAlignment alignment
  data : ∃ pad, b.length + pad.length = roundUpToAlignment b.length alignment ∧
    b' = b ++ pad ++ data

theorem ArgumentEncoder.padded (junk : Nat → Nat → Byte) (e : ArgumentEncoder)
    (data : List Byte) (h : IsAlignment alignment) :
    Padded alignment data e.bytes (e.encodeFixedLengthData junk data alignment).bytes :=
  ⟨h, e.bytes_encodeFixedLengthData junk data h⟩

namespace Padded

variable {alignment : Nat} {data b b' : List Byte} {d d' : ArgumentDecoder}

section

variable (h : Padded alignment data b b')

include h

theorem isPrefix : b <+: b' := by
  obtain ⟨pad, _, rfl⟩ := h.data
  exact ⟨pad ++ data, by simp⟩

theorem length : b'.length = roundUpToAlignment b.length alignment + data.length := by
  obtain ⟨pad, hpad, rfl⟩ := h.data
  simp only [length_append]
  omega

theorem roundUpPointer (hd : Between b b' d d') :
    roundUpPointer d.bufferPos alignment + data.length = d.buffer + b'.length := by
  rw [hd.start, roundUpPointer_eq h.aligned d.aligned, h.length, add_assoc]

theorem isLargeEnough (hd : Between b b' d d') :
    alignedBufferIsLargeEnoughToContain (Ipc.roundUpPointer d.bufferPos alignment) d.bufferEnd
      data.length = true := by
  have hp := h.roundUpPointer hd
  have hl := hd.written.length_le
  rw [isLargeEnough_iff]
  unfold ArgumentDecoder.bufferEnd
  omega

theorem bufferIsLargeEnoughToContain {n : Nat} (hsz : data.length = n * alignment)
    (hn : n * alignment < 2 ^ 64) (hd : Between b b' d d') :
    Ipc.bufferIsLargeEnoughToContain alignment n d = .ok (some true, d) := by
  have hp : 0 < alignment := by
    obtain ⟨k, _, rfl⟩ := h.aligned
    exact Nat.two_pow_pos k
  unfold Ipc.bufferIsLargeEnoughToContain
  rw [if_neg, ← hsz, h.isLargeEnough hd]
  rw [Nat.not_lt, Nat.le_div_iff_mul_le hp]
  omega

/-- **Padding.** What the encoder has written with its padding, the decoder reads. -/
theorem reads : Parser.Reads (Between b b') (decodeFixedLengthData data.length alignment) data := by
  intro d d' hd
  have hp := h.roundUpPointer hd
  have hl := hd.written.length_le
  have hlrg := h.isLargeEnough hd
  have hrnd := roundUpPointer_eq h.aligned d.aligned b.length
  rw [← hd.start] at hrnd
  unfold decodeFixedLengthData
  have haln : alignBufferPosition alignment data.length d = .ok (some (),
      { d with
        bufferPos := Ipc.roundUpPointer d.bufferPos alignment
        le_pos := Nat.le_trans d.le_pos (le_roundUpPointer _ _)
        pos_le := by omega }) := by
    unfold alignBufferPosition
    rw [dif_pos hlrg]
  rw [Parser.bind_some haln]
  unfold readBytes ArgumentDecoder.bufferEnd
  dsimp only
  rw [dif_pos (by omega)]
  obtain ⟨pad, hpad, rfl⟩ := h.data
  obtain ⟨rest, hrest⟩ := hd.written
  refine congrArg Except.ok (Prod.ext (congrArg some ?_) ?_)
  · rw [hrnd, Nat.add_sub_cancel_left, ← hpad, ← length_append, ← hrest, append_assoc,
      drop_left, take_left]
  · exact ArgumentDecoder.ext hd.buffer.symm hd.bytes.symm (hp.trans hd.stop.symm)

end

end Padded

end WebKit.Ipc
