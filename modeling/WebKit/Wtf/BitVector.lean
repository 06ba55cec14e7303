import Mathlib.Data.List.Basic

/-!
# `WTF::BitVector`: the representation and its mutators

A bit vector is one tagged word. While the bits fit, the word itself holds them (the top bit is the
tag); otherwise it points to a block of words (`OutOfLineBits`). The tag is a field of the inline
form.

An operation that touches a word outside the storage of the vector it reads is `none`. The loops
count words with `unsigned`, which is `Nat` here.
-/

namespace WebKit.Wtf

open List BitVec

/-- `uintptr_t` of the 64-bit build. -/
abbrev Word := BitVec 64

def bitsInPointer : Nat := 64

def maxInlineBits : Nat := bitsInPointer - 1

/-- The tag of the inline form, `1 << maxInlineBits()`. -/
def inlineTag : Word := 1#64 <<< maxInlineBits

/-- The mask of one bit inside its word. -/
def bitMask (bit : Nat) : Word := 1#64 <<< (bit &&& (bitsInPointer - 1))

/-- The block behind an out-of-line vector: `m_numBits` and the words after it. -/
structure OutOfLineBits where
  numBits : Nat
  bits : List Word
  numBits_eq : numBits = bitsInPointer * bits.length
  bits_pos : 0 < bits.length

/-- A word in inline form: its tag is set. -/
structure InlineBits where
  word : Word
  tagged : word.getLsbD maxInlineBits = true

inductive BitVector
  | inlined (m : InlineBits)
  | outOfLine (m : OutOfLineBits)

namespace OutOfLineBits

def numWords (o : OutOfLineBits) : Nat := (o.numBits + bitsInPointer - 1) / bitsInPointer

theorem numWords_eq (o : OutOfLineBits) : o.numWords = o.bits.length := by
  have h := o.numBits_eq
  unfold numWords bitsInPointer at *
  omega

/-- The block with its words replaced by as many others. -/
def withBits (o : OutOfLineBits) (ws : List Word) (h : ws.length = o.bits.length) :
    OutOfLineBits where
  numBits := o.numBits
  bits := ws
  numBits_eq := by rw [h]; exact o.numBits_eq
  bits_pos := by rw [h]; exact o.bits_pos

end OutOfLineBits

/-! ## Word facts -/

theorem getLsbD_inlineTag (i : Nat) : inlineTag.getLsbD i = decide (i = maxInlineBits) := by
  unfold inlineTag maxInlineBits bitsInPointer
  simp only [getLsbD_shiftLeft, getLsbD_one]
  by_cases h : i = 63
  · subst h; decide
  simp only [h, decide_false]
  by_cases h2 : i < 63
  · simp [h2]
  · have : i - 63 ≠ 0 := by omega
    simp [this]

theorem getLsbD_bitMask (bit i : Nat) :
    (bitMask bit).getLsbD i = decide (i = bit % bitsInPointer) := by
  have hm : bit &&& (bitsInPointer - 1) = bit % bitsInPointer :=
    Nat.and_two_pow_sub_one_eq_mod bit 6
  have hlt : bit % bitsInPointer < 64 := Nat.mod_lt _ (by decide)
  unfold bitMask
  rw [hm]
  by_cases h : i = bit % bitsInPointer
  · subst h
    simp [hlt]
  · by_cases h2 : i < bit % bitsInPointer
    · simp [h2, h]
    · have : i - bit % bitsInPointer ≠ 0 := by omega
      simp [h, this]

theorem and_bitMask_ne_zero (word : Word) (bit : Nat) :
    (word &&& bitMask bit != 0#64) = word.getLsbD (bit % bitsInPointer) := by
  cases hw : word.getLsbD (bit % bitsInPointer) with
  | true =>
    have hne : word &&& bitMask bit ≠ 0#64 := by
      intro he
      have := congrArg (·.getLsbD (bit % bitsInPointer)) he
      simp [getLsbD_bitMask, hw] at this
    simpa using hne
  | false =>
    have he : word &&& bitMask bit = 0#64 := by
      apply eq_of_getLsbD_eq
      intro i hi
      simp only [getLsbD_and, getLsbD_bitMask, getLsbD_zero]
      by_cases h : i = bit % bitsInPointer
      · subst h; simp [hw]
      · simp [h]
    simp [he]

/-- `makeInlineBits`: set the tag. -/
def makeInlineBits (bits : Word) : InlineBits where
  word := bits ||| inlineTag
  tagged := by simp [getLsbD_inlineTag]

/-- `cleanseInlineBits`: drop the tag. -/
def cleanseInlineBits (bits : Word) : Word := bits &&& ~~~inlineTag

theorem getLsbD_cleanseInlineBits (bits : Word) (i : Nat) :
    (cleanseInlineBits bits).getLsbD i = (bits.getLsbD i && decide (i ≠ maxInlineBits)) := by
  unfold cleanseInlineBits
  by_cases hi : i < 64
  · rw [getLsbD_and, getLsbD_not, getLsbD_inlineTag]
    simp [hi]
  · have h1 : bits.getLsbD i = false := getLsbD_of_ge _ _ (by omega)
    simp [h1]

namespace BitVector

def empty : BitVector := .inlined (makeInlineBits 0)

/-! ## Queries -/

def size : BitVector → Nat
  | .inlined _ => maxInlineBits
  | .outOfLine o => o.numBits

/-- `bits()`: the words the vector's bits live in, the tagged word for the
inline form. -/
def bits : BitVector → List Word
  | .inlined m => [m.word]
  | .outOfLine o => o.bits

def quickGet (v : BitVector) (bit : Nat) : Bool :=
  match v.bits[bit / bitsInPointer]? with
  | some word => word &&& bitMask bit != 0#64
  | none => false

def get (v : BitVector) (bit : Nat) : Bool :=
  if bit ≥ v.size then false else v.quickGet bit

/-! ## Resizing -/

/-- `OutOfLineBits::create` with its words: those of `initial` come first, the rest is zero. -/
def createOutOfLine (numWords : Nat) (initial : List Word) (h : 0 < numWords) :
    OutOfLineBits where
  numBits := bitsInPointer * numWords
  bits := initial.take numWords ++ List.replicate (numWords - initial.length) 0
  numBits_eq := by
    congr 1
    simp only [length_append, length_take, length_replicate]
    omega
  bits_pos := by
    simp only [length_append, length_take, length_replicate]
    omega

/-- The number of words a block for `numBits` bits gets. -/
def wordsFor (numBits : Nat) : Nat := (numBits + bitsInPointer - 1) / bitsInPointer

theorem wordsFor_pos {numBits : Nat} (h : maxInlineBits < numBits) : 0 < wordsFor numBits := by
  unfold wordsFor maxInlineBits bitsInPointer at *
  omega

/-- `resizeOutOfLine`: a no-op on the bits kept, zero on the new ones. -/
def resizeOutOfLine (v : BitVector) (numBits : Nat) (h : maxInlineBits < numBits) : BitVector :=
  .outOfLine <| createOutOfLine (wordsFor numBits)
    (match v with
      | .inlined m => [cleanseInlineBits m.word]
      | .outOfLine o => o.bits)
    (wordsFor_pos h)

theorem le_size (v : BitVector) : maxInlineBits ≤ v.size := by
  cases v with
  | inlined m => exact Nat.le_refl _
  | outOfLine o =>
    have h1 := o.numBits_eq
    have h2 := o.bits_pos
    simp only [size]
    unfold maxInlineBits bitsInPointer at *
    omega

def ensureSize (v : BitVector) (numBits : Nat) : BitVector :=
  if h : numBits ≤ v.size then v
  else v.resizeOutOfLine numBits (Nat.lt_of_le_of_lt v.le_size (by omega))

/-! ## Single bits -/

/-- The previous value and the vector with the bit set. The bound is the assertion of the source. -/
def quickSet (v : BitVector) (bit : Nat) (_h : bit < v.size) : Bool × BitVector :=
  (v.quickGet bit,
    match v with
    | .inlined m => .inlined ⟨m.word ||| bitMask bit, by simp [m.tagged]⟩
    | .outOfLine o =>
      .outOfLine (o.withBits (o.bits.modify (bit / bitsInPointer) (· ||| bitMask bit))
        (length_modify ..)))

theorem inlined_clear_tagged (m : InlineBits) {bit : Nat} (h : bit < (BitVector.inlined m).size) :
    (m.word &&& ~~~bitMask bit).getLsbD maxInlineBits = true := by
  have hb : bit < 63 := h
  have hne : ¬ (63 = bit % 64) := by omega
  simp only [getLsbD_and, getLsbD_not, getLsbD_bitMask, m.tagged]
  simp [maxInlineBits, bitsInPointer, hne]

def quickClear (v : BitVector) (bit : Nat) (h : bit < v.size) : Bool × BitVector :=
  (v.quickGet bit,
    match v, h with
    | .inlined m, h => .inlined ⟨m.word &&& ~~~bitMask bit, inlined_clear_tagged m h⟩
    | .outOfLine o, _ =>
      .outOfLine (o.withBits (o.bits.modify (bit / bitsInPointer) (· &&& ~~~bitMask bit))
        (length_modify ..)))

theorem lt_size_ensureSize (v : BitVector) (bit : Nat) : bit < (v.ensureSize (bit + 1)).size := by
  unfold ensureSize
  split
  · omega
  · simp only [resizeOutOfLine, size, createOutOfLine, wordsFor, bitsInPointer]
    omega

def set (v : BitVector) (bit : Nat) : Bool × BitVector :=
  (v.ensureSize (bit + 1)).quickSet bit (v.lt_size_ensureSize bit)

def clear (v : BitVector) (bit : Nat) : Bool × BitVector :=
  if h : bit < v.size then v.quickClear bit h else (false, v)

/-! ## Set algebra -/

/-- `for (i = n; i--;) a->bits()[i] = op(a->bits()[i], b->bits()[i])`, `none`
as soon as `i` lies outside either block. -/
def combineWords (op : Word → Word → Word) (b : List Word) :
    Nat → List Word → Option (List Word)
  | 0, a => some a
  | i + 1, a =>
    match a[i]?, b[i]? with
    | some wa, some wb => combineWords op b i (a.set i (op wa wb))
    | _, _ => none

/-- `for (; i < a->numWords(); ++i) a->bits()[i] = 0`, with the number of
iterations first. -/
def clearWords : Nat → Nat → List Word → List Word
  | 0, _, a => a
  | n + 1, i, a => clearWords n (i + 1) (a.set i 0)

theorem combineWords_length {op : Word → Word → Word} {b : List Word} :
    ∀ {n : Nat} {a r : List Word}, combineWords op b n a = some r → r.length = a.length := by
  intro n
  induction n with
  | zero =>
    intro a r h
    simp only [combineWords, Option.some.injEq] at h
    rw [h]
  | succ i ih =>
    intro a r h
    simp only [combineWords] at h
    split at h
    · rw [ih h, length_set]
    · simp at h

theorem clearWords_length :
    ∀ (n i : Nat) (a : List Word), (clearWords n i a).length = a.length := by
  intro n
  induction n with
  | zero => intro i a; rfl
  | succ n ih => intro i a; rw [clearWords, ih, length_set]

/-- The first word of a block rewritten in place, `*bits() = f(*bits())`. -/
def modifyFirst (o : OutOfLineBits) (f : Word → Word) : BitVector :=
  .outOfLine (o.withBits (o.bits.modify 0 f) (length_modify ..))

/-- The word loop over two blocks, as an operation on the vector. -/
def combineOutOfLine (op : Word → Word → Word) (n : Nat) (a : OutOfLineBits) (b : List Word) :
    Option OutOfLineBits :=
  match h : combineWords op b n a.bits with
  | some ws => some (a.withBits ws (combineWords_length h))
  | none => none

def merge (v other : BitVector) : Option BitVector :=
  match v, other with
  | .inlined a, .inlined b => some (.inlined ⟨a.word ||| b.word, by simp [a.tagged]⟩)
  | .outOfLine a, .inlined b => some (modifyFirst a (· ||| cleanseInlineBits b.word))
  | _, .outOfLine b =>
    match v.ensureSize other.size with
    | .outOfLine a => .outOfLine <$> combineOutOfLine (· ||| ·) a.numWords a b.bits
    | .inlined _ => none

def filter (v other : BitVector) : Option BitVector :=
  match v, other with
  | .inlined a, .inlined b =>
    some (.inlined ⟨a.word &&& b.word, by simp [a.tagged, b.tagged]⟩)
  | .outOfLine a, .inlined b => some (modifyFirst a (· &&& cleanseInlineBits b.word))
  | .inlined a, .outOfLine b => some (.inlined (makeInlineBits (a.word &&& b.bits.headD 0)))
  | .outOfLine a, .outOfLine b =>
    (fun r => .outOfLine
      (r.withBits (clearWords (a.numWords - b.numWords) b.numWords r.bits)
        (clearWords_length ..))) <$>
      combineOutOfLine (· &&& ·) (min a.numWords b.numWords) a b.bits

def exclude (v other : BitVector) : Option BitVector :=
  match v, other with
  | .inlined a, .inlined b => some (.inlined (makeInlineBits (a.word &&& ~~~b.word)))
  | .outOfLine a, .inlined b => some (modifyFirst a (· &&& ~~~cleanseInlineBits b.word))
  | .inlined a, .outOfLine b => some (.inlined (makeInlineBits (a.word &&& ~~~b.bits.headD 0)))
  | .outOfLine a, .outOfLine b =>
    .outOfLine <$> combineOutOfLine (fun x y => x &&& ~~~y) (min a.numWords b.numWords) a b.bits

end BitVector
end WebKit.Wtf
