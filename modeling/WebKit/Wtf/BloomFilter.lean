import Mathlib.Data.Nat.Bitwise

/-!
# `BloomFilter`

A table of `2 ^ keyBits` bits with two hash functions. A hash that was added is always found. The
table is an array of words, and a table of less than one word has no words at all, so that nothing
is ever found there.
-/

namespace WebKit.Wtf

open BitVec

/-- `m_bitArray`, an array of `unsigned`. -/
structure BloomFilter (keyBits : Nat) where
  bitArray : Vector (BitVec 32) (2 ^ keyBits / 32)

namespace BloomFilter

variable {keyBits : Nat}

def new : BloomFilter keyBits := ⟨Vector.replicate _ 0⟩

def keyMask (keyBits : Nat) : BitVec 32 := ((1 : BitVec 32) <<< keyBits) - 1

variable (key : BitVec 32)

def arrayIndex : Nat := key.toNat / 32

def bitMask : BitVec 32 := (1 : BitVec 32) <<< (key.toNat % 32)

def isBitSet (f : BloomFilter keyBits) (key : BitVec 32) : Bool :=
  let maskedKey := key &&& keyMask keyBits
  (f.bitArray[arrayIndex maskedKey]?.getD 0 &&& bitMask maskedKey) != 0

def setBit (f : BloomFilter keyBits) (key : BitVec 32) : BloomFilter keyBits :=
  let maskedKey := key &&& keyMask keyBits
  let word := f.bitArray[arrayIndex maskedKey]?.getD 0
  ⟨f.bitArray.setIfInBounds (arrayIndex maskedKey) (word ||| bitMask maskedKey)⟩

/-- The `unsigned` that the bytes from an index on are, the first byte lowest. -/
def unsignedAt {hashSize : Nat} (hash : Vector (BitVec 8) hashSize) (i : Nat) : BitVec 32 :=
  let byte := fun j => hash[i + j]?.getD 0
  byte 3 ++ byte 2 ++ byte 1 ++ byte 0

def keysFromHash {hashSize : Nat} (hash : Vector (BitVec 8) hashSize) : BitVec 32 × BitVec 32 :=
  (unsignedAt hash 0, unsignedAt hash 4)

def add {hashSize : Nat} (f : BloomFilter keyBits) (hash : Vector (BitVec 8) hashSize) :
    BloomFilter keyBits :=
  let keys := keysFromHash hash
  (f.setBit keys.1).setBit keys.2

def mayContain {hashSize : Nat} (f : BloomFilter keyBits) (hash : Vector (BitVec 8) hashSize) :
    Bool :=
  let keys := keysFromHash hash
  f.isBitSet keys.1 && f.isBitSet keys.2

/-! ## No false negatives -/

theorem toNat_keyMask (h : keyBits < 32) : (keyMask keyBits).toNat = 2 ^ keyBits - 1 := by
  have hpow : 2 ^ keyBits < 2 ^ 32 := Nat.pow_lt_pow_right (by decide) h
  have hp : 0 < 2 ^ keyBits := Nat.two_pow_pos keyBits
  rw [keyMask, toNat_sub_of_le]
  · rw [toNat_shiftLeft, Nat.shiftLeft_eq]
    show 1 * 2 ^ keyBits % 2 ^ 32 - 1 = _
    rw [one_mul, Nat.mod_eq_of_lt hpow]
  · rw [le_def, toNat_shiftLeft, Nat.shiftLeft_eq]
    show 1 ≤ 1 * 2 ^ keyBits % 2 ^ 32
    rw [one_mul, Nat.mod_eq_of_lt hpow]
    exact hp

theorem arrayIndex_lt (h : 5 ≤ keyBits ∧ keyBits < 32) (key : BitVec 32) :
    arrayIndex (key &&& keyMask keyBits) < 2 ^ keyBits / 32 := by
  have hpow : 2 ^ keyBits = 32 * 2 ^ (keyBits - 5) := by
    rw [← Nat.pow_add (a := 2) (m := 5), Nat.add_sub_cancel' h.1]
  have hlt : (key &&& keyMask keyBits).toNat < 2 ^ keyBits := by
    rw [toNat_and, toNat_keyMask h.2]
    have hle : key.toNat &&& (2 ^ keyBits - 1) ≤ 2 ^ keyBits - 1 := Nat.and_le_right
    have hp : 0 < 2 ^ keyBits := Nat.two_pow_pos keyBits
    omega
  rw [arrayIndex, hpow, Nat.mul_div_cancel_left _ (by decide)]
  rw [hpow] at hlt
  exact Nat.div_lt_of_lt_mul hlt

theorem bitMask_ne_zero : bitMask key ≠ 0 := by
  intro hz
  have hlt : key.toNat % 32 < 32 := Nat.mod_lt _ (by decide)
  have hb : (bitMask key).getLsbD (key.toNat % 32) = true := by
    simp [bitMask, hlt]
  rw [hz] at hb
  simp at hb

theorem isBitSet_setBit_self (h : 5 ≤ keyBits ∧ keyBits < 32) (f : BloomFilter keyBits)
    (key : BitVec 32) : (f.setBit key).isBitSet key = true := by
  simp only [isBitSet, setBit, bne_iff_ne,
    Vector.getElem?_setIfInBounds_self_of_lt (arrayIndex_lt h key), Option.getD_some]
  rw [BitVec.and_or_distrib_right, BitVec.and_self]
  exact fun hz => bitMask_ne_zero _ (BitVec.or_eq_zero_iff.mp hz).2

/-- No bit is ever cleared. -/
theorem isBitSet_setBit {f : BloomFilter keyBits} {key : BitVec 32} (oth : BitVec 32)
    (h : f.isBitSet key = true) : (f.setBit oth).isBitSet key = true := by
  simp only [isBitSet, setBit, bne_iff_ne, Vector.getElem?_setIfInBounds] at h ⊢
  split
  next heq =>
    split
    · rw [Option.getD_some, and_or_distrib_right, heq]
      exact fun hz => h (or_eq_zero_iff.mp hz).1
    next ho =>
      -- there is no word at the index, so the bit is not set
      rw [Vector.getElem?_eq_none (by omega), Option.getD_none] at h
      exact absurd zero_and h
  · exact h

variable {hashSize : Nat} {f : BloomFilter keyBits}

theorem mayContain_add_self (h : 5 ≤ keyBits ∧ keyBits < 32) (f : BloomFilter keyBits)
    (hash : Vector (BitVec 8) hashSize) : (f.add hash).mayContain hash = true :=
  Bool.and_eq_true_iff.mpr
    ⟨isBitSet_setBit _ (isBitSet_setBit_self h f _), isBitSet_setBit_self h _ _⟩

variable {hash : Vector (BitVec 8) hashSize}

theorem mayContain_add (oth : Vector (BitVec 8) hashSize)
    (h : f.mayContain hash = true) : (f.add oth).mayContain hash = true := by
  obtain ⟨hfst, hsnd⟩ := Bool.and_eq_true_iff.mp h
  exact Bool.and_eq_true_iff.mpr
    ⟨isBitSet_setBit _ (isBitSet_setBit _ hfst), isBitSet_setBit _ (isBitSet_setBit _ hsnd)⟩

theorem mayContain_foldl_add (h : 5 ≤ keyBits ∧ keyBits < 32) (f : BloomFilter keyBits)
    (hashes : List (Vector (BitVec 8) hashSize))
    (hhs : f.mayContain hash = true ∨ hash ∈ hashes) :
    (hashes.foldl add f).mayContain hash = true := by
  induction hashes generalizing f with
  | nil => exact hhs.resolve_right List.not_mem_nil
  | cons oth rest ih =>
    refine ih (f.add oth) ?_
    rcases hhs with hf | hm
    · exact .inl (mayContain_add oth hf)
    · rcases List.mem_cons.mp hm with rfl | hm
      · exact .inl (mayContain_add_self h f hash)
      · exact .inr hm

end BloomFilter

end WebKit.Wtf
