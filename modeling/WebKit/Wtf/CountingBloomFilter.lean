import Mathlib.Data.List.Count
import WebKit.Wtf.BloomFilter

/-!
# `CountingBloomFilter`

A Bloom filter from which keys can be removed: a key counts in two counters of 8 bits, which may be
the same one. A counter that reaches 255 sticks there. Any other counter is exact (`Tracks`), so a
key that is still in the filter is found.
-/

namespace WebKit.Wtf

/-- `m_buckets`, an array of `uint8_t`. -/
structure CountingBloomFilter (keyBits : Nat) where
  buckets : Vector (BitVec 8) (2 ^ keyBits)

namespace CountingBloomFilter

variable {keyBits : Nat}

def new : CountingBloomFilter keyBits := ⟨Vector.replicate _ 0⟩

def maximumCount : BitVec 8 := 255

open BloomFilter

/-- The index of `firstBucket`. -/
def firstBucket (keyBits : Nat) (hash : BitVec 32) : Nat :=
  (hash &&& keyMask keyBits).toNat

/-- The index of `secondBucket`. -/
def secondBucket (keyBits : Nat) (hash : BitVec 32) : Nat :=
  ((hash >>> 16) &&& keyMask keyBits).toNat

def bucket (f : CountingBloomFilter keyBits) (index : Nat) : BitVec 8 :=
  f.buckets[index]?.getD 0

/-- `if (LIKELY(bucket < maximumCount())) ++bucket`. -/
def increment (f : CountingBloomFilter keyBits) (index : Nat) : CountingBloomFilter keyBits :=
  if f.bucket index < maximumCount then
    ⟨f.buckets.setIfInBounds index (f.bucket index + 1)⟩
  else f

/-- `if (LIKELY(bucket < maximumCount())) --bucket`. -/
def decrement (f : CountingBloomFilter keyBits) (index : Nat) : CountingBloomFilter keyBits :=
  if f.bucket index < maximumCount then
    ⟨f.buckets.setIfInBounds index (f.bucket index - 1)⟩
  else f

def add (f : CountingBloomFilter keyBits) (hash : BitVec 32) : CountingBloomFilter keyBits :=
  (f.increment (firstBucket keyBits hash)).increment (secondBucket keyBits hash)

def remove (f : CountingBloomFilter keyBits) (hash : BitVec 32) : CountingBloomFilter keyBits :=
  (f.decrement (firstBucket keyBits hash)).decrement (secondBucket keyBits hash)

def mayContain (f : CountingBloomFilter keyBits) (hash : BitVec 32) : Bool :=
  f.bucket (firstBucket keyBits hash) != 0 && f.bucket (secondBucket keyBits hash) != 0

/-! ## Exact or stuck -/

/-- Every counter is stuck or has the value of `count`. -/
def Tracks (f : CountingBloomFilter keyBits) (count : Nat → Nat) : Prop :=
  ∀ index < 2 ^ keyBits, f.bucket index = maximumCount ∨ (f.bucket index).toNat = count index

variable {f : CountingBloomFilter keyBits} {count : Nat → Nat} {index : Nat}

theorem new_tracks : (new : CountingBloomFilter keyBits).Tracks (fun _ => 0) := by
  intro index hidx
  right
  simp [bucket, new, hidx]

theorem bucket_setIfInBounds (hidx : index < 2 ^ keyBits) (val : BitVec 8) (other : Nat) :
    (⟨f.buckets.setIfInBounds index val⟩ : CountingBloomFilter keyBits).bucket other
      = if other = index then val else f.bucket other := by
  rw [bucket, Vector.getElem?_setIfInBounds]
  by_cases heq : other = index
  · rw [if_pos heq.symm, if_pos hidx, if_pos heq, Option.getD_some]
  · rw [if_neg (fun h => heq h.symm), if_neg heq, bucket]

/-- A counter below the maximum is exact. -/
theorem Tracks.exact (h : f.Tracks count) (hidx : index < 2 ^ keyBits)
    (hlt : f.bucket index < maximumCount) :
    (f.bucket index).toNat = count index ∧ (f.bucket index).toNat < 255 := by
  refine ⟨(h index hidx).resolve_left (fun hmax => ?_), BitVec.lt_def.mp hlt⟩
  rw [hmax] at hlt
  exact absurd hlt (by decide)

theorem eq_maximumCount {val : BitVec 8} (h : ¬val < maximumCount) : val = maximumCount := by
  have hge : 255 ≤ val.toNat := BitVec.le_def.mp (BitVec.not_lt.mp h)
  refine BitVec.eq_of_toNat_eq ?_
  show val.toNat = 255
  omega

section

variable (h : f.Tracks count) (hidx : index < 2 ^ keyBits)

include h hidx

theorem Tracks.write {val : BitVec 8} {count' : Nat → Nat}
    (hoth : ∀ oth, index ≠ oth → count' oth = count oth)
    (hv : f.bucket index < maximumCount → val.toNat = count' index) :
    (if f.bucket index < maximumCount then ⟨f.buckets.setIfInBounds index val⟩
      else f : CountingBloomFilter keyBits).Tracks count' := by
  intro oth hlt
  by_cases heq : index = oth
  · subst heq
    split
    · next hlow =>
      rw [bucket_setIfInBounds hidx, if_pos rfl]
      exact .inr (hv hlow)
    next hst => exact .inl (eq_maximumCount hst)
  · rw [hoth oth heq]
    split
    · rw [bucket_setIfInBounds hidx, if_neg (Ne.symm heq)]
      exact h oth hlt
    · exact h oth hlt

theorem Tracks.increment :
    (f.increment index).Tracks (fun oth => count oth + if index = oth then 1 else 0) := by
  refine h.write hidx (fun oth hne => by simp [hne]) fun hlow => ?_
  obtain ⟨hexa, hsml⟩ := h.exact hidx hlow
  rw [if_pos rfl, ← hexa, BitVec.toNat_add]
  show ((f.bucket index).toNat + 1) % 2 ^ 8 = _
  omega

theorem Tracks.decrement (hp : 0 < count index) :
    (f.decrement index).Tracks (fun oth => count oth - if index = oth then 1 else 0) := by
  refine h.write hidx (fun oth hne => by simp [hne]) fun hlow => ?_
  obtain ⟨hexa, -⟩ := h.exact hidx hlow
  have hone : (1 : BitVec 8) ≤ f.bucket index := by
    show 1 ≤ (f.bucket index).toNat
    omega
  rw [if_pos rfl, ← hexa, BitVec.toNat_sub_of_le hone]
  rfl

theorem Tracks.bucket_ne_zero (hp : 0 < count index) : f.bucket index ≠ 0 := by
  intro hz
  rcases h index hidx with hmax | hexa
  · rw [hz] at hmax
    exact absurd hmax (by decide)
  · rw [hz] at hexa
    exact absurd hexa hp.ne

end

theorem Tracks.congr {count' : Nat → Nat} (h : f.Tracks count)
    (heq : ∀ index, count index = count' index) : f.Tracks count' := by
  intro index hidx
  rw [← heq]
  exact h index hidx

/-! ## The keys in the filter -/

/-- How often the keys count in a bucket. -/
def occurrences (keyBits : Nat) (keys : List (BitVec 32)) (index : Nat) : Nat :=
  (keys.map (firstBucket keyBits)).count index + (keys.map (secondBucket keyBits)).count index

/-- The counters are those of the keys, with repetition. -/
def Holds (f : CountingBloomFilter keyBits) (keys : List (BitVec 32)) : Prop :=
  f.Tracks (occurrences keyBits keys)

variable {hash : BitVec 32} {keys : List (BitVec 32)}

theorem new_holds : (new : CountingBloomFilter keyBits).Holds [] := new_tracks

theorem masked_lt (hbits : keyBits < 32) (key : BitVec 32) :
    (key &&& keyMask keyBits).toNat < 2 ^ keyBits := by
  rw [BitVec.toNat_and, toNat_keyMask hbits, Nat.and_two_pow_sub_one_eq_mod]
  exact Nat.mod_lt _ (Nat.two_pow_pos keyBits)

theorem firstBucket_lt (hbits : keyBits < 32) (hash : BitVec 32) :
    firstBucket keyBits hash < 2 ^ keyBits := masked_lt hbits hash

theorem secondBucket_lt (hbits : keyBits < 32) (hash : BitVec 32) :
    secondBucket keyBits hash < 2 ^ keyBits := masked_lt hbits (hash >>> 16)

theorem occurrences_cons (hash : BitVec 32) (keys : List (BitVec 32)) (index : Nat) :
    occurrences keyBits (hash :: keys) index = occurrences keyBits keys index
      + (if firstBucket keyBits hash = index then 1 else 0)
      + (if secondBucket keyBits hash = index then 1 else 0) := by
  simp only [occurrences, List.map_cons, List.count_cons, beq_iff_eq]
  omega

theorem Holds.perm {keys' : List (BitVec 32)} (h : f.Holds keys) (hpr : keys.Perm keys') :
    f.Holds keys' := by
  refine Tracks.congr h (fun index => ?_)
  rw [occurrences, occurrences, (hpr.map _).count_eq, (hpr.map _).count_eq]

section

variable (hbits : keyBits < 32)

include hbits

theorem Holds.add (h : f.Holds keys) (hash : BitVec 32) : (f.add hash).Holds (hash :: keys) := by
  have htw := (Tracks.increment h (firstBucket_lt hbits hash)).increment
    (secondBucket_lt hbits hash)
  refine htw.congr (fun index => ?_)
  rw [occurrences_cons]

theorem Holds.remove (h : f.Holds (hash :: keys)) : (f.remove hash).Holds keys := by
  have hfst := Tracks.decrement h (firstBucket_lt hbits hash) (by
    rw [occurrences_cons, if_pos rfl]
    omega)
  -- The two buckets may be the same, and then the key counts twice in it.
  have hsnd := hfst.decrement (secondBucket_lt hbits hash) (by
    rw [occurrences_cons, if_pos (rfl : secondBucket keyBits hash = _)]
    omega)
  refine hsnd.congr (fun index => ?_)
  rw [occurrences_cons]
  omega

theorem Holds.foldl_add (hashes : List (BitVec 32)) (h : f.Holds keys) :
    (hashes.foldl CountingBloomFilter.add f).Holds (hashes ++ keys) := by
  induction hashes generalizing f keys with
  | nil => exact h
  | cons hash rest ih => exact (ih (h.add hbits hash)).perm List.perm_middle

theorem Holds.foldl_remove (hashes : List (BitVec 32)) (h : f.Holds (hashes ++ keys)) :
    (hashes.foldl CountingBloomFilter.remove f).Holds keys := by
  induction hashes generalizing f with
  | nil => exact h
  | cons hash rest ih => exact ih (Holds.remove hbits h)

/-- **No false negatives.** A key in the filter is found. -/
theorem Holds.mayContain (h : f.Holds keys) (hm : hash ∈ keys) : f.mayContain hash = true := by
  have hfst : 0 < (keys.map (firstBucket keyBits)).count (firstBucket keyBits hash) :=
    List.count_pos_iff.mpr (List.mem_map_of_mem hm)
  have hsnd : 0 < (keys.map (secondBucket keyBits)).count (secondBucket keyBits hash) :=
    List.count_pos_iff.mpr (List.mem_map_of_mem hm)
  have hfst' := Tracks.bucket_ne_zero h (firstBucket_lt hbits hash)
    (hfst.trans_le (Nat.le_add_right _ _))
  have hsnd' := Tracks.bucket_ne_zero h (secondBucket_lt hbits hash)
    (hsnd.trans_le (Nat.le_add_left _ _))
  rw [CountingBloomFilter.mayContain, Bool.and_eq_true_iff]
  exact ⟨bne_iff_ne.mpr hfst', bne_iff_ne.mpr hsnd'⟩

end

end CountingBloomFilter

end WebKit.Wtf
