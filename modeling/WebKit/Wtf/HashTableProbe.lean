import WebKit.Wtf.HashTable

/-!
# The probe loops of `HashTable`

In a table whose size is a power of two the masked positions of a key are `h + j * k` modulo the
size, with an odd stride `k`. So they run through the whole table, and every loop ends within one
cycle when there is an empty bucket.
-/

namespace WebKit.Wtf.HashTable

open OpenAddressing

variable {κ ν : Type}

/-! ## Positions -/

/-- The position that a probe loop inspects at step `j`. -/
def probe (h k sizeMask : BitVec 32) : Nat → BitVec 32
  | 0 => h &&& sizeMask
  | j + 1 => (probe h k sizeMask j + k) &&& sizeMask

/-- The probe sequence of `key` in a table of `n` buckets. -/
def probeSeq (tr : KeyTraits κ) (n : Nat) (key : κ) (j : Nat) : Nat :=
  (probe (tr.hash key) (stride (tr.hash key)) (BitVec.ofNat 32 n - 1) j).toNat

variable {w : Nat}

theorem toNat_and_mask (x : BitVec 32) (hw : w ≤ 31) :
    (x &&& (BitVec.ofNat 32 (2 ^ w) - 1)).toNat = x.toNat % 2 ^ w := by
  have hlt : 2 ^ w < 2 ^ 32 := Nat.pow_lt_pow_right (by decide) (by omega)
  have hms : (BitVec.ofNat 32 (2 ^ w) - 1).toNat = 2 ^ w - 1 := by
    have hp : 1 ≤ 2 ^ w := Nat.one_le_two_pow
    rw [BitVec.toNat_sub, BitVec.toNat_ofNat, Nat.mod_eq_of_lt hlt]
    rw [show (1 : BitVec 32).toNat = 1 from rfl]
    omega
  rw [BitVec.toNat_and, hms, Nat.and_two_pow_sub_one_eq_mod]

theorem toNat_probe (h k : BitVec 32) (hw : w ≤ 31) (j : Nat) :
    (probe h k (BitVec.ofNat 32 (2 ^ w) - 1) j).toNat = (h.toNat + j * k.toNat) % 2 ^ w := by
  induction j with
  | zero => rw [probe, toNat_and_mask _ hw, zero_mul, add_zero]
  | succ j ih =>
    have hdvd : 2 ^ w ∣ 2 ^ 32 := Nat.pow_dvd_pow 2 (by omega)
    rw [probe, toNat_and_mask _ hw, BitVec.toNat_add, Nat.mod_mod_of_dvd _ hdvd, ih,
      Nat.mod_add_mod, Nat.succ_mul, add_assoc]

theorem stride_odd (h : BitVec 32) : (stride h).toNat % 2 = 1 := by
  rw [stride, BitVec.toNat_or, show (1 : BitVec 32).toNat = 1 from rfl]
  simp

theorem fullCycle_probeSeq (tr : KeyTraits κ) (key : κ) (hw : w ≤ 31) :
    FullCycle (2 ^ w) (probeSeq tr (2 ^ w) key) := by
  have h := fullCycle_stride w (tr.hash key).toNat (stride (tr.hash key)).toNat (stride_odd _)
  have hseq : probeSeq tr (2 ^ w) key =
      fun j => ((tr.hash key).toNat + j * (stride (tr.hash key)).toNat) % 2 ^ w :=
    funext fun j => toNat_probe _ _ hw j
  rw [hseq]
  exact h

/-! ## The loops -/

section Loops

variable [DecidableEq κ] {table : List (Bucket κ ν)} {key : κ} {k sizeMask : BitVec 32}
  {c : Bucket κ ν} {i : BitVec 32}

theorem lookupLoop_skip {fuel : Nat} (hc : table[i.toNat]? = some c) (he : ¬ Ends key c) :
    lookupLoop table key k sizeMask (fuel + 1) i =
      lookupLoop table key k sizeMask fuel ((i + k) &&& sizeMask) := by
  cases c with
  | empty => exact (he trivial).elim
  | deleted => simp [lookupLoop, hc]
  | live key' v => simp [lookupLoop, hc, show key' ≠ key from he]

variable {b : Bucket κ ν} (f : Nat → BitVec 32)

/-- `lookup` along the positions `f` ends at the first bucket that is empty or holds
the key. -/
theorem lookupLoop_eq (hf : ∀ j, f (j + 1) = (f j + k) &&& sizeMask)
    (j fuel : Nat) (hj : j < fuel) (hb : table[(f j).toNat]? = some b) (he : Ends key b)
    (hbef : ∀ i < j, ∃ c, table[(f i).toNat]? = some c ∧ ¬ Ends key c) :
    lookupLoop table key k sizeMask fuel (f 0) =
      some (if b.isLive then some (f j).toNat else none) := by
  induction j generalizing f fuel with
  | zero =>
    obtain ⟨fuel, rfl⟩ : ∃ m, fuel = m + 1 := ⟨fuel - 1, by omega⟩
    cases b with
    | empty => simp [lookupLoop, hb, Bucket.isLive]
    | deleted => exact he.elim
    | live key' v =>
      have hk : key' = key := he
      simp [lookupLoop, hb, hk, Bucket.isLive]
  | succ j ih =>
    obtain ⟨fuel, rfl⟩ : ∃ m, fuel = m + 1 := ⟨fuel - 1, by omega⟩
    obtain ⟨c, hc, hcn⟩ := hbef 0 (Nat.succ_pos j)
    rw [lookupLoop_skip hc hcn, ← hf]
    exact ih (fun i => f (i + 1)) (fun i => hf (i + 1)) fuel (by omega) hb
      fun i hi => hbef (i + 1) (by omega)

theorem writingLoop_skip {fuel : Nat} {d : Option Nat} (hc : table[i.toNat]? = some c)
    (he : ¬ Ends key c) :
    writingLoop table key k sizeMask (fuel + 1) i d =
      writingLoop table key k sizeMask fuel ((i + k) &&& sizeMask)
        (if c.isDeleted then some i.toNat else d) := by
  cases c with
  | empty => exact (he trivial).elim
  | deleted => simp [writingLoop, hc, Bucket.isDeleted]
  | live key' v => simp [writingLoop, hc, show key' ≠ key from he, Bucket.isDeleted]

/-- The loop ends at an empty bucket or the key; a new entry goes there or to a deleted bucket
before. -/
theorem writingLoop_eq (hf : ∀ j, f (j + 1) = (f j + k) &&& sizeMask)
    (j fuel : Nat) (d : Option Nat) (hj : j < fuel) (hb : table[(f j).toNat]? = some b)
    (hend : Ends key b) (hbef : ∀ i < j, ∃ c, table[(f i).toNat]? = some c ∧ ¬ Ends key c) :
    (b.isLive = true ∧ writingLoop table key k sizeMask fuel (f 0) d = some ((f j).toNat, true)) ∨
    (b = .empty ∧ ∃ p, writingLoop table key k sizeMask fuel (f 0) d = some (p, false) ∧
      (d = some p ∨ ∃ i ≤ j, p = (f i).toNat ∧ ∃ c, table[p]? = some c ∧ c.isLive = false)) := by
  induction j generalizing f fuel d with
  | zero =>
    obtain ⟨fuel, rfl⟩ : ∃ m, fuel = m + 1 := ⟨fuel - 1, by omega⟩
    cases b with
    | empty =>
      refine .inr ⟨rfl, d.getD (f 0).toNat, by simp [writingLoop, hb], ?_⟩
      cases d with
      | none => exact .inr ⟨0, le_refl 0, rfl, _, hb, rfl⟩
      | some p => exact .inl rfl
    | deleted => exact hend.elim
    | live key' v =>
      have hk : key' = key := hend
      exact .inl ⟨rfl, by simp [writingLoop, hb, hk]⟩
  | succ j ih =>
    obtain ⟨fuel, rfl⟩ : ∃ m, fuel = m + 1 := ⟨fuel - 1, by omega⟩
    obtain ⟨c, hc, hcn⟩ := hbef 0 (Nat.succ_pos j)
    rw [writingLoop_skip hc hcn, ← hf]
    rcases ih (fun i => f (i + 1)) (fun i => hf (i + 1)) fuel
      (if c.isDeleted then some (f 0).toNat else d) (by omega) hb
      (fun i hi => hbef (i + 1) (by omega)) with hl | ⟨he, p, hp, hd⟩
    · exact .inl hl
    · refine .inr ⟨he, p, hp, ?_⟩
      rcases hd with hd | ⟨i, hi, hpi, hlv⟩
      · split_ifs at hd with hdel
        · -- the deleted bucket just passed is the one to write to
          obtain rfl : (f 0).toNat = p := Option.some_inj.mp hd
          refine .inr ⟨0, Nat.zero_le _, rfl, c, hc, ?_⟩
          cases c with
          | live key' v => cases hdel
          | empty => rfl
          | deleted => rfl
        · exact .inl hd
      · exact .inr ⟨i + 1, by omega, hpi, hlv⟩

omit [DecidableEq κ] in
theorem uniqueLoop_eq (hf : ∀ j, f (j + 1) = (f j + k) &&& sizeMask)
    (j fuel : Nat) (hj : j < fuel) (hb : table[(f j).toNat]? = some .empty)
    (hbef : ∀ i < j, ∃ c, table[(f i).toNat]? = some c ∧ c ≠ .empty) :
    uniqueLoop table k sizeMask fuel (f 0) = some (f j).toNat := by
  induction j generalizing f fuel with
  | zero =>
    obtain ⟨fuel, rfl⟩ : ∃ m, fuel = m + 1 := ⟨fuel - 1, by omega⟩
    simp [uniqueLoop, hb]
  | succ j ih =>
    obtain ⟨fuel, rfl⟩ : ∃ m, fuel = m + 1 := ⟨fuel - 1, by omega⟩
    obtain ⟨c, hc, hcne⟩ := hbef 0 (Nat.succ_pos j)
    have hsk : uniqueLoop table k sizeMask (fuel + 1) (f 0) =
        uniqueLoop table k sizeMask fuel (f 1) := by
      rw [hf 0]
      cases c with
      | empty => exact (hcne rfl).elim
      | deleted | live key' v => simp [uniqueLoop, hc]
    rw [hsk]
    exact ih (fun i => f (i + 1)) (fun i => hf (i + 1)) fuel (by omega) hb
      fun i hi => hbef (i + 1) (by omega)

end Loops

/-! ## Searching a table -/

/-- A table of `n` buckets, a power of two that a mask can hold. -/
def PowSize (n : Nat) : Prop := ∃ w ≤ 31, n = 2 ^ w

theorem PowSize.fullCycle {n : Nat} (h : PowSize n) (tr : KeyTraits κ) (key : κ) :
    FullCycle n (probeSeq tr n key) := by
  obtain ⟨w, hw, rfl⟩ := h
  exact fullCycle_probeSeq tr key hw

/-- What a search needs: a size that the strides run through, an empty bucket to end at, and live
keys where the search finds them. -/
structure Searchable (tr : KeyTraits κ) (table : List (Bucket κ ν)) : Prop where
  pow : PowSize table.length
  empty : .empty ∈ table
  placed : Placed (probeSeq tr table.length) table
  unique : Unique table

theorem Searchable.ne_nil {tr : KeyTraits κ} {table : List (Bucket κ ν)}
    (h : Searchable tr table) : table ≠ [] :=
  List.ne_nil_of_mem h.empty

section Search

variable [DecidableEq κ] {tr : KeyTraits κ} {t : HashTable κ ν}

/-- **`lookup`** finds the bucket of a stored key, and nothing for any other. -/
theorem Searchable.lookup (h : Searchable tr t.table) (key : κ) :
    (∃ p v, t.lookup tr key = some (some p) ∧ t.table[p]? = some (.live key v)) ∨
      (t.lookup tr key = some none ∧ ∀ v, ¬ Stored t.table key v) := by
  obtain ⟨j, hj, b, hb, he, hbef⟩ := exists_end (h.pow.fullCycle tr key) h.empty key
  have heq : t.lookup tr key =
      some (if b.isLive then some (probeSeq tr t.table.length key j) else none) := by
    rw [HashTable.lookup, if_neg h.ne_nil]
    exact lookupLoop_eq _ (fun _ => rfl) j _ hj hb he hbef
  cases b with
  | empty => exact .inr ⟨heq, fun v => not_stored_of_end h.placed hb hbef v⟩
  | deleted => exact he.elim
  | live key' v =>
    obtain rfl : key' = key := he
    exact .inl ⟨_, v, heq, hb⟩

/-- **`lookupForWriting`** finds the bucket of a stored key, or one that is not live on its search.
-/
theorem Searchable.lookupForWriting (h : Searchable tr t.table) (key : κ) :
    (∃ p v, t.lookupForWriting tr key = some (p, true) ∧ t.table[p]? = some (.live key v)) ∨
      ((∀ v, ¬ Stored t.table key v) ∧ ∃ p c, t.lookupForWriting tr key = some (p, false) ∧
        t.table[p]? = some c ∧ c.isLive = false ∧
        Met t.table (probeSeq tr t.table.length key) p) := by
  obtain ⟨j, hj, b, hb, hend, hbef⟩ := exists_end (h.pow.fullCycle tr key) h.empty key
  rcases writingLoop_eq _ (fun _ => rfl) j _ none hj hb hend hbef with
    ⟨hlv, heq⟩ | ⟨rfl, p, heq, hd⟩
  · cases b with
    | empty => cases hlv
    | deleted => exact hend.elim
    | live key' v =>
      obtain rfl : key' = key := hend
      exact .inl ⟨_, v, heq, hb⟩
  · refine .inr ⟨fun v => not_stored_of_end h.placed hb hbef v, ?_⟩
    rcases hd with hd | ⟨i, hi, hpi, c, hc, hlv⟩
    · cases hd
    refine ⟨p, c, heq, hc, hlv, i, hpi.symm, fun m hm he => ?_⟩
    -- before the end of the search no bucket is empty
    obtain ⟨c', hc', hcn⟩ := hbef m (by omega)
    rw [he, Option.some_inj] at hc'
    subst hc'
    exact hcn trivial

/-- **`addUniqueForInitialization`** ends at an empty bucket that the search meets. -/
theorem Searchable.uniquePosition (h : Searchable tr t.table) (key : κ) :
    ∃ p, t.uniquePosition tr key = some p ∧ t.table[p]? = some .empty ∧
      Met t.table (probeSeq tr t.table.length key) p := by
  have hcyc := h.pow.fullCycle tr key
  have hg : ∀ i, ∃ c, t.table[probeSeq tr t.table.length key i]? = some c := fun i =>
    ⟨_, List.getElem?_eq_getElem (hcyc.lt i)⟩
  obtain ⟨q, hq, hqe⟩ := List.getElem_of_mem h.empty
  obtain ⟨m, hm, hmq⟩ := hcyc.meets q hq
  classical
  obtain ⟨j, hj, hb, hfst⟩ := exists_first
    (P := fun i => t.table[probeSeq tr t.table.length key i]? = some .empty)
    ⟨m, hm, by rw [hmq, List.getElem?_eq_getElem hq, hqe]⟩
  refine ⟨_, uniqueLoop_eq _ (fun _ => rfl) j _ hj hb fun i hi => ?_, hb, j, rfl, hfst⟩
  obtain ⟨c, hc⟩ := hg i
  exact ⟨c, hc, fun he => hfst i hi (by rw [hc, he])⟩

end Search

end WebKit.Wtf.HashTable
