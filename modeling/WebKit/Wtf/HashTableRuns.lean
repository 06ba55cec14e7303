import Mathlib.Data.Nat.Size
import WebKit.Wtf.HashTableRefinement

/-!
# Runs of hash table operations

A run of `add`, `remove`, `removeIf`, `clear` and copy construction is compared with the same run
on a function from keys to values. The two agree in every run whose steps keep the `unsigned` load
arithmetic from wrapping (`StepFits`). 
-/

namespace WebKit.Wtf.HashTable

open OpenAddressing

/-! ## Copies -/

/-- Smearing: if bit `i` says whether one of the bits `i`, …, `i + s - 1` of `u` is set,
one more step doubles the window. -/
theorem smear_step {u v : BitVec 32} {s : Nat}
    (h : ∀ i, v.getLsbD i = true ↔ ∃ j < s, u.getLsbD (i + j) = true) (i : Nat) :
    (v ||| (v >>> s)).getLsbD i = true ↔ ∃ j < 2 * s, u.getLsbD (i + j) = true := by
  rw [BitVec.getLsbD_or, BitVec.getLsbD_ushiftRight, Bool.or_eq_true, h, h]
  constructor
  · rintro (⟨j, hj, hb⟩ | ⟨j, hj, hb⟩)
    · exact ⟨j, by omega, hb⟩
    · exact ⟨s + j, by omega, by rw [← hb]; congr 1; omega⟩
  · rintro ⟨j, hj, hb⟩
    rcases lt_or_ge j s with hlt | hge
    · exact .inl ⟨j, hlt, hb⟩
    · exact .inr ⟨j - s, by omega, by rw [← hb]; congr 1; omega⟩

theorem testBit_size_sub_one {m : Nat} (h : 0 < m) : m.testBit (m.size - 1) = true := by
  have hp := Nat.size_pos.mpr h
  have hle : 2 ^ (m.size - 1) ≤ m := Nat.lt_size.mp (by omega)
  have hlt : m < 2 * 2 ^ (m.size - 1) := by
    have := Nat.lt_size_self m
    rwa [show m.size = m.size - 1 + 1 by omega, pow_succ, mul_comm] at this
  have hdiv : m / 2 ^ (m.size - 1) = 1 := Nat.div_eq_of_lt_le (by omega) (by omega)
  rw [Nat.testBit_eq_decide_div_mod_eq, hdiv]
  rfl

variable {n : Nat}

/-- `roundUpToPowerOfTwo` gives the least power of two that is not below `n`. -/
theorem roundUpToPowerOfTwo_spec (h1 : 1 ≤ n) (hn : n ≤ 2 ^ 31) :
    ∃ c, (roundUpToPowerOfTwo (BitVec.ofNat 32 n)).toNat = 2 ^ c ∧ n ≤ 2 ^ c ∧ 2 ^ c < 2 * n := by
  have hu : (BitVec.ofNat 32 n - 1).toNat = n - 1 := by
    rw [BitVec.toNat_sub, BitVec.toNat_ofNat, show (1 : BitVec 32).toNat = 1 from rfl]
    omega
  have hsz : (n - 1).size ≤ 31 := Nat.size_le.mpr (by omega)
  refine ⟨(n - 1).size, ?_, ?_, ?_⟩
  · unfold roundUpToPowerOfTwo
    generalize BitVec.ofNat 32 n - 1 = u at hu
    have h0 : ∀ i, u.getLsbD i = true ↔ ∃ j < 1, u.getLsbD (i + j) = true := by simp
    have h5 := smear_step (smear_step (smear_step (smear_step (smear_step h0))))
    simp only [Nat.reduceMul] at h5 ⊢
    generalize (_ ||| _ : BitVec 32) = v at h5 ⊢
    -- all bits up to the highest one of `n - 1` are set
    have hv : v.toNat = 2 ^ (n - 1).size - 1 := by
      refine Nat.eq_of_testBit_eq fun i => ?_
      rw [Nat.testBit_two_pow_sub_one, Bool.eq_iff_iff, decide_eq_true_eq]
      refine (h5 i).trans ⟨?_, fun hi => ?_⟩
      · rintro ⟨j, -, hb⟩
        rw [BitVec.getLsbD, hu] at hb
        have := Nat.lt_size.mpr (Nat.ge_two_pow_of_testBit hb)
        omega
      · refine ⟨(n - 1).size - 1 - i, by omega, ?_⟩
        rw [BitVec.getLsbD, hu, show i + ((n - 1).size - 1 - i) = (n - 1).size - 1 by omega]
        exact testBit_size_sub_one (Nat.size_pos.mp (by omega))
    have hpow : 2 ^ (n - 1).size ≤ 2 ^ 31 := Nat.pow_le_pow_right (by decide) hsz
    have hp : 0 < 2 ^ (n - 1).size := Nat.two_pow_pos _
    rw [BitVec.toNat_add, hv, show (1 : BitVec 32).toNat = 1 from rfl]
    omega
  · have := Nat.lt_size_self (n - 1)
    omega
  · rcases Nat.eq_zero_or_pos (n - 1) with h0 | h0
    · rw [h0]
      simp
      omega
    have hle : 2 ^ ((n - 1).size - 1) ≤ n - 1 := Nat.lt_size.mp (by
      have := Nat.size_pos.mpr h0
      omega)
    have hp := Nat.size_pos.mpr h0
    rw [show (n - 1).size = (n - 1).size - 1 + 1 by omega, pow_succ]
    omega

variable {κ ν : Type} [DecidableEq κ] {tr : KeyTraits κ}

omit [DecidableEq κ] in
theorem copyTableSize_spec (tr : KeyTraits κ) (h1 : 1 ≤ n) (hn : n ≤ 2 ^ 29) :
    PowSize (copyTableSize tr n) ∧ tr.minimumTableSize ≤ copyTableSize tr n ∧
      2 * n < copyTableSize tr n := by
  obtain ⟨c, hrnd, hle, hlt⟩ := roundUpToPowerOfTwo_spec h1 (by omega)
  obtain ⟨m, hm1, hm30, hm⟩ := tr.minimumTableSize_pow
  have hc : c ≤ 29 := by
    have : 2 ^ c < 2 ^ 30 := by omega
    have := (Nat.pow_lt_pow_iff_right (by decide : 1 < 2)).mp this
    omega
  have hmax : ∀ e ≤ 31, PowSize (max (2 ^ e) tr.minimumTableSize) := by
    intro e he
    rw [hm]
    rcases Nat.le_total (2 ^ e) (2 ^ m) with h | h
    · exact ⟨m, by omega, by rw [max_eq_right h]⟩
    · exact ⟨e, he, by rw [max_eq_left h]⟩
  have hdbl : 2 ^ c * 2 = 2 ^ (c + 1) := (pow_succ 2 c).symm
  have hfr : 2 ^ c * 2 * 2 = 2 ^ (c + 2) := by rw [pow_succ, pow_succ]
  rw [copyTableSize, hrnd, unsigned_of_lt (by omega : 2 ^ c * 2 < 2 ^ 32)]
  split_ifs with habv
  · rw [unsigned_of_lt (by omega), hfr]
    exact ⟨hmax (c + 2) (by omega), le_max_right _ _, lt_of_lt_of_le (by omega) (le_max_left _ _)⟩
  · rw [hdbl]
    refine ⟨hmax (c + 1) (by omega), le_max_right _ _, lt_of_lt_of_le ?_ (le_max_left _ _)⟩
    -- a power of two is always above the threshold, also where both products wrap
    have hne : n ≠ 2 ^ c := by
      intro hne
      apply habv
      rcases lt_or_ge c 29 with hlt29 | hge
      · have : 2 ^ c ≤ 2 ^ 28 := Nat.pow_le_pow_right (by decide) (by omega)
        rw [unsigned_of_lt (by omega), unsigned_of_lt (by omega)]
        omega
      · rw [hne, show c = 29 by omega]
        decide
    omega

variable {t : HashTable κ ν}

theorem copy_spec (h : Inv tr t) (hft : t.keyCount ≤ 2 ^ 29) :
    ∃ t', t.copy tr = some t' ∧ Inv tr t' ∧ ∀ k v, Stored t'.table k v ↔ Stored t.table k v := by
  by_cases h0 : t.size = 0
  · refine ⟨{}, by simp [copy, h0], Inv.empty, fun k v => ?_⟩
    have hno : ¬ Stored t.table k v := fun hs => by
      have : 0 < liveCount t.table := List.countP_pos_iff.mpr ⟨_, hs, rfl⟩
      rw [← h.keyCount] at this
      exact absurd h0 this.ne'
    simp [Stored] at hno ⊢
    exact hno
  · obtain ⟨hpow, hmin, hrm⟩ := copyTableSize_spec tr (n := t.size)
      (Nat.one_le_iff_ne_zero.mpr h0) hft
    have hk : t.size = liveCount t.table := h.keyCount
    obtain ⟨tbl, heq, hfld⟩ := copyAll_spec hpow t.table
      ⟨List.replicate (copyTableSize tr t.size) .empty, t.size, 0⟩ (Filling.fresh tr _) h.unique
      (fun k _ w _ => not_stored_replicate _ k w) (by rw [liveCount_replicate, ← hk]; omega)
    refine ⟨⟨tbl, t.size, 0⟩, ?_, hfld.inv h.keyCount hpow hmin hrm⟩
    rw [copy, if_neg h0]
    exact heq

/-! ## Runs -/

inductive Op (κ ν : Type) where
  | add (key : κ) (value : ν)
  | remove (key : κ)
  | removeIf (functor : κ → ν → Bool)
  | clear
  | copy

def step (tr : KeyTraits κ) (t : HashTable κ ν) : Op κ ν → Option (HashTable κ ν)
  | .add key value => (t.add tr key value).map (·.1)
  | .remove key => t.remove tr key
  | .removeIf functor => t.removeIf tr functor
  | .clear => some t.clear
  | .copy => t.copy tr

def run (tr : KeyTraits κ) (t : HashTable κ ν) : List (Op κ ν) → Option (HashTable κ ν)
  | [] => some t
  | op :: ops => (t.step tr op).bind fun t' => run tr t' ops

/-- The operations on a finite map, given as a function. `add` does not replace a value. -/
def Op.apply (m : κ → Option ν) : Op κ ν → κ → Option ν
  | .add key value => fun k => if k = key then some ((m key).getD value) else m k
  | .remove key => fun k => if k = key then none else m k
  | .removeIf functor => fun k => (m k).filter fun v => !functor k v
  | .clear => fun _ => none
  | .copy => m

/-- The step starts in a table on which no `unsigned` product of its load tests wraps. -/
def StepFits (t : HashTable κ ν) : Op κ ν → Prop
  | .add _ _ => t.tableSize < 2 ^ 31 ∨ t.keyCount + t.deletedCount + 1 < 2 ^ 30
  | .remove _ => (t.keyCount - 1) * 6 < 2 ^ 32
  | .removeIf _ => t.keyCount * 6 < 2 ^ 32
  | .clear => True
  | .copy => t.keyCount ≤ 2 ^ 29

instance (t : HashTable κ ν) (op : Op κ ν) : Decidable (t.StepFits op) := by
  cases op <;> unfold StepFits <;> infer_instance

def RunFits (tr : KeyTraits κ) (t : HashTable κ ν) : List (Op κ ν) → Prop
  | [] => True
  | op :: ops => t.StepFits op ∧
      match t.step tr op with
      | some t' => RunFits tr t' ops
      | none => True

/-- What the table and the map say of each other. -/
structure Refines (tr : KeyTraits κ) (t : HashTable κ ν) (m : κ → Option ν) : Prop where
  find : ∀ key, ∃ p, t.find tr key = some p ∧ p.isSome = (m key).isSome ∧
    p.bind t.valueAt = m key
  contains : ∀ key, t.contains tr key = some (m key).isSome
  add : ∀ key value, t.StepFits (.add key value) →
    ∃ t' p, t.add tr key value = some (t', some p, (m key).isNone) ∧
      t'.valueAt p = some ((m key).getD value)
  oneBucket : Unique t.table
  size : t.size = {key | (m key).isSome}.ncard
  keyCount : t.keyCount = liveCount t.table
  deletedCount : t.deletedCount = deadCount t.table
  tableSize : t.tableSize = 0 ∨ ((∃ w, t.tableSize = 2 ^ w) ∧ tr.minimumTableSize ≤ t.tableSize ∧
    2 * (liveCount t.table + deadCount t.table) < t.tableSize)
  probes : t.tableSize ≠ 0 → ∀ key, (t.lookup tr key).isSome ∧
    (t.lookupForWriting tr key).isSome ∧ (t.uniquePosition tr key).isSome

/-- The map holds what is stored. -/
def Matches (t : HashTable κ ν) (m : κ → Option ν) : Prop :=
  ∀ k v, m k = some v ↔ Stored t.table k v

variable {m : κ → Option ν}

omit [DecidableEq κ] in
theorem Matches.eq_none_iff (h : Matches t m) (k : κ) : m k = none ↔ ∀ v, ¬ Stored t.table k v := by
  constructor
  · intro hk v hs
    rw [(h k v).mpr hs] at hk
    cases hk
  · intro hno
    cases hk : m k with
    | none => rfl
    | some v => exact (hno v ((h k v).mp hk)).elim

variable {key : κ}

omit [DecidableEq κ] in
theorem Matches.of_live (h : Matches t m) {p : Nat} {w : ν}
    (hp : t.table[p]? = some (.live key w)) :
    m key = some w ∧ t.valueAt p = some w :=
  ⟨(h key w).mpr (List.mem_of_getElem? hp), by rw [valueAt, hp]⟩

omit [DecidableEq κ] in
theorem Added.matches [DecidableEq κ] {t' : HashTable κ ν} {val : ν} {e : Option Nat}
    {new : Bool} (h : Added tr t key val t' e new) (hm : Matches t m) :
    Matches t' (Op.apply m (.add key val)) ∧ new = (m key).isNone := by
  have hnew : new = (m key).isNone := by
    rw [Bool.eq_iff_iff, h.new_iff, Option.isNone_iff_eq_none, hm.eq_none_iff]
  refine ⟨fun k w => ?_, hnew⟩
  rw [h.stored, ← hm k w, hnew]
  simp only [Op.apply]
  by_cases hk : k = key
  · subst hk
    cases m k <;> simp [eq_comm]
  · simp [hk]

/-- **One step** of a run. -/
theorem step_spec (h : Inv tr t) (hm : Matches t m) (op : Op κ ν) (hft : t.StepFits op) :
    ∃ t', t.step tr op = some t' ∧ Inv tr t' ∧ Matches t' (op.apply m) := by
  cases op with
  | add key val =>
    obtain ⟨t', e, new, heq, ha⟩ := add_spec h hft key val
    exact ⟨t', by simp [step, heq], ha.inv, (ha.matches hm).1⟩
  | remove key =>
    obtain ⟨t', heq, hi, hst⟩ := remove_spec h key hft
    refine ⟨t', heq, hi, fun k v => ?_⟩
    rw [hst, ← hm k v, Op.apply]
    by_cases hk : k = key <;> simp [hk]
  | removeIf functor =>
    obtain ⟨t', heq, hi, hst⟩ := removeIf_spec h functor hft
    refine ⟨t', heq, hi, fun k v => ?_⟩
    rw [hst, ← hm k v, Op.apply, Option.filter_eq_some_iff]
    simp
  | clear => exact ⟨{}, rfl, Inv.empty, fun k v => by simp [Op.apply, Stored]⟩
  | copy =>
    obtain ⟨t', heq, hi, hst⟩ := copy_spec h hft
    exact ⟨t', heq, hi, fun k v => by rw [hst, ← hm k v, Op.apply]⟩

/-- **A whole run.** -/
theorem run_spec (h : Inv tr t) (hm : Matches t m) (ops : List (Op κ ν)) (hft : RunFits tr t ops) :
    ∃ t', t.run tr ops = some t' ∧ Inv tr t' ∧ Matches t' (ops.foldl Op.apply m) := by
  induction ops generalizing t m with
  | nil => exact ⟨t, rfl, h, hm⟩
  | cons op ops ih =>
    obtain ⟨hst, hrest⟩ := hft
    obtain ⟨t1, heq, hi, hm1⟩ := step_spec h hm op hst
    rw [heq] at hrest
    obtain ⟨t', hr, hi', hm'⟩ := ih hi hm1 hrest
    exact ⟨t', by rw [run, heq]; exact hr, hi', hm'⟩

/-- A table with the invariant answers as the map that matches it. -/
theorem Inv.refines (h : Inv tr t) (hm : Matches t m) : Refines tr t m := by
  have hset : {key | (m key).isSome} = {k | ∃ v, Stored t.table k v} := by
    ext k
    simp only [Set.mem_ofPred_eq, Option.isSome_iff_exists, hm k]
  have hlku : t.table ≠ [] → ∀ key, ∃ p, t.lookup tr key = some p ∧
      p.isSome = (m key).isSome ∧ p.bind t.valueAt = m key := by
    intro ht key
    rcases (h.searchable ht).lookup key with ⟨p, v, hlk, hp⟩ | ⟨hlk, hno⟩
    · obtain ⟨hmk, hv⟩ := hm.of_live hp
      exact ⟨some p, hlk, by simp [hmk], by rw [hmk]; exact hv⟩
    · rw [(hm.eq_none_iff key).mpr hno]
      exact ⟨none, hlk, rfl, rfl⟩
  have hnn : t.table = [] → ∀ key, m key = none := fun ht key =>
    (hm.eq_none_iff key).mpr fun v => by simp [Stored, ht]
  refine ⟨fun key => ?_, fun key => ?_, fun key val hft => ?_, h.unique, ?_, h.keyCount,
    h.deletedCount, ?_, fun hsz key => ?_⟩
  · by_cases ht : t.table = []
    · exact ⟨none, by simp [find, ht], by simp [hnn ht], by simp [hnn ht]⟩
    · rw [find, if_neg ht]
      exact hlku ht key
  · by_cases ht : t.table = []
    · simp [contains, ht, hnn ht]
    · obtain ⟨p, hp, hso, -⟩ := hlku ht key
      rw [contains, if_neg ht, hp, Option.map_some, hso]
  · obtain ⟨t', e, new, heq, ha⟩ := add_spec h hft key val
    obtain ⟨hm', hnew⟩ := ha.matches hm
    obtain ⟨p, w, rfl, hp⟩ := ha.at_entry
    obtain ⟨hmk, hv⟩ := hm'.of_live hp
    refine ⟨t', p, by rw [heq, hnew], ?_⟩
    rw [hv, ← hmk]
    simp [Op.apply]
  · rw [hset, ncard_stored h.unique]
    exact h.keyCount
  · rcases h.size with hnil | ⟨⟨w, -, hw⟩, hmin⟩
    · exact .inl (by rw [HashTable.tableSize, hnil, List.length_nil])
    by_cases ht : t.table = []
    · exact .inl (by rw [HashTable.tableSize, ht, List.length_nil])
    · refine .inr ⟨⟨w, hw⟩, hmin, ?_⟩
      rw [← h.keyCount, ← h.deletedCount]
      exact h.load.resolve_left ht
  · have ht : t.table ≠ [] := fun hnil => hsz (by rw [HashTable.tableSize, hnil, List.length_nil])
    have hs := h.searchable ht
    refine ⟨?_, ?_, ?_⟩
    · obtain ⟨p, hp, -⟩ := hlku ht key
      rw [hp]; rfl
    · rcases hs.lookupForWriting key with ⟨p, v, hp, -⟩ | ⟨-, p, c, hp, -⟩
      · rw [hp]; rfl
      · rw [hp]; rfl
    · obtain ⟨p, hp, -⟩ := hs.uniquePosition key
      rw [hp]; rfl

/-- **Refinement.** In every run from the empty table whose steps fit, the table refines
the finite map on which the same operations have run. -/
theorem hashTable_refines (tr : KeyTraits κ) (ops : List (Op κ ν)) (hfits : RunFits tr {} ops) :
    ∃ t, run tr {} ops = some t ∧ Refines tr t (ops.foldl Op.apply fun _ => none) := by
  obtain ⟨t, hrun, hinv, hm⟩ := run_spec (m := fun _ => none) Inv.empty
    (fun k v => by simp [Stored]) ops hfits
  exact ⟨t, hrun, hinv.refines hm⟩

/-- Numbers as keys, with the usual minimum table size. -/
def natTraits : KeyTraits Nat := ⟨fun n => BitVec.ofNat 32 n, 8, 3, by decide, by decide, rfl⟩

instance decidableRunFits (tr : KeyTraits κ) (t : HashTable κ ν) :
    (ops : List (Op κ ν)) → Decidable (RunFits tr t ops)
  | [] => .isTrue trivial
  | op :: ops =>
    match hstep : t.step tr op with
    | some t' =>
      have : Decidable (RunFits tr t' ops) := decidableRunFits tr t' ops
      decidable_of_iff (t.StepFits op ∧ RunFits tr t' ops) (by rw [RunFits, hstep])
    | none => decidable_of_iff (t.StepFits op) (by rw [RunFits, hstep]; simp)

/-- A run with a removal, a reused key and a copy. -/
theorem hashTable_refines_short :
    RunFits natTraits ({} : HashTable Nat Nat) [.add 1 10, .add 9 20, .remove 1, .add 9 30, .copy] ∧
      ∃ t, run natTraits {} [.add 1 10, .add 9 20, .remove 1, .add 9 30, .copy] = some t ∧
        Refines natTraits t (List.foldl Op.apply (fun _ => none)
          [.add 1 10, .add 9 20, .remove 1, .add 9 30, .copy]) :=
  ⟨by decide, hashTable_refines natTraits _ (by decide)⟩

/-! ## Where the load arithmetic wraps -/

theorem reinsertAll_eq_none (ent : Option Nat) {rest : List (Bucket κ ν)}
    (hrest : 0 < liveCount rest) (i : Nat) (t : HashTable κ ν) (ht : t.table = [])
    (ne : Option Nat) : reinsertAll tr ent rest i t ne = none := by
  induction rest generalizing i ne with
  | nil => exact absurd hrest (lt_irrefl 0)
  | cons b rest ih =>
    cases b with
    | empty | deleted => exact ih (by rwa [liveCount_cons_of_not_live rfl] at hrest) _ _
    | live key v =>
      have hlk : t.lookupForWriting tr key = none := by
        simp [lookupForWriting, tableSize, ht, writingLoop]
      simp [reinsertAll, reinsert, hlk]

/-- The `add` of a new key to a full table of `2 ^ 31` buckets computes the new table size zero, and
reads outside the new table. -/
theorem add_eq_none (h : Inv tr t) (hkey : t.keyCount = 2 ^ 30 - 1) (hdd : t.deletedCount = 0)
    (hnew : ∀ v, ¬ Stored t.table key v) (val : ν) :
    t.add tr key val = none := by
  have ht : t.table ≠ [] := by
    intro hnil
    rw [h.keyCount, hnil] at hkey
    cases hkey
  have hld := h.load.resolve_left ht
  obtain ⟨w, -, hw31, hpow, -, hmax⟩ := h.sizes ht
  have hsz : t.tableSize = 2 ^ 31 := by
    have hlt : 2 ^ 30 < 2 ^ w := by rw [← hpow]; omega
    have := (Nat.pow_lt_pow_iff_right (by decide : 1 < 2)).mp hlt
    rw [hpow, show w = 31 by omega]
  rcases (h.searchable ht).lookupForWriting key with
    ⟨p, v, -, hp⟩ | ⟨-, p, c, hlk, hp, hc, hmet⟩
  · exact (hnew v (List.mem_of_getElem? hp)).elim
  obtain ⟨hk1, -, hd1, -, -, hs1⟩ := writeEntry_spec h val hp hc hmet hnew
  have hkey1 : (t.writeEntry p key val).keyCount = 2 ^ 30 := by
    show t.keyCount + 1 = _
    omega
  have hdd1 : (t.writeEntry p key val).deletedCount = 0 := by omega
  have hsz1 : (t.writeEntry p key val).tableSize = 2 ^ 31 := hs1.trans hsz
  generalize ht1 : t.writeEntry p key val = t1 at *
  have hexp : t1.shouldExpand = true := by
    rw [shouldExpand_iff, hkey1, hdd1, hsz1]
    decide
  have hpla : t1.mustRehashInPlace = false := by
    rw [mustRehashInPlace, hkey1, hsz1]
    decide
  have hxpn : t1.expand tr (some p) = none := by
    rw [expand, hpla, hsz1, if_neg (by decide), if_neg Bool.false_ne_true,
      show unsigned (2 ^ 31 * 2) = 0 by decide, rehash,
      reinsertAll_eq_none _ (by rw [← hk1, hkey1]; decide) _ _ rfl]
    rfl
  simp [add, ht, hlk, ht1, hexp, hxpn]

/-- Adding `0`, …, `n - 1`. -/
def adds (n : Nat) : List (Op Nat Nat) := (List.range n).map fun i => .add i 0

theorem adds_succ (n : Nat) : adds (n + 1) = adds n ++ [.add n 0] := by
  simp [adds, List.range_succ]

theorem run_append (t : HashTable κ ν) (ops ops' : List (Op κ ν)) :
    t.run tr (ops ++ ops') = (t.run tr ops).bind fun t' => t'.run tr ops' := by
  induction ops generalizing t with
  | nil => rfl
  | cons op ops ih =>
    rw [List.cons_append, run, run]
    cases t.step tr op with
    | none => rfl
    | some t' => exact ih t'

/-- Up to `2 ^ 30 - 1` keys all is well. -/
theorem run_adds (hn : n < 2 ^ 30) :
    ∃ t, run natTraits {} (adds n) = some t ∧ Inv natTraits t ∧ t.keyCount = n ∧
      t.deletedCount = 0 ∧ ∀ k v, Stored t.table k v → k < n := by
  induction n with
  | zero => exact ⟨{}, rfl, Inv.empty, rfl, rfl, by simp [Stored]⟩
  | succ n ih =>
    obtain ⟨t, hr, hi, hk, hdd, hlt⟩ := ih (by omega)
    obtain ⟨t', e, new, heq, ha⟩ := add_spec hi (.inr (by omega)) n 0
    have hnew : new = true := ha.new_iff.mpr fun v hs => absurd (hlt n v hs) (lt_irrefl n)
    have hdd' := ha.dead_le
    refine ⟨t', ?_, ha.inv, ?_, by omega, fun k v hs => ?_⟩
    · rw [adds_succ, run_append, hr]
      simp [run, step, heq]
    · rw [ha.count, hk, hnew]; rfl
    · rcases (ha.stored k v).mp hs with ⟨-, rfl, -⟩ | hs
      · exact Nat.lt_succ_self k
      · exact Nat.lt_succ_of_lt (hlt k v hs)

/-- After `2 ^ 30` adds of different keys there is no table left to refine anything. -/
theorem hashTable_not_refines :
    ¬ ∃ t, run natTraits {} (adds (2 ^ 30)) = some t ∧
      Refines natTraits t ((adds (2 ^ 30)).foldl Op.apply fun _ => none) := by
  rintro ⟨t, hrun, -⟩
  obtain ⟨t1, hrun1, hinv, hkey, hdead, hlt⟩ := run_adds (n := 2 ^ 30 - 1) (by decide)
  rw [show (2 : Nat) ^ 30 = 2 ^ 30 - 1 + 1 by decide, adds_succ, run_append, hrun1] at hrun
  have hnone := add_eq_none hinv hkey hdead
    (fun v hs => absurd (hlt _ v hs) (lt_irrefl (2 ^ 30 - 1))) 0
  rw [Option.bind_some, run, step, hnone] at hrun
  cases hrun

end WebKit.Wtf.HashTable
