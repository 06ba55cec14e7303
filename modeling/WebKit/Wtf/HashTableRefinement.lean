import WebKit.Wtf.HashTableProbe

/-!
# `HashTable` refines a finite map

The invariant `Inv` is the load bound together with what the probe loops need. Every operation
keeps it, as long as the `unsigned` products in the load tests do not wrap, and changes the entries
as the operation on finite maps does.
-/

namespace WebKit.Wtf.HashTable

open OpenAddressing List Bool

variable {κ ν : Type} {tr : KeyTraits κ}

/-! ## Filling a new table -/

/-- A table under construction: no bucket is deleted. -/
structure Filling (tr : KeyTraits κ) (n : Nat) (table : List (Bucket κ ν)) : Prop where
  length : table.length = n
  dead : deadCount table = 0
  placed : Placed (probeSeq tr n) table
  unique : Unique table

open Bucket

theorem Filling.fresh (tr : KeyTraits κ) (n : Nat) :
    Filling tr n (List.replicate n (empty : Bucket κ ν)) :=
  ⟨length_replicate, deadCount_replicate n, placed_replicate _ n, unique_replicate n⟩

variable {n p : Nat} {table rest : List (Bucket κ ν)} {key : κ} {b : Bucket κ ν} {v : ν}
  {t : HashTable κ ν}

theorem Filling.searchable (h : Filling tr n table) (hn : PowSize n) (hlt : liveCount table < n) :
    Searchable tr table := by
  have hl := h.length
  refine ⟨hl ▸ hn, empty_mem_of_lt ?_, hl ▸ h.placed, h.unique⟩
  rw [h.dead, hl]
  exact hlt

theorem Filling.fill (h : Filling tr n table) (hp : table[p]? = some b) (hb : b.isLive = false)
    (hmet : Met table (probeSeq tr n key) p) (hnew : ∀ v, ¬ Stored table key v) (v : ν) :
    Filling tr n (table.set p (.live key v)) ∧
      liveCount (table.set p (.live key v)) = liveCount table + 1 ∧
      ∀ k w, Stored (table.set p (.live key v)) k w ↔ (k = key ∧ w = v) ∨ Stored table k w := by
  refine ⟨⟨?_, ?_, h.placed.fill hmet v, h.unique.fill hnew v⟩, liveCount_fill hp hb key v,
    fun k w => stored_fill_iff hp hb key k v w⟩
  · rw [length_set, h.length]
  · rw [deadCount_fill hp, h.dead, Nat.zero_sub]

/-- The entries of `rest` are still to come. -/
def Pending (table rest : List (Bucket κ ν)) : Prop :=
  ∀ k v w, Stored rest k v → ¬ Stored table k w

theorem exists_live (h : b.isLive = true) : ∃ key v, b = .live key v := by
  cases b with
  | live key v => exact ⟨key, v, rfl⟩
  | empty | deleted => cases h

theorem Pending.head (h : Pending table (.live key v :: rest)) (w : ν) : ¬ Stored table key w :=
  h key v w (stored_cons_live.mpr (.inl ⟨rfl, rfl⟩))

theorem Pending.skip (h : Pending table (b :: rest)) (hb : b.isLive = false) : Pending table rest :=
  fun k v w hs => h k v w ((stored_cons_of_not_live hb).mpr hs)

theorem Pending.fill {table' : List (Bucket κ ν)} (h : Pending table (.live key v :: rest))
    (hrest : Unique (.live key v :: rest))
    (hstd : ∀ k w, Stored table' k w ↔ (k = key ∧ w = v) ∨ Stored table k w) :
    Pending table' rest := by
  intro k w w' hs hs'
  rcases (hstd k w').mp hs' with ⟨rfl, rfl⟩ | hs'
  · exact hrest.head_not_stored w hs
  · exact h k w w' (stored_cons_live.mpr (.inr hs)) hs'

/-- The table that a filling loop leaves behind. -/
structure Filled (tr : KeyTraits κ) (n : Nat) (table rest result : List (Bucket κ ν)) :
    Prop where
  filling : Filling tr n result
  count : liveCount result = liveCount table + liveCount rest
  stored : ∀ k v, Stored result k v ↔ Stored table k v ∨ Stored rest k v
  kept : ∀ (p : Nat) k v, table[p]? = some (.live k v) → result[p]? = some (.live k v)

theorem Filled.skip {result : List (Bucket κ ν)} (hb : b.isLive = false)
    (h : Filled tr n table rest result) :
    Filled tr n table (b :: rest) result := by
  refine ⟨h.filling, ?_, fun k v => ?_, h.kept⟩
  · rw [h.count, liveCount_cons_of_not_live hb]
  · rw [h.stored, stored_cons_of_not_live hb]

theorem Filled.cons {result : List (Bucket κ ν)} (hp : table[p]? = some b) (hb : b.isLive = false)
    (h : Filled tr n (table.set p (.live key v)) rest result) :
    Filled tr n table (.live key v :: rest) result := by
  refine ⟨h.filling, ?_, fun k w => ?_, fun q k w hq => h.kept q k w ?_⟩
  · rw [h.count, liveCount_fill hp hb, liveCount_cons_live]
    omega
  · rw [h.stored, stored_fill_iff hp hb, stored_cons_live]
    tauto
  · rw [getElem?_set, if_neg]
    · exact hq
    · rintro rfl
      rw [hp, Option.some_inj] at hq
      subst hq
      exact false_ne_true hb.symm

variable [DecidableEq κ]

/-- **Rehashing loop.** Reinserting distinct new entries succeeds while there is room. -/
theorem reinsertAll_spec (hn : PowSize n) (ent : Option Nat) (rest : List (Bucket κ ν)) (i : Nat)
    (t : HashTable κ ν) (ne : Option Nat) (hfl : Filling tr n t.table) (hrest : Unique rest)
    (hpn : Pending t.table rest) (hrm : liveCount t.table + liveCount rest < n) :
    ∃ table e, reinsertAll tr ent rest i t ne = some ({ t with table := table }, e) ∧
      Filled tr n t.table rest table ∧
      (∀ q k v, ent = some (i + q) → rest[q]? = some (.live k v) →
        ∃ p, e = some p ∧ table[p]? = some (.live k v)) ∧
      ((∀ q, ent ≠ some (i + q)) → e = ne) := by
  induction rest generalizing i t ne with
  | nil =>
    exact ⟨t.table, ne, rfl, ⟨hfl, by simp [liveCount], by simp [Stored],
      fun _ _ _ h => h⟩, by simp, fun _ => rfl⟩
  | cons b rest ih =>
    cases hb : b.isLive with
    | false =>
      rw [liveCount_cons_of_not_live hb] at hrm
      obtain ⟨table, e, heq, hfld, hent, hoth⟩ := ih (i + 1) t ne hfl hrest.tail (hpn.skip hb) hrm
      refine ⟨table, e, ?_, hfld.skip hb, fun q k v hq hg => ?_, fun hne => ?_⟩
      · cases b with
        | live key v => cases hb
        | empty | deleted => exact heq
      · cases q with
        | zero =>
          obtain rfl : b = .live k v := by simpa using hg
          cases hb
        | succ q => exact hent q k v (by rw [hq]; congr 1; omega) hg
      · exact hoth fun q hq => hne (q + 1) (by rw [hq]; congr 1; omega)
    | true =>
      obtain ⟨key, v, rfl⟩ := exists_live hb
      rw [liveCount_cons_live] at hrm
      have hnew := hpn.head
      -- the search for the key ends at a bucket to write to
      rcases (hfl.searchable hn (by omega)).lookupForWriting key with
        ⟨p, w, -, hp⟩ | ⟨-, p, c, hlk, hp, hc, hmet⟩
      · exact (hnew w (mem_of_getElem? hp)).elim
      rw [hfl.length] at hmet
      obtain ⟨hfl', hcnt, hstd⟩ := hfl.fill hp hc hmet hnew v
      obtain ⟨table, e, heq, hfld, hent, hoth⟩ :=
        ih (i + 1) { t with table := t.table.set p (.live key v) }
          (if ent = some i then some p else ne) hfl' hrest.tail (hpn.fill hrest hstd)
          (by rw [hcnt]; omega)
      refine ⟨table, e, ?_, hfld.cons hp hc, fun q k w hq hg => ?_, fun hne => ?_⟩
      · simp only [reinsertAll, reinsert, hlk]
        exact heq
      · cases q with
        | zero =>
          -- this is the entry to follow; no later one is
          obtain ⟨rfl, rfl⟩ : key = k ∧ v = w := by simpa using hg
          rw [add_zero] at hq
          have he := hoth fun q hq' => by
            rw [hq, Option.some_inj] at hq'
            omega
          rw [if_pos hq] at he
          refine ⟨p, he, hfld.kept p key v ?_⟩
          have hlt := (List.getElem?_eq_some_iff.mp hp).1
          simp [hlt]
        | succ q => exact hent q k w (by rw [hq]; congr 1; omega) hg
      · have he := hoth fun q hq => hne (q + 1) (by rw [hq]; congr 1; omega)
        rwa [if_neg (by simpa using hne 0)] at he

/-- **Copying loop.** Adding pairwise distinct new entries succeeds while there is room. -/
theorem copyAll_spec (hn : PowSize n) (rest : List (Bucket κ ν)) (t : HashTable κ ν)
    (hfl : Filling tr n t.table) (hrest : Unique rest) (hpn : Pending t.table rest)
    (hrm : liveCount t.table + liveCount rest < n) :
    ∃ table, copyAll tr rest t = some { t with table := table } ∧
      Filled tr n t.table rest table := by
  induction rest generalizing t with
  | nil =>
    exact ⟨t.table, rfl, hfl, by simp [liveCount], by simp [Stored], fun _ _ _ h => h⟩
  | cons b rest ih =>
    cases hb : b.isLive with
    | false =>
      rw [liveCount_cons_of_not_live hb] at hrm
      obtain ⟨table, heq, hfld⟩ := ih t hfl hrest.tail (hpn.skip hb) hrm
      refine ⟨table, ?_, hfld.skip hb⟩
      cases b with
      | live key v => cases hb
      | empty | deleted => exact heq
    | true =>
      obtain ⟨key, v, rfl⟩ := exists_live hb
      rw [liveCount_cons_live] at hrm
      have hnew := hpn.head
      obtain ⟨p, hpos, hp, hmet⟩ := (hfl.searchable hn (by omega)).uniquePosition key
      rw [hfl.length] at hmet
      obtain ⟨hfl', hc, hstd⟩ := hfl.fill hp rfl hmet hnew v
      obtain ⟨table, heq, hfld⟩ := ih { t with table := t.table.set p (.live key v) }
        hfl' hrest.tail (hpn.fill hrest hstd) (by rw [hc]; omega)
      refine ⟨table, ?_, hfld.cons hp rfl⟩
      simp only [copyAll, addUniqueForInitialization, hpos]
      exact heq

/-! ## The invariant -/

structure Inv (tr : KeyTraits κ) (t : HashTable κ ν) : Prop where
  size : t.table = [] ∨ (PowSize t.tableSize ∧ tr.minimumTableSize ≤ t.tableSize)
  load : t.table = [] ∨ 2 * (t.keyCount + t.deletedCount) < t.tableSize
  keyCount : t.keyCount = liveCount t.table
  deletedCount : t.deletedCount = deadCount t.table
  unique : Unique t.table
  placed : Placed (probeSeq tr t.tableSize) t.table

omit [DecidableEq κ] in
theorem Inv.empty : Inv tr ({} : HashTable κ ν) :=
  ⟨.inl rfl, .inl rfl, rfl, rfl, unique_replicate 0, placed_replicate _ 0⟩

omit [DecidableEq κ] in
theorem Inv.searchable (h : Inv tr t) (ht : t.table ≠ []) : Searchable tr t.table := by
  refine ⟨(h.size.resolve_left ht).1, empty_mem_of_lt ?_, h.placed, h.unique⟩
  have hld := h.load.resolve_left ht
  rw [← h.keyCount, ← h.deletedCount]
  unfold tableSize at hld
  omega

omit [DecidableEq κ] in
theorem Filled.inv (h : Filled tr n (List.replicate n .empty) t.table table)
    (hk : t.keyCount = liveCount t.table) (hn : PowSize n) (hmin : tr.minimumTableSize ≤ n)
    (hrm : 2 * t.keyCount < n) :
    Inv tr ⟨table, t.keyCount, 0⟩ ∧ ∀ k v, Stored table k v ↔ Stored t.table k v := by
  have hl : tableSize (⟨table, t.keyCount, 0⟩ : HashTable κ ν) = n := h.filling.length
  refine ⟨⟨.inr ?_, .inr ?_, ?_, h.filling.dead.symm, h.filling.unique, ?_⟩, fun k v => ?_⟩
  · rw [hl]; exact ⟨hn, hmin⟩
  · rw [hl]; exact hrm
  · rw [h.count, liveCount_replicate, zero_add]; exact hk
  · rw [hl]; exact h.filling.placed
  · rw [h.stored]
    exact ⟨fun hs => hs.resolve_left (not_stored_replicate n k v), .inr⟩

/-- What `rehash` makes of a table and of an entry: the entries stay, and no bucket is
deleted. -/
structure Rehashed (tr : KeyTraits κ) (t : HashTable κ ν) (ent : Option Nat) (t' : HashTable κ ν)
    (e : Option Nat) : Prop where
  inv : Inv tr t'
  count : t'.keyCount = t.keyCount
  dead : t'.deletedCount = 0
  stored : ∀ k v, Stored t'.table k v ↔ Stored t.table k v
  entry : ∀ p k v, ent = some p → t.table[p]? = some (.live k v) →
    ∃ q, e = some q ∧ t'.table[q]? = some (.live k v)

/-- **`rehash`** into a table with room. -/
theorem rehash_spec (tr : KeyTraits κ) (hu : Unique t.table) (hk : t.keyCount = liveCount t.table)
    (hn : PowSize n) (hmin : tr.minimumTableSize ≤ n) (hrm : 2 * t.keyCount < n)
    (ent : Option Nat) :
    ∃ t' e, t.rehash tr n ent = some (t', e) ∧ t'.tableSize = n ∧ Rehashed tr t ent t' e := by
  obtain ⟨table, e, heq, hfld, he, -⟩ := reinsertAll_spec hn ent t.table 0
    { t with table := List.replicate n .empty } none (Filling.fresh tr n) hu
    (fun k _ w _ => not_stored_replicate n k w) (by rw [liveCount_replicate, ← hk]; omega)
  obtain ⟨hi, hst⟩ := hfld.inv hk hn hmin hrm
  refine ⟨⟨table, t.keyCount, 0⟩, e, ?_, hfld.filling.length, hi, rfl, rfl, hst, ?_⟩
  · rw [rehash, heq]
    rfl
  · exact fun p k v hp hg => he p k v (by simpa using hp) hg

/-! ## Adding -/

theorem unsigned_of_lt (h : n < 2 ^ 32) : unsigned n = n := Nat.mod_eq_of_lt h

omit [DecidableEq κ] in
theorem shouldExpand_iff (t : HashTable κ ν) :
    t.shouldExpand = true ↔ t.tableSize ≤ unsigned ((t.keyCount + t.deletedCount) * 2) := by
  simp [shouldExpand, maxLoad]

omit [DecidableEq κ] in
theorem shouldShrink_iff (t : HashTable κ ν) :
    t.shouldShrink tr = true ↔
      unsigned (t.keyCount * 6) < t.tableSize ∧ tr.minimumTableSize < t.tableSize := by
  rw [shouldShrink, and_eq_true, decide_eq_true_eq, decide_eq_true_eq]
  rfl

omit [DecidableEq κ] in
theorem Inv.sizes (h : Inv tr t) (ht : t.table ≠ []) :
    ∃ w, 1 ≤ w ∧ w ≤ 31 ∧ t.tableSize = 2 ^ w ∧ t.tableSize % 2 = 0 ∧ t.tableSize ≤ 2 ^ 31 := by
  obtain ⟨⟨w, hw, hsz⟩, hmin⟩ := h.size.resolve_left ht
  obtain ⟨m, hm1, -, hm⟩ := tr.minimumTableSize_pow
  have hmw : m ≤ w := by
    rw [hm, hsz] at hmin
    exact (Nat.pow_le_pow_iff_right (by decide)).mp hmin
  obtain ⟨u, rfl⟩ : ∃ u, w = u + 1 := ⟨w - 1, by omega⟩
  refine ⟨u + 1, by omega, hw, hsz, ?_, ?_⟩
  · rw [hsz, pow_succ, Nat.mul_mod_left]
  · rw [hsz]
    exact Nat.pow_le_pow_right (by decide) hw

/-- **`expand`** of a table that is at most half full. -/
theorem expand_spec (tr : KeyTraits κ) (hu : Unique t.table) (hk : t.keyCount = liveCount t.table)
    {w : Nat} (hw : w ≤ 30) (hsz : t.tableSize = 2 ^ w) (hmin : tr.minimumTableSize ≤ t.tableSize)
    (hld : 2 * t.keyCount ≤ t.tableSize) (ent : Option Nat) :
    ∃ t' e, t.expand tr ent = some (t', e) ∧ Rehashed tr t ent t' e := by
  have hle : t.tableSize ≤ 2 ^ 30 := by
    rw [hsz]
    exact Nat.pow_le_pow_right (by decide) hw
  have hpos : t.tableSize ≠ 0 := by
    rw [hsz]
    exact (Nat.two_pow_pos w).ne'
  have hp : t.mustRehashInPlace = decide (t.keyCount * 6 < t.tableSize * 2) := by
    rw [mustRehashInPlace, minLoad, unsigned_of_lt (by omega), unsigned_of_lt (by omega)]
  rw [expand, if_neg hpos, hp, unsigned_of_lt (by omega)]
  by_cases hin : t.keyCount * 6 < t.tableSize * 2
  · rw [decide_eq_true hin, if_pos rfl]
    obtain ⟨t', e, heq, -, hre⟩ := rehash_spec tr hu hk ⟨w, by omega, hsz⟩ hmin (by omega) ent
    exact ⟨t', e, heq, hre⟩
  · rw [decide_eq_false hin, if_neg Bool.false_ne_true]
    have hpow : PowSize (t.tableSize * 2) := ⟨w + 1, by omega, by rw [hsz, pow_succ]⟩
    obtain ⟨t', e, heq, -, hre⟩ := rehash_spec tr hu hk hpow (by omega) (by omega) ent
    exact ⟨t', e, heq, hre⟩

structure Added (tr : KeyTraits κ) (t : HashTable κ ν) (key : κ) (value : ν)
    (t' : HashTable κ ν) (entry : Option Nat) (isNewEntry : Bool) : Prop where
  inv : Inv tr t'
  new_iff : isNewEntry = true ↔ ∀ w, ¬ Stored t.table key w
  stored : ∀ k w, Stored t'.table k w ↔
    (isNewEntry = true ∧ k = key ∧ w = value) ∨ Stored t.table k w
  at_entry : ∃ p w, entry = some p ∧ t'.table[p]? = some (.live key w)
  count : t'.keyCount = t.keyCount + isNewEntry.toNat
  dead_le : t'.deletedCount ≤ t.deletedCount

omit [DecidableEq κ] in
theorem writeEntry_spec (h : Inv tr t) (val : ν) {c : Bucket κ ν} (hp : t.table[p]? = some c)
    (hc : c.isLive = false) (hmet : Met t.table (probeSeq tr t.table.length key) p)
    (hnew : ∀ w, ¬ Stored t.table key w) :
    let t' := t.writeEntry p key val
    t'.keyCount = liveCount t'.table ∧ t'.deletedCount = deadCount t'.table ∧
      t'.deletedCount ≤ t.deletedCount ∧ Unique t'.table ∧
      Placed (probeSeq tr t'.tableSize) t'.table ∧ t'.tableSize = t.tableSize := by
  intro t'
  have hsz : t'.tableSize = t.tableSize := by
    simp [t', writeEntry, tableSize]
  have hdel : t'.deletedCount = t.deletedCount - (if c.isDeleted then 1 else 0) := by
    cases c <;> simp [t', writeEntry, hp, isDeleted]
  refine ⟨?_, ?_, by omega, h.unique.fill hnew val, ?_, hsz⟩
  · show t.keyCount + 1 = _
    rw [h.keyCount]
    exact (liveCount_fill hp hc key val).symm
  · rw [hdel, h.deletedCount]
    exact (deadCount_fill hp key val).symm
  · rw [hsz]
    exact h.placed.fill hmet val

theorem add_allocated (h : Inv tr t) (ht : t.table ≠ [])
    (hft : t.tableSize < 2 ^ 31 ∨ t.keyCount + t.deletedCount + 1 < 2 ^ 30) (key : κ)
    (val : ν) :
    ∃ t' e new, t.add tr key val = some (t', e, new) ∧ Added tr t key val t' e new := by
  rcases (h.searchable ht).lookupForWriting key with
    ⟨p, w, hlk, hp⟩ | ⟨hnew, p, c, hlk, hp, hc, hmet⟩
  · refine ⟨t, some p, false, ?_, h, ?_, fun k w => ?_, ⟨p, w, rfl, hp⟩, by simp, le_rfl⟩
    · simp [add, ht, hlk]
    · exact ⟨nofun, fun hno => (hno w (mem_of_getElem? hp)).elim⟩
    · simp
  · obtain ⟨hk, hdel, hle, hun, hpld, hsz⟩ := writeEntry_spec h val hp hc hmet hnew
    have hwk : (t.writeEntry p key val).keyCount = t.keyCount + 1 := rfl
    have hg : (t.writeEntry p key val).table[p]? = some (.live key val) := by
      have hlt := (List.getElem?_eq_some_iff.mp hp).1
      simp [writeEntry, hlt]
    have hstd : ∀ k w, Stored (t.writeEntry p key val).table k w ↔
        (k = key ∧ w = val) ∨ Stored t.table k w := fun k w =>
      stored_fill_iff hp hc key k val w
    have hld := h.load.resolve_left ht
    obtain ⟨w, hw1, hw31, hpow, hev, hmax⟩ := h.sizes ht
    generalize ht1 : t.writeEntry p key val = t1 at *
    cases hexp : t1.shouldExpand with
    | false =>
      refine ⟨t1, some p, true, ?_, ⟨?_, ?_, hk, hdel, hun, hpld⟩, by simpa using hnew,
        fun k w => by simp [hstd], ⟨p, val, rfl, hg⟩, by simp [hwk], hle⟩
      · simp [add, ht, hlk, ht1, hexp]
      · rw [hsz]
        exact .inr (h.size.resolve_left ht)
      · right
        rw [← not_eq_true, shouldExpand_iff, unsigned_of_lt (by omega)] at hexp
        omega
    | true =>
      have hexp' := (shouldExpand_iff t1).mp hexp
      rw [unsigned_of_lt (by omega)] at hexp'
      -- a table of the greatest size does not get here
      have hw30 : w ≤ 30 := by
        by_contra hgt
        have : t.tableSize = 2 ^ 31 := by rw [hpow, show w = 31 by omega]
        omega
      obtain ⟨t', e, heq, hre⟩ := expand_spec tr hun hk hw30 (by rw [hsz, hpow])
        (by rw [hsz]; exact (h.size.resolve_left ht).2) (by omega) (some p)
      obtain ⟨q, rfl, hq⟩ := hre.entry p key val rfl hg
      refine ⟨t', some q, true, ?_, hre.inv, by simpa using hnew,
        fun k w => by simp [hre.stored, hstd], ⟨q, val, rfl, hq⟩, by simp [hre.count, hwk],
        by simp [hre.dead]⟩
      simp [add, ht, hlk, ht1, hexp, heq]

theorem expand_of_nil (h : Inv tr t) (ht : t.table = []) :
    ∃ t₁ e, t.expand tr none = some (t₁, e) ∧ t₁.table ≠ [] ∧ t₁.tableSize < 2 ^ 31 ∧
      Rehashed tr t none t₁ e := by
  obtain ⟨m, hm1, hm30, hm⟩ := tr.minimumTableSize_pow
  have hk0 : t.keyCount = 0 := by rw [h.keyCount, ht]; rfl
  have hp : 0 < tr.minimumTableSize := by rw [hm]; exact Nat.two_pow_pos m
  obtain ⟨t₁, e, heq, hsz, hre⟩ := rehash_spec tr h.unique h.keyCount
    ⟨m, by omega, hm⟩ le_rfl (by omega) none
  refine ⟨t₁, e, by simp [expand, tableSize, ht, heq], ?_, ?_, hre⟩
  · intro hnil
    rw [tableSize, hnil, length_nil] at hsz
    omega
  · rw [hsz, hm]
    exact Nat.pow_lt_pow_right (by decide) (by omega)

/-- **`add`** keeps the invariant, finds a present key and stores an absent one. -/
theorem add_spec (h : Inv tr t)
    (hft : t.tableSize < 2 ^ 31 ∨ t.keyCount + t.deletedCount + 1 < 2 ^ 30) (key : κ)
    (val : ν) :
    ∃ t' e new, t.add tr key val = some (t', e, new) ∧ Added tr t key val t' e new := by
  by_cases ht : t.table = []
  · obtain ⟨t1, e, hexp, ht1, hsml, hre⟩ := expand_of_nil h ht
    obtain ⟨t', e', new, ha, hsp⟩ := add_allocated hre.inv ht1 (.inl hsml) key val
    refine ⟨t', e', new, ?_, hsp.inv, ?_, fun k w => ?_, hsp.at_entry, ?_, ?_⟩
    · rw [← ha]
      simp [add, ht, ht1, hexp]
    · rw [hsp.new_iff]
      simp only [hre.stored]
    · rw [hsp.stored, hre.stored]
    · rw [hsp.count, hre.count]
    · exact hsp.dead_le.trans (hre.dead ▸ Nat.zero_le _)
  · exact add_allocated h ht hft key val

/-! ## Removing -/

/-- **`shrink`**, where `shouldShrink` says so. -/
theorem shrinkIf_spec (h : Inv tr t) (hft : t.keyCount * 6 < 2 ^ 32) :
    ∃ t', (if t.shouldShrink tr then t.shrink tr else some t) = some t' ∧ Inv tr t' ∧
      ∀ k v, Stored t'.table k v ↔ Stored t.table k v := by
  cases hs : t.shouldShrink tr with
  | false => exact ⟨t, rfl, h, fun _ _ => Iff.rfl⟩
  | true =>
    rw [shouldShrink_iff, unsigned_of_lt hft] at hs
    have ht : t.table ≠ [] := by
      intro hnil
      rw [tableSize, hnil, length_nil] at hs
      omega
    obtain ⟨⟨w, hw, hpow⟩, -⟩ := h.size.resolve_left ht
    obtain ⟨m, hm1, -, hm⟩ := tr.minimumTableSize_pow
    have hmw : m < w := by
      have hlt := hs.2
      rw [hm, hpow] at hlt
      exact (Nat.pow_lt_pow_iff_right (by decide)).mp hlt
    obtain ⟨u, rfl⟩ : ∃ u, w = u + 1 := ⟨w - 1, by omega⟩
    have hhl : t.tableSize / 2 = 2 ^ u := by
      rw [hpow, pow_succ, Nat.mul_div_cancel _ (by decide)]
    -- half of a power of two above the minimum is not below the minimum
    have hmin : tr.minimumTableSize ≤ t.tableSize / 2 := by
      rw [hm, hhl]
      exact Nat.pow_le_pow_right (by decide) (by omega)
    obtain ⟨t', e, heq, -, hre⟩ := rehash_spec tr h.unique h.keyCount ⟨u, by omega, hhl⟩ hmin
      (by omega) none
    exact ⟨t', by simp [shrink, heq], hre.inv, hre.stored⟩

omit [DecidableEq κ] in
theorem Inv.bury {bs' : List (Bucket κ ν)} {r : Nat} (h : Inv tr t) (hb : Buries t.table bs')
    (hl : bs'.length = t.table.length) (hr : r ≤ liveCount t.table)
    (hlv : liveCount bs' = liveCount t.table - r) (hdd : deadCount bs' = deadCount t.table + r) :
    Inv tr ⟨bs', t.keyCount - r, t.deletedCount + r⟩ := by
  have hnil : bs' = [] ↔ t.table = [] := by
    rw [← length_eq_zero_iff, hl, length_eq_zero_iff]
  have hk := h.keyCount
  refine ⟨?_, ?_, by rw [hlv, hk], by rw [hdd, h.deletedCount], h.unique.bury hb, ?_⟩
  · rw [hnil, tableSize, hl]
    exact h.size
  · rw [hnil, tableSize, hl]
    refine h.load.imp_right fun hld => ?_
    show 2 * (t.keyCount - r + (t.deletedCount + r)) < t.tableSize
    omega
  · rw [tableSize, hl]
    exact h.placed.bury hb

omit [DecidableEq κ] in
theorem buries_set (hp : table[p]? = some (.live key v)) : Buries table (table.set p .deleted) := by
  intro q
  rw [getElem?_set]
  split_ifs with hpq hlt
  · subst hpq
    exact .inr ⟨⟨key, v, hp⟩, rfl⟩
  · subst hpq
    exact absurd (List.getElem?_eq_some_iff.mp hp).1 hlt
  · exact .inl rfl

omit [DecidableEq κ] in
theorem stored_set_deleted_iff (hu : Unique table) (hp : table[p]? = some (.live key v)) (k : κ)
    (w : ν) :
    Stored (table.set p .deleted) k w ↔ k ≠ key ∧ Stored table k w := by
  simp only [Stored, mem_iff_getElem?]
  constructor
  · rintro ⟨q, hq⟩
    have hq' := (buries_set hp).live hq
    refine ⟨?_, q, hq'⟩
    rintro rfl
    obtain rfl := hu q p k w v hq' hp
    have hlt := (List.getElem?_eq_some_iff.mp hp).1
    simp [hlt] at hq
  · rintro ⟨hne, q, hq⟩
    refine ⟨q, ?_⟩
    rw [getElem?_set, if_neg]
    · exact hq
    · rintro rfl
      rw [hp] at hq
      exact hne (by simpa [eq_comm] using (live.inj (Option.some_inj.mp hq)).1)

/-- **`remove`** keeps the invariant and removes the key. -/
theorem remove_spec (h : Inv tr t) (key : κ) (hft : (t.keyCount - 1) * 6 < 2 ^ 32) :
    ∃ t', t.remove tr key = some t' ∧ Inv tr t' ∧
      ∀ k v, Stored t'.table k v ↔ k ≠ key ∧ Stored t.table k v := by
  by_cases ht : t.table = []
  · exact ⟨t, by simp [remove, find, ht], h, fun k v => by simp [Stored, ht]⟩
  rcases (h.searchable ht).lookup key with ⟨p, v, hlk, hp⟩ | ⟨hlk, hno⟩
  · obtain ⟨hlt, hg⟩ := List.getElem?_eq_some_iff.mp hp
    have hb := buries_set hp
    have hlv : liveCount (t.table.set p .deleted) = liveCount t.table - 1 := by
      rw [liveCount, countP_set hlt, hg]
      simp [isLive, liveCount]
    have hdd : deadCount (t.table.set p .deleted) = deadCount t.table + 1 := by
      rw [deadCount, countP_set hlt, hg]
      simp [isDeleted, deadCount]
    have hpos : 0 < liveCount t.table := countP_pos_iff.mpr ⟨_, mem_of_getElem? hp, rfl⟩
    obtain ⟨t', heq, hi, hst⟩ := shrinkIf_spec (h.bury hb length_set hpos hlv hdd) hft
    refine ⟨t', ?_, hi, fun k w => ?_⟩
    · rw [remove, find, if_neg ht, hlk]
      exact heq
    · rw [hst, stored_set_deleted_iff h.unique hp]
  · refine ⟨t, by simp [remove, find, ht, hlk], h, fun k v => ⟨fun hs => ⟨?_, hs⟩, And.right⟩⟩
    rintro rfl
    exact hno v hs

omit [DecidableEq κ] in
theorem removeIfLoop_eq (functor : κ → ν → Bool) (bs : List (Bucket κ ν)) (kc dc : Nat)
    (hkc : liveCount bs ≤ kc) :
    ∃ bs' r, removeIfLoop functor bs (kc, dc) = (bs', kc - r, dc + r) ∧
      bs'.length = bs.length ∧ Buries bs bs' ∧ r ≤ liveCount bs ∧
      liveCount bs' = liveCount bs - r ∧ deadCount bs' = deadCount bs + r ∧
      ∀ k v, Stored bs' k v ↔ Stored bs k v ∧ functor k v = false := by
  induction bs with
  | nil => exact ⟨[], 0, rfl, rfl, fun _ => .inl rfl, le_rfl, rfl, rfl, by simp [Stored]⟩
  | cons b bs ih =>
    have hle : liveCount bs ≤ kc := by
      refine le_trans ?_ hkc
      simp only [liveCount, countP_cons]
      omega
    obtain ⟨bs', r, heq, hl, hbr, hr, hlv, hdd, hst⟩ := ih hle
    have hcn : ∀ c, (c = b ∨ ((∃ k v, b = .live k v) ∧ c = .deleted)) →
        Buries (b :: bs) (c :: bs') := by
      intro c hc q
      cases q with
      | zero => simpa using hc
      | succ q => exact hbr q
    -- only a live bucket that the functor accepts changes
    by_cases hrem : ∃ k v, b = .live k v ∧ functor k v = true
    · obtain ⟨k, v, rfl, hf⟩ := hrem
      refine ⟨.deleted :: bs', r + 1, ?_, by simp [hl], hcn _ (.inr ⟨⟨k, v, rfl⟩, rfl⟩),
        ?_, ?_, ?_, fun k' w => ?_⟩
      · simp only [removeIfLoop, heq, hf, if_true]
        congr 2
      · rw [liveCount_cons_live]; omega
      · rw [liveCount_cons_live, liveCount_cons_of_not_live rfl, hlv]; omega
      · have h1 : deadCount (.deleted :: bs') = deadCount bs' + 1 := by
          simp [deadCount, isDeleted, countP_cons]
        have h2 : deadCount (.live k v :: bs) = deadCount bs := by
          simp [deadCount, isDeleted]
        omega
      · rw [stored_cons_of_not_live rfl, stored_cons_live, hst]
        constructor
        · exact fun h => ⟨.inr h.1, h.2⟩
        · rintro ⟨⟨rfl, rfl⟩ | h, hf'⟩
          · rw [hf] at hf'
            cases hf'
          · exact ⟨h, hf'⟩
    · have hsp : removeIfLoop functor (b :: bs) (kc, dc) = (b :: bs', kc - r, dc + r) := by
        cases b with
        | empty | deleted => simp [removeIfLoop, heq]
        | live k v =>
          have hf : functor k v = false := by
            rw [← not_eq_true]
            exact fun hf => hrem ⟨k, v, rfl, hf⟩
          simp [removeIfLoop, heq, hf]
      refine ⟨b :: bs', r, hsp, by simp [hl], hcn _ (.inl rfl), ?_, ?_, ?_, fun k w => ?_⟩
      · simp only [liveCount, countP_cons] at hr ⊢
        omega
      · simp only [liveCount, countP_cons] at hlv hr ⊢
        omega
      · simp only [deadCount, countP_cons] at hdd ⊢
        omega
      · cases b with
        | empty | deleted => rw [stored_cons_of_not_live rfl, stored_cons_of_not_live rfl, hst]
        | live k' v =>
          rw [stored_cons_live, stored_cons_live, hst]
          constructor
          · rintro (⟨rfl, rfl⟩ | h)
            · refine ⟨.inl ⟨rfl, rfl⟩, ?_⟩
              rw [← not_eq_true]
              exact fun hf => hrem ⟨k, w, rfl, hf⟩
            · exact ⟨.inr h.1, h.2⟩
          · rintro ⟨h | h, hf⟩
            · exact .inl h
            · exact .inr ⟨h, hf⟩

/-- **`removeIf`** keeps the invariant and removes what the functor accepts. -/
theorem removeIf_spec (h : Inv tr t) (functor : κ → ν → Bool) (hft : t.keyCount * 6 < 2 ^ 32) :
    ∃ t', t.removeIf tr functor = some t' ∧ Inv tr t' ∧
      ∀ k v, Stored t'.table k v ↔ Stored t.table k v ∧ functor k v = false := by
  obtain ⟨bs', r, heq, hl, hbr, hr, hlv, hdd, hst⟩ :=
    removeIfLoop_eq functor t.table t.keyCount t.deletedCount h.keyCount.ge
  obtain ⟨t', heq', hi, hst'⟩ := shrinkIf_spec (h.bury hbr hl hr hlv hdd)
    (by show (t.keyCount - r) * 6 < _; omega)
  refine ⟨t', ?_, hi, fun k v => by rw [hst', hst]⟩
  rw [removeIf, heq]
  exact heq'

end WebKit.Wtf.HashTable
