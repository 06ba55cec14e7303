import WebKit.Wtf.HashTableRuns

/-!
# `HashTable::add` with any key

The empty and the deleted value mark buckets, so they are no keys. `add` checks this in debug
builds only. What it does with any key: a bucket that gets the empty value stays an empty bucket,
and the deleted value is found where an entry was removed. 
-/

namespace WebKit.Wtf

open OpenAddressing List Option

/-- The traits, with the reserved values. The hash of a null string reads through a null pointer. -/
structure HashTraits (κ : Type) extends KeyTraits κ where
  isEmptyValue : κ → Bool
  isDeletedValue : κ → Bool
  isHashable : κ → Bool := fun _ => true

namespace HashTraits

variable {κ ν : Type}

def isReserved (tr : HashTraits κ) (key : κ) : Bool :=
  tr.isEmptyValue key || tr.isDeletedValue key

/-- What a bucket is after the key and the value are written to it. -/
def bucket (tr : HashTraits κ) (key : κ) (value : ν) : Bucket κ ν :=
  if tr.isEmptyValue key then .empty
  else if tr.isDeletedValue key then .deleted
  else .live key value

end HashTraits

namespace HashTable

variable {κ ν : Type} [DecidableEq κ]

/-- The loop of `add`. -/
def anyKeyLoop (tr : HashTraits κ) (table : List (Bucket κ ν)) (key : κ)
    (k sizeMask : BitVec 32) : Nat → BitVec 32 → Option Nat → Option (Nat × Bool)
  | 0, _, _ => none
  | fuel + 1, i, deletedEntry =>
    match table[i.toNat]? with
    | none => none
    | some .empty => some (deletedEntry.getD i.toNat, false)
    | some .deleted =>
      if tr.isDeletedValue key then some (i.toNat, true)
      else anyKeyLoop tr table key k sizeMask fuel ((i + k) &&& sizeMask) (some i.toNat)
    | some (.live key' _) =>
      if key' = key then some (i.toNat, true)
      else anyKeyLoop tr table key k sizeMask fuel ((i + k) &&& sizeMask) deletedEntry

variable (tr : HashTraits κ) (t : HashTable κ ν)

/-- Write an entry, over a deleted bucket or an empty one. The counters are `unsigned`. -/
def writeAnyEntry (entry : Nat) (key : κ) (value : ν) :
    HashTable κ ν where
  table := t.table.set entry (tr.bucket key value)
  keyCount := unsigned (t.keyCount + 1)
  deletedCount :=
    match t.table[entry]? with
    | some .deleted => unsigned (t.deletedCount + (2 ^ 32 - 1))
    | _ => t.deletedCount

/-- `add` in an allocated table: whether the entry is new. -/
def addAnyKeyAllocated (key : κ) (value : ν) :
    Option (HashTable κ ν × Bool) := do
  let h := tr.hash key
  let (entry, found) ← anyKeyLoop tr t.table key (stride h) t.tableSizeMask t.tableSize
    (h &&& t.tableSizeMask) none
  if found then some (t, false)
  else
    let t := t.writeAnyEntry tr entry key value
    if t.shouldExpand then (t.expand tr.toKeyTraits (some entry)).map fun r => (r.1, true)
    else some (t, true)

def allocate (tr : KeyTraits κ) (t : HashTable κ ν) : Option (HashTable κ ν) :=
  if t.table = [] then (t.expand tr none).map (·.1) else some t

/-- `add`, with any key. -/
def addAnyKey (key : κ) (value : ν) :
    Option (HashTable κ ν × Bool) := do
  let t ← t.allocate tr.toKeyTraits
  if tr.isHashable key then t.addAnyKeyAllocated tr key value else none

/-- Add entries one after another, as long as they are new. -/
def addAll (tr : HashTraits κ) (extract : ν → κ) (t : HashTable κ ν) :
    List ν → Option (HashTable κ ν)
  | [] => some t
  | e :: rest =>
    match t.addAnyKey tr (extract e) e with
    | some (t', true) => addAll tr extract t' rest
    | _ => none

/-! ## Keys that are not reserved -/

section

variable {tr : HashTraits κ} {t t' : HashTable κ ν} {key : κ}

omit [DecidableEq κ] in
theorem isReserved_eq_false :
    tr.isReserved key = false ↔ tr.isEmptyValue key = false ∧ tr.isDeletedValue key = false :=
  Bool.or_eq_false_iff

theorem anyKeyLoop_eq (hk : tr.isDeletedValue key = false) (tbl : List (Bucket κ ν))
    (k sizeMask : BitVec 32) (fuel : Nat) (i : BitVec 32) (d : Option Nat) :
    anyKeyLoop tr tbl key k sizeMask fuel i d = writingLoop tbl key k sizeMask fuel i d := by
  induction fuel generalizing i d with
  | zero => rfl
  | succ fuel ih =>
    rw [anyKeyLoop, writingLoop]
    cases tbl[i.toNat]? with
    | none => rfl
    | some b =>
      cases b with
      | empty => rfl
      | deleted =>
        rw [hk, if_neg Bool.false_ne_true]
        exact ih _ _
      | live key' v =>
        dsimp only
        rw [ih]

omit [DecidableEq κ] in
theorem writeAnyEntry_eq (hk : tr.isReserved key = false) (hi : Inv tr.toKeyTraits t)
    (ht : t.table ≠ []) (ent : Nat) (value : ν) :
    t.writeAnyEntry tr ent key value = t.writeEntry ent key value := by
  obtain ⟨hemp, hdel⟩ := isReserved_eq_false.mp hk
  have hld := hi.load.resolve_left ht
  obtain ⟨w, hw, hsz⟩ := (hi.size.resolve_left ht).1
  have hpow : 2 ^ w ≤ 2 ^ 31 := Nat.pow_le_pow_right (by decide) hw
  have hbkt : tr.bucket key value = .live key value := by
    simp [HashTraits.bucket, hemp, hdel]
  have hc : unsigned (t.keyCount + 1) = t.keyCount + 1 := unsigned_of_lt (by omega)
  unfold writeAnyEntry writeEntry
  rw [hbkt, hc]
  cases hb : t.table[ent]? with
  | none => rfl
  | some b =>
    cases b with
    | empty => rfl
    | live key' v => rfl
    | deleted =>
      -- a deleted bucket is counted
      have hp : 0 < t.deletedCount := by
        rw [hi.deletedCount]
        exact countP_pos_iff.mpr ⟨_, mem_of_getElem? hb, rfl⟩
      have hwr : unsigned (t.deletedCount + (2 ^ 32 - 1)) = t.deletedCount - 1 := by
        unfold unsigned
        omega
      rw [hwr]

theorem addAnyKeyAllocated_eq (hk : tr.isReserved key = false) (hi : Inv tr.toKeyTraits t)
    (ht : t.table ≠ []) (value : ν) :
    t.addAnyKeyAllocated tr key value =
      (t.add tr.toKeyTraits key value).map fun r => (r.1, r.2.2) := by
  unfold addAnyKeyAllocated add
  rw [if_neg ht]
  show (anyKeyLoop tr t.table key _ _ _ _ none).bind _ = ((t.lookupForWriting _ key).bind _).map _
  unfold lookupForWriting
  rw [anyKeyLoop_eq (isReserved_eq_false.mp hk).2]
  cases writingLoop t.table key (stride (tr.hash key)) t.tableSizeMask t.tableSize
      (tr.hash key &&& t.tableSizeMask) none with
  | none => rfl
  | some r =>
    obtain ⟨ent, found⟩ := r
    cases found with
    | true => rfl
    | false =>
      dsimp only [Option.bind]
      rw [writeAnyEntry_eq hk hi ht]
      cases hexp : (t.writeEntry ent key value).shouldExpand with
      | false => rfl
      | true =>
        cases (t.writeEntry ent key value).expand tr.toKeyTraits (some ent) with
        | none => rfl
        | some r => rfl

/-- **Keys that are not reserved.** With them `addAnyKey` is `add`. -/
theorem addAnyKey_spec (hi : Inv tr.toKeyTraits t)
    (hft : t.tableSize < 2 ^ 31 ∨ t.keyCount + t.deletedCount + 1 < 2 ^ 30)
    (hkey : tr.isReserved key = false) (hhs : tr.isHashable key = true) (value : ν) :
    ∃ t' e new, t.addAnyKey tr key value = some (t', new) ∧
      Added tr.toKeyTraits t key value t' e new := by
  obtain ⟨t', e, new, ha, hadd⟩ := add_spec hi hft key value
  refine ⟨t', e, new, ?_, hadd⟩
  unfold addAnyKey
  by_cases ht : t.table = []
  · -- the table is allocated first, by either function
    obtain ⟨t₁, e₁, hexp, ht₁, -, hre⟩ := expand_of_nil hi ht
    have ha₁ : t₁.add tr.toKeyTraits key value = some (t', e, new) := by
      rw [← ha]
      unfold add
      simp [ht, ht₁, hexp]
    rw [allocate, if_pos ht, hexp]
    show (if tr.isHashable key = true then t₁.addAnyKeyAllocated tr key value else none) = _
    rw [if_pos hhs, addAnyKeyAllocated_eq hkey hre.inv ht₁, ha₁]
    rfl
  · rw [allocate, if_neg ht]
    show (if tr.isHashable key = true then t.addAnyKeyAllocated tr key value else none) = _
    rw [if_pos hhs, addAnyKeyAllocated_eq hkey hi ht, ha]
    rfl

end

/-! ## What a table can hold -/

section

variable {tr : HashTraits κ} {t t' : HashTable κ ν} {key k : κ} {v value : ν}

omit [DecidableEq κ] in
theorem stored_set {tbl : List (Bucket κ ν)} {p : Nat} {b : Bucket κ ν}
    (h : Stored (tbl.set p b) k v) : b = .live k v ∨ Stored tbl k v := by
  rcases mem_or_eq_of_mem_set h with h | h
  · exact .inr h
  · exact .inl h.symm

theorem stored_reinsertAll {tr : KeyTraits κ} {ent ne ne' : Option Nat}
    {rest : List (Bucket κ ν)} {i : Nat}
    (h : reinsertAll tr ent rest i t ne = some (t', ne'))
    (hstd : Stored t'.table k v) : Stored t.table k v ∨ Stored rest k v := by
  induction rest generalizing i t ne with
  | nil =>
    obtain ⟨rfl, _⟩ := Prod.mk.inj (some.inj h)
    exact .inl hstd
  | cons b rest ih =>
    cases b with
    | empty | deleted => exact (ih h).imp_right (mem_cons_of_mem _)
    | live key' v' =>
      obtain ⟨⟨t₁, e₁⟩, hrn, h⟩ := bind_eq_some_iff.mp h
      rcases ih h with h₁ | h₁
      · obtain ⟨⟨p, found⟩, _, heq⟩ := bind_eq_some_iff.mp hrn
        obtain ⟨rfl, _⟩ := Prod.mk.inj (some.inj heq)
        rcases stored_set h₁ with hlv | hold
        · exact .inr (hlv ▸ mem_cons_self)
        · exact .inl hold
      · exact .inr (mem_cons_of_mem _ h₁)

theorem stored_expand {tr : KeyTraits κ} {ent ne : Option Nat}
    (h : t.expand tr ent = some (t', ne)) (hstd : Stored t'.table k v) :
    Stored t.table k v := by
  obtain ⟨⟨t₁, e₁⟩, ha, heq⟩ := bind_eq_some_iff.mp h
  obtain ⟨rfl, _⟩ := Prod.mk.inj (some.inj heq)
  refine (stored_reinsertAll ha hstd).resolve_left ?_
  exact not_stored_replicate _ k v

theorem stored_addAnyKeyAllocated {new : Bool}
    (h : t.addAnyKeyAllocated tr key value = some (t', new)) (hstd : Stored t'.table k v) :
    (tr.isReserved key = false ∧ k = key ∧ v = value) ∨ Stored t.table k v := by
  obtain ⟨⟨ent, found⟩, _, h⟩ := bind_eq_some_iff.mp h
  cases found with
  | true =>
    obtain ⟨rfl, _⟩ := Prod.mk.inj (some.inj h)
    exact .inr hstd
  | false =>
    have hwr : Stored (t.writeAnyEntry tr ent key value).table k v := by
      simp only [Bool.false_eq_true, if_false] at h
      split at h
      · obtain ⟨⟨t₁, e₁⟩, hexp, heq⟩ := map_eq_some_iff.mp h
        obtain ⟨rfl, _⟩ := Prod.mk.inj heq
        exact stored_expand hexp hstd
      · obtain ⟨rfl, _⟩ := Prod.mk.inj (some.inj h)
        exact hstd
    refine (stored_set hwr).imp_left ?_
    intro hlv
    unfold HashTraits.bucket at hlv
    split at hlv
    case isTrue => cases hlv
    case isFalse hemp =>
      split at hlv
      case isTrue => cases hlv
      case isFalse hdel =>
        obtain ⟨rfl, rfl⟩ := Bucket.live.inj hlv
        refine ⟨isReserved_eq_false.mpr ⟨?_, ?_⟩, rfl, rfl⟩
        · simpa using hemp
        · simpa using hdel

/-- **What `add` stores.** A key that is not reserved, with its value, and nothing else. -/
theorem stored_addAnyKey {new : Bool} (h : t.addAnyKey tr key value = some (t', new))
    (hstd : Stored t'.table k v) :
    (tr.isReserved key = false ∧ k = key ∧ v = value) ∨ Stored t.table k v := by
  obtain ⟨t₁, halc, h⟩ := bind_eq_some_iff.mp h
  split at h
  case isTrue =>
    refine (stored_addAnyKeyAllocated h hstd).imp_right ?_
    intro hstd₁
    unfold allocate at halc
    split at halc
    · obtain ⟨⟨t₂, e₂⟩, hexp, rfl⟩ := map_eq_some_iff.mp halc
      exact stored_expand hexp hstd₁
    · exact some.inj halc ▸ hstd₁
  case isFalse => cases h

theorem isHashable_of_addAnyKey {r : HashTable κ ν × Bool}
    (h : t.addAnyKey tr key value = some r) : tr.isHashable key = true := by
  obtain ⟨t₁, _, h⟩ := bind_eq_some_iff.mp h
  split at h
  case isTrue hhs => exact hhs
  case isFalse => cases h

variable {extract : ν → κ}

theorem addAll_cons {e : ν} {rest : List ν} :
    t.addAll tr extract (e :: rest) = some t' ↔
      ∃ t₁, t.addAnyKey tr (extract e) e = some (t₁, true) ∧
        t₁.addAll tr extract rest = some t' := by
  rw [addAll]
  split
  case h_1 t₁ ha => simp [ha]
  case h_2 ha =>
    constructor
    · exact nofun
    · rintro ⟨t₁, h, _⟩
      exact absurd h (ha t₁)

theorem addAll_append {added added' : List ν} :
    t.addAll tr extract (added ++ added') = some t' ↔
      ∃ t₁, t.addAll tr extract added = some t₁ ∧ t₁.addAll tr extract added' = some t' := by
  induction added generalizing t with
  | nil => simp [addAll]
  | cons e rest ih =>
    rw [cons_append, addAll_cons]
    simp only [ih, addAll_cons]
    constructor
    · rintro ⟨t₂, ha, t₁, hrest, h'⟩
      exact ⟨t₁, ⟨t₂, ha, hrest⟩, h'⟩
    · rintro ⟨t₁, ⟨t₂, ha, hrest⟩, h'⟩
      exact ⟨t₂, ha, t₁, hrest, h'⟩

theorem stored_addAll {added : List ν} (h : t.addAll tr extract added = some t')
    (hstd : Stored t'.table k v) :
    (tr.isReserved k = false ∧ v ∈ added ∧ extract v = k) ∨ Stored t.table k v := by
  induction added generalizing t with
  | nil => exact .inr (some.inj h ▸ hstd)
  | cons e rest ih =>
    obtain ⟨t₁, ha, hrest⟩ := addAll_cons.mp h
    rcases ih hrest with ⟨hk, hm, hv⟩ | hold
    · exact .inl ⟨hk, mem_cons_of_mem _ hm, hv⟩
    · rcases stored_addAnyKey ha hold with ⟨hk, rfl, rfl⟩ | hold
      · exact .inl ⟨hk, mem_cons_self, rfl⟩
      · exact .inr hold

end

/-! ## Filling a table -/

section

variable {tr : HashTraits κ} {t t' : HashTable κ ν} {extract : ν → κ}

/-- The table is well formed and holds the entries, each under its own key. -/
structure HoldsExactly (tr : KeyTraits κ) (extract : ν → κ) (t : HashTable κ ν)
    (added : List ν) : Prop where
  inv : Inv tr t
  size : t.size = added.length
  distinct : (added.map extract).Nodup
  stored : ∀ k e, Stored t.table k e ↔ e ∈ added ∧ extract e = k

/-- What filling a table keeps: room for the entries to come, and what it holds. -/
structure Growing (tr : KeyTraits κ) (extract : ν → κ) (t : HashTable κ ν) (added : List ν)
    (n : Nat) : Prop extends HoldsExactly tr extract t added where
  room : added.length + n < 2 ^ 30
  dead : t.deletedCount = 0

variable {n : Nat} {added : List ν} {e : ν}

omit [DecidableEq κ] in
theorem Growing.initial (tr : KeyTraits κ) (extract : ν → κ) (hn : n < 2 ^ 30) :
    Growing tr extract ({} : HashTable κ ν) [] n := by
  refine ⟨⟨.empty, rfl, nodup_nil, ?_⟩, by simpa using hn, rfl⟩
  intro k e
  simp [Stored]

omit [DecidableEq κ] in
theorem Growing.add (h : Growing tr.toKeyTraits extract t added (n + 1)) {ent : Option Nat}
    (hadd : Added tr.toKeyTraits t (extract e) e t' ent true) :
    Growing tr.toKeyTraits extract t' (added ++ [e]) n := by
  have hrm := h.room
  refine ⟨⟨hadd.inv, ?_, ?_, ?_⟩, by simp; omega, ?_⟩
  · have hc := hadd.count
    have hsz := h.size
    unfold size at hsz ⊢
    simp at hc ⊢
    omega
  · rw [map_append, nodup_append]
    refine ⟨h.distinct, by simp, ?_⟩
    intro a ha b hb hab
    obtain rfl := mem_singleton.mp hb
    obtain ⟨e', he', hkey⟩ := mem_map.mp ha
    exact hadd.new_iff.mp rfl e' ((h.stored _ _).mpr ⟨he', hkey.trans hab⟩)
  · intro k e'
    rw [hadd.stored, h.stored, mem_append, mem_singleton]
    constructor
    · rintro (⟨_, rfl, rfl⟩ | ⟨he', hk⟩)
      · exact ⟨.inr rfl, rfl⟩
      · exact ⟨.inl he', hk⟩
    · rintro ⟨he' | rfl, hk⟩
      · exact .inr ⟨he', hk⟩
      · exact .inl ⟨rfl, hk.symm, rfl⟩
  · have := hadd.dead_le
    have := h.dead
    omega

omit [DecidableEq κ] in
theorem Growing.fits (h : Growing tr.toKeyTraits extract t added (n + 1)) :
    t.tableSize < 2 ^ 31 ∨ t.keyCount + t.deletedCount + 1 < 2 ^ 30 := by
  have hrm := h.room
  have hsz := h.size
  have hdd := h.dead
  unfold size at hsz
  omega

theorem Growing.addAnyKey (h : Growing tr.toKeyTraits extract t added (n + 1))
    (hk : tr.isReserved (extract e) = false) (hhs : tr.isHashable (extract e) = true)
    (hnew : extract e ∉ added.map extract) :
    ∃ t', t.addAnyKey tr (extract e) e = some (t', true) ∧
      Growing tr.toKeyTraits extract t' (added ++ [e]) n := by
  obtain ⟨t', ent, new, ha, hadd⟩ := addAnyKey_spec h.inv h.fits hk hhs e
  obtain rfl : new = true := by
    refine hadd.new_iff.mpr ?_
    intro w hw
    obtain ⟨hm, hw⟩ := (h.stored _ _).mp hw
    exact hnew (mem_map.mpr ⟨w, hm, hw⟩)
  exact ⟨t', ha, h.add hadd⟩

theorem Growing.addAll {rest : List ν} (h : Growing tr.toKeyTraits extract t added rest.length)
    (hall : t.addAll tr extract rest = some t')
    (hky : ∀ e ∈ rest, tr.isReserved (extract e) = false) :
    Growing tr.toKeyTraits extract t' (added ++ rest) 0 := by
  induction rest generalizing t added with
  | nil =>
    rw [append_nil]
    exact some.inj hall ▸ h
  | cons e rest ih =>
    obtain ⟨t₁, ha, hrest⟩ := addAll_cons.mp hall
    obtain ⟨t₁', ent, new, ha', hadd⟩ := addAnyKey_spec h.inv h.fits
      (hky e mem_cons_self) (isHashable_of_addAnyKey ha) e
    obtain ⟨rfl, rfl⟩ := Prod.mk.inj (some.inj (ha.symm.trans ha'))
    rw [append_cons]
    exact ih (h.add hadd) hrest (forall_mem_cons.mp hky).2

/-- No new key can be added to a full table: it is written outside of the table. -/
theorem Growing.not_added (h : Growing tr.toKeyTraits extract t added 0)
    (hfl : added.length = 2 ^ 30 - 1) (hk : tr.isReserved (extract e) = false) :
    t.addAnyKey tr (extract e) e ≠ some (t', true) := by
  have hc : t.keyCount = 2 ^ 30 - 1 := h.size.trans hfl
  have ht : t.table ≠ [] := by
    intro hnil
    rw [h.inv.keyCount, hnil] at hc
    cases hc
  have ha : ∀ r, t.add tr.toKeyTraits (extract e) e = some r → r.2.2 = false := by
    intro r hr
    rcases (h.inv.searchable ht).lookupForWriting (extract e) with
      ⟨p, v, hlk, _⟩ | ⟨hnew, _⟩
    · rw [HashTable.add, if_neg ht] at hr
      simp [hlk] at hr
      rw [← hr]
    · rw [add_eq_none h.inv hc h.dead hnew e] at hr
      cases hr
  intro hso
  obtain ⟨t₁, halc, hso⟩ := bind_eq_some_iff.mp hso
  rw [allocate, if_neg ht] at halc
  cases halc
  split at hso
  case isTrue =>
    rw [addAnyKeyAllocated_eq hk h.inv ht] at hso
    obtain ⟨r, hr, heq⟩ := map_eq_some_iff.mp hso
    exact absurd ((Prod.mk.inj heq).2.symm.trans (ha r hr)) (by simp)
  case isFalse => cases hso

/-- Keys that are not reserved fill a table with fewer than `2 ^ 30` entries. -/
theorem length_lt_of_addAll (ha : addAll tr extract {} added = some t)
    (hky : ∀ e ∈ added, tr.isReserved (extract e) = false) : added.length < 2 ^ 30 := by
  by_contra hge
  -- the first entries fill the table, and then there is one more
  obtain ⟨fst, e, rest, rfl, hfl⟩ : ∃ fst e rest, added = fst ++ e :: rest ∧
      fst.length = 2 ^ 30 - 1 := by
    have hlt : 2 ^ 30 - 1 < added.length := by omega
    refine ⟨added.take (2 ^ 30 - 1), added[2 ^ 30 - 1], added.drop (2 ^ 30 - 1 + 1), ?_, ?_⟩
    · rw [← drop_eq_getElem_cons hlt, take_append_drop]
    · rw [length_take]
      omega
  obtain ⟨t₁, hfst, hrest⟩ := addAll_append.mp ha
  obtain ⟨t₂, hadd, _⟩ := addAll_cons.mp hrest
  have hrm : fst.length < 2 ^ 30 := by omega
  have hgrg := (Growing.initial tr.toKeyTraits extract hrm).addAll hfst
    (fun e' he' => hky e' (mem_append_left _ he'))
  exact hgrg.not_added hfl (hky e (by simp)) hadd

/-- **Reserved keys.** A table that was filled with entries, all of them reported as new, holds
exactly these if and only if no key is reserved. -/
theorem holdsExactly_iff (ha : addAll tr extract {} added = some t) :
    HoldsExactly tr.toKeyTraits extract t added ↔
      ∀ e ∈ added, tr.isReserved (extract e) = false := by
  constructor
  · intro h e he
    rcases stored_addAll ha ((h.stored _ _).mpr ⟨he, rfl⟩) with ⟨hk, _⟩ | hno
    · exact hk
    · cases hno
  · intro hky
    exact ((Growing.initial tr.toKeyTraits extract (length_lt_of_addAll ha hky)).addAll ha
      hky).toHoldsExactly

end

end HashTable

end WebKit.Wtf
