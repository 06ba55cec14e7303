import Mathlib.Algebra.BigOperators.Group.List.Basic
import Mathlib.Data.List.NodupEquivFin
import WebKit.Storage.StorageMap

/-!
# Runs of storage maps

Over every run the lengths and quotas of all maps are right, the iterator of each map is where its
index says, an operation through one handle is not seen through another, and the quota is checked,
with three exceptions: `importItems` looks neither at the references nor at the iterator,
`setItemIgnoringQuota` copies a shared map without its quota, and lengths can overflow.
-/

namespace WebKit.Storage

open List Function StorageMap Option

/-! ## What is claimed -/

/-- The length of all keys and values. -/
def totalLength (entries : Entries) : Nat :=
  (entries.map fun e => e.1.length + e.2.length).sum

/-- The entries after an entry was added or replaced. -/
def replaced (entries : Entries) (key value : WString) : Entries :=
  (key, value) :: entries.filter fun e => e.1 ≠ key

/-- The new length would exceed the quota, in bytes. -/
def Exceeds (quota : Nat) (entries : Entries) (key value : WString) : Prop :=
  quota ≠ StorageMap.noQuota ∧ quota < 2 * totalLength (replaced entries key value)

structure StorageMap.Right (m : StorageMap) : Prop where
  currentLength : m.currentLength = totalLength m.map
  quotaSize : m.quotaSize = m.createdWith
  nodup : (m.map.map (·.1)).Nodup
  key : ∀ i < m.length, ∃ m', m.key i = some (m.map[i]?.map (·.1), m') ∧ m'.map = m.map

structure Observation.Right (o : Observation) : Prop where
  others : ∀ handle ≠ o.handle, o.before[handle]? = o.after[handle]?
  exception : ∀ quota key value exception, o.setItem = some (quota, (key, value), exception) →
    ∃ entries entries', o.before[o.handle]? = some (some entries) ∧
      o.after[o.handle]? = some (some entries') ∧
      (exception = true ↔ Exceeds quota entries key value) ∧
      (exception = true → entries'.Perm entries)

structure World.Holds (w : World) : Prop where
  maps : ∀ m ∈ w.maps, m.Right
  observations : ∀ o ∈ w.observations, o.Right

/-! ## Lengths -/

variable {l : Entries} {key : WString}

theorem totalLength_perm {l' : Entries} (h : l.Perm l') : totalLength l = totalLength l' :=
  (h.map _).sum_eq

theorem totalLength_cons (e : WString × WString) (l : Entries) :
    totalLength (e :: l) = e.1.length + e.2.length + totalLength l := by
  simp [totalLength]

theorem totalLength_append (l l' : Entries) :
    totalLength (l ++ l') = totalLength l + totalLength l' := by
  simp [totalLength]

theorem WString.length_lt (s : WString) : s.length < 2 ^ 32 := s.property

theorem filter_of_lookup_none (h : l.lookup key = none) : l.filter (fun e => e.1 ≠ key) = l := by
  refine filter_eq_self.mpr fun e he => decide_eq_true fun heq => ?_
  exact absurd heq.symm (by simpa using lookup_eq_none_iff.mp h e he)

theorem perm_cons_eraseP {old : WString} (h : l.lookup key = some old) :
    l.Perm ((key, old) :: l.eraseP fun e => e.1 = key) := by
  induction l with
  | nil => cases h
  | cons e rest ih =>
    rw [lookup_cons] at h
    by_cases hk : key = e.1
    · subst hk
      rw [beq_self_eq_true] at h
      cases h
      rw [eraseP_cons_of_pos (by simp)]
    · rw [beq_false_of_ne hk] at h
      rw [eraseP_cons_of_neg (by simpa using fun heq => hk heq.symm)]
      exact ((ih h).cons e).trans (List.Perm.swap _ _ _)

theorem perm_cons_filter {value : WString} (hnd : (l.map (·.1)).Nodup)
    (h : l.lookup key = some value) :
    l.Perm ((key, value) :: l.filter fun e => e.1 ≠ key) := by
  have hpr := perm_cons_eraseP h
  have hn := (nodup_cons.mp ((hpr.map (·.1)).nodup_iff.mp hnd)).1
  have hflt := hpr.filter fun e => e.1 ≠ key
  -- no other entry has the key
  have hself : (l.eraseP fun e => e.1 = key).filter (fun e => e.1 ≠ key) = _ :=
    filter_eq_self.mpr fun e he => decide_eq_true fun heq => hn (mem_map.mpr ⟨e, he, heq⟩)
  rw [filter_cons_of_neg (by simp), hself] at hflt
  exact hpr.trans (hflt.symm.cons _)

theorem totalLength_of_lookup {value : WString} (hnd : (l.map (·.1)).Nodup)
    (h : l.lookup key = some value) :
    totalLength l = key.length + value.length + totalLength (l.filter fun e => e.1 ≠ key) :=
  (totalLength_perm (perm_cons_filter hnd h)).trans (totalLength_cons _ _)

theorem totalLength_replaced {m : StorageMap} (hnd : (m.map.map (·.1)).Nodup)
    (key value : WString) :
    totalLength (replaced m.map key value) + valueLength (m.get key) =
      totalLength m.map + value.length + if (m.get key).isNone then key.length else 0 := by
  unfold replaced
  rw [totalLength_cons]
  cases hg : m.get key with
  | none =>
    rw [filter_of_lookup_none hg]
    simp [valueLength]
    omega
  | some old =>
    have htot := totalLength_of_lookup hnd hg
    show key.length + value.length + _ + old.length = _
    rw [htot, if_neg (by simp)]
    omega

theorem valueLength_le {m : StorageMap} (hnd : (m.map.map (·.1)).Nodup) (key : WString) :
    valueLength (m.get key) ≤ totalLength m.map := by
  cases hg : m.get key with
  | none => exact Nat.zero_le _
  | some old =>
    have htot := totalLength_of_lookup hnd hg
    show old.length ≤ _
    omega

section

variable {m : StorageMap}

/-- The computation of the length is exact up to overflow, and overflow is noticed. -/
theorem newLength_spec (key value : WString) (hm : m.currentLength = totalLength m.map)
    (hlt : m.currentLength < 2 ^ 32) (hnd : (m.map.map (·.1)).Nodup) :
    (m.newLength key value).1 = totalLength (replaced m.map key value) % 2 ^ 32 ∧
      ((m.newLength key value).2 = true ↔
        2 ^ 32 ≤ m.currentLength + value.length ∨
          2 ^ 32 ≤ totalLength (replaced m.map key value)) := by
  have htot := totalLength_replaced hnd key value
  have hold := valueLength_le hnd key
  have hv := value.length_lt
  have haj : (if (m.get key).isNone = true then key.length else 0) < 2 ^ 32 := by
    split
    · exact key.length_lt
    · decide
  unfold newLength unsigned
  dsimp only
  generalize (if (m.get key).isNone = true then key.length else 0) = adjusted at htot haj ⊢
  generalize valueLength (m.get key) = old at htot hold ⊢
  generalize totalLength (replaced m.map key value) = after at htot ⊢
  simp only [Bool.or_eq_true, decide_eq_true_eq]
  omega

end

/-! ## Iterators -/

namespace StorageMap

/-- There is no iterator, or it is at the entry of its index. -/
def IteratorAt (m : StorageMap) : Prop :=
  m.iterator = none ∧ m.iteratorIndex = unsignedMax ∨
    ∃ it, m.iterator = some it ∧ it.position = m.iteratorIndex ∧ m.iteratorIndex < m.length

/-- An iterator is one of the table as it is. -/
def IteratorValid (m : StorageMap) : Prop := ∀ it ∈ m.iterator, it.version = m.version

section

variable {m m' : StorageMap}

theorem advance_eq (n : Nat) (m : StorageMap) :
    advance n m = { m with
      iteratorIndex := m.iteratorIndex + n
      iterator := m.iterator.map fun it => { it with position := it.position + n } } := by
  induction n generalizing m with
  | zero =>
    rw [advance]
    cases hit : m.iterator with
    | none | some it => simp [← hit]
  | succ n ih =>
    rw [advance, ih]
    simp [add_assoc, add_comm 1, comp_def]

theorem setIteratorToIndex_spec (hm : m.IteratorAt) {idx : Nat} (hlt : idx < m.length)
    (hmax : m.length ≤ unsignedMax) :
    ∃ v, m.setIteratorToIndex idx =
        { m with iterator := some ⟨v, idx⟩, iteratorIndex := idx } ∧
      (v = m.version ∨ ∃ it, m.iterator = some it ∧ v = it.version) := by
  unfold setIteratorToIndex
  by_cases heq : m.iteratorIndex = idx
  · rw [if_pos heq]
    obtain ⟨_, hi⟩ | ⟨it, hit, hps, _⟩ := hm
    · omega
    · refine ⟨it.version, ?_, .inr ⟨it, hit, rfl⟩⟩
      rw [← heq, ← hps, ← hit, hps]
  · rw [if_neg heq]
    by_cases hbc : idx < m.iteratorIndex
    · rw [if_pos hbc, advance_eq]
      exact ⟨m.version, by simp, .inl rfl⟩
    rw [if_neg hbc, advance_eq]
    obtain ⟨_, hi⟩ | ⟨it, hit, hps, _⟩ := hm
    · omega
    · refine ⟨it.version, ?_, .inr ⟨it, hit, rfl⟩⟩
      rw [hit]
      simp only [map_some, hps]
      rw [show m.iteratorIndex + (idx - m.iteratorIndex) = idx by omega]

theorem key_spec (hm : m.IteratorAt) (hvld : m.IteratorValid) (hmax : m.length ≤ unsignedMax)
    {idx : Nat} (hlt : idx < m.length) :
    m.key idx = some (m.map[idx]?.map (·.1),
      { m with iterator := some ⟨m.version, idx⟩, iteratorIndex := idx }) := by
  obtain ⟨v, heq, hv⟩ := setIteratorToIndex_spec hm hlt hmax
  have hvr : v = m.version := by
    rcases hv with hv | ⟨it, hit, rfl⟩
    · exact hv
    · exact hvld it hit
  subst hvr
  unfold key
  rw [if_neg (not_le.mpr hlt), heq]
  unfold iteratorKey
  dsimp only
  rw [if_pos rfl, getElem?_eq_getElem hlt]
  rfl

theorem keys_iff (hm : m.IteratorAt) (hmax : m.length ≤ unsignedMax) :
    (∀ i < m.length, ∃ m', m.key i = some (m.map[i]?.map (·.1), m') ∧ m'.map = m.map) ↔
      m.IteratorValid := by
  constructor
  · intro hky it hit
    obtain ⟨hno, _⟩ | ⟨it', hit', hps, hlt⟩ := hm
    · simp [hno] at hit
    -- the key at the index of the iterator
    obtain rfl := some.inj (hit'.symm.trans hit)
    obtain ⟨m', hk, _⟩ := hky _ hlt
    unfold key setIteratorToIndex at hk
    rw [if_neg (not_le.mpr hlt), if_pos rfl] at hk
    unfold iteratorKey at hk
    dsimp only at hk
    rw [hit'] at hk
    dsimp only at hk
    refine not_not.mp fun hne => ?_
    rw [if_neg hne] at hk
    cases hk
  · intro hvld i hi
    exact ⟨_, key_spec hm hvld hmax hi, rfl⟩

end

/-! ## Mutations of a map -/

/-- What every operation keeps. -/
structure Inv (m : StorageMap) : Prop where
  iteratorAt : m.IteratorAt
  length_lt : m.length < maximumKeyCount
  currentLength_lt : m.currentLength < 2 ^ 32
  quotaSize_lt : m.quotaSize < 2 ^ 32

section

variable {m m' : StorageMap} {key value : WString} {order : Entries}

theorem Inv.length_le (hm : m.Inv) : m.length ≤ unsignedMax := by
  have := hm.length_lt
  unfold maximumKeyCount at this
  unfold unsignedMax
  omega

theorem right_iff (hm : m.Inv) (hnd : (m.map.map (·.1)).Nodup) (hvld : m.IteratorValid) :
    m.Right ↔ m.currentLength = totalLength m.map ∧ m.quotaSize = m.createdWith := by
  refine ⟨fun h => ⟨h.currentLength, h.quotaSize⟩, fun h => ⟨h.1, h.2, hnd, ?_⟩⟩
  exact (keys_iff hm.iteratorAt hm.length_le).mpr hvld

theorem Right.iteratorValid (hr : m.Right) (hm : m.Inv) : m.IteratorValid :=
  (keys_iff hm.iteratorAt hm.length_le).mp hr.key

theorem iteratorValid_of_none (h : m.iterator = none) : m.IteratorValid := by
  intro it hit
  simp [h] at hit

variable {l : Entries}

theorem nodup_replaced (hnd : (l.map (·.1)).Nodup) (key value : WString) :
    ((replaced l key value).map (·.1)).Nodup := by
  unfold replaced
  rw [map_cons, nodup_cons]
  constructor
  · intro hm
    obtain ⟨e, he, heq⟩ := mem_map.mp hm
    exact of_decide_eq_true (mem_filter.mp he).2 heq
  · exact hnd.sublist (filter_sublist.map _)

variable {old : WString}

theorem perm_assign (hnd : (l.map (·.1)).Nodup) (h : l.lookup key = some old) :
    (l.map fun e => if e.1 = key then (key, value) else e).Perm (replaced l key value) := by
  have hm := (perm_cons_filter hnd h).map fun e => if e.1 = key then (key, value) else e
  rw [map_cons, if_pos rfl] at hm
  refine hm.trans (List.Perm.cons _ ?_)
  have hsm : (l.filter fun e => e.1 ≠ key).map
      (fun e => if e.1 = key then (key, value) else e) = l.filter fun e => e.1 ≠ key := by
    refine (map_congr_left fun e he => ?_).trans (map_id _)
    exact if_neg (of_decide_eq_true (mem_filter.mp he).2)
  rw [hsm]

theorem add_spec (ha : m.add key value order = some m') (hnd : (m.map.map (·.1)).Nodup)
    (hlt : m.length < maximumKeyCount) :
    m'.map.Perm (replaced m.map key value) ∧ m'.length < maximumKeyCount ∧
      m'.currentLength = m.currentLength ∧ m'.quotaSize = m.quotaSize ∧
      m'.createdWith = m.createdWith := by
  revert ha
  fun_cases add m key value order <;> rintro ⟨⟩
  case case1 old hg =>
    refine ⟨perm_assign hnd hg, ?_, rfl, rfl, rfl⟩
    show (m.map.map _).length < _
    rwa [length_map]
  case case2 hg hord =>
    refine ⟨?_, hord.2, rfl, rfl, rfl⟩
    unfold replaced
    rw [filter_of_lookup_none hg]
    exact hord.1

theorem setItem_spec {exception : Bool} (hm : m.Inv) (hr : m.currentLength = totalLength m.map)
    (hnd : (m.map.map (·.1)).Nodup)
    (hs : m.setItem key value order = some (m', exception)) :
    (exception = true ↔ m.quotaSize ≠ noQuota ∧
        (2 ^ 32 ≤ m.currentLength + value.length ∨
          m.quotaSize < 2 * totalLength (replaced m.map key value))) ∧
      (exception = true → m' = m) ∧
      (exception = false → m'.Inv ∧ m'.iterator = none ∧
        m'.map.Perm (replaced m.map key value) ∧
        m'.currentLength = totalLength (replaced m.map key value) % 2 ^ 32 ∧
        m'.quotaSize = m.quotaSize ∧ m'.createdWith = m.createdWith) := by
  obtain ⟨hfst, hsnd⟩ := newLength_spec key value hr hm.currentLength_lt hnd
  have hquo := hm.quotaSize_lt
  unfold setItem at hs
  generalize m.newLength key value = result at hs hfst hsnd
  obtain ⟨newLength, overflow⟩ := result
  dsimp only at hs hfst hsnd
  have hov : (overflow || decide (newLength > m.quotaSize / 2)) = true ↔
      2 ^ 32 ≤ m.currentLength + value.length ∨
        m.quotaSize < 2 * totalLength (replaced m.map key value) := by
    rw [Bool.or_eq_true, hsnd, decide_eq_true_eq, hfst]
    omega
  split at hs
  case isTrue hexc =>
    cases hs
    exact ⟨iff_of_true rfl ⟨hexc.1, hov.mp hexc.2⟩, fun _ => rfl, nofun⟩
  case isFalse hft =>
    obtain ⟨m₁, ha, ⟨⟩⟩ := map_eq_some_iff.mp hs
    obtain ⟨hpr, hlt, hl, hquo', hcrt⟩ := add_spec ha hnd hm.length_lt
    refine ⟨iff_of_false Bool.false_ne_true (fun h => hft ⟨h.1, hov.mpr h.2⟩),
      nofun, fun _ => ⟨⟨.inl ⟨rfl, rfl⟩, hlt, ?_, ?_⟩, rfl, hpr, hl.trans hfst, hquo', hcrt⟩⟩
    · show m₁.currentLength < 2 ^ 32
      rw [hl, hfst]
      exact Nat.mod_lt _ (by decide)
    · show m₁.quotaSize < 2 ^ 32
      rw [hquo']
      exact hquo

theorem removeItem_spec (hm : m.Inv) (hr : m.Right) (hrem : m.removeItem key order = some m') :
    m'.Inv ∧ m'.Right := by
  revert hrem
  fun_cases removeItem m key order <;> rintro ⟨⟩
  case case1 old hg hord =>
    have hpr : m.map.Perm ((key, old) :: order) := (perm_cons_eraseP hg).trans (hord.symm.cons _)
    have htot := (totalLength_perm hpr).trans (totalLength_cons _ _)
    dsimp only at htot
    have hl : order.length + 1 = m.map.length := hpr.length_eq.symm
    have hlt : m.map.length < maximumKeyCount := hm.length_lt
    have hc := hr.currentLength
    have hcurrent_lt := hm.currentLength_lt
    have hnd : (order.map (·.1)).Nodup := (nodup_cons.mp ((hpr.map (·.1)).nodup_iff.mp hr.nodup)).2
    have hinv : Inv { m.invalidateIterator with
        map := order
        version := m.version + 1
        currentLength :=
          unsigned (unsigned (m.currentLength + (2 ^ 32 - key.length)) +
            (2 ^ 32 - old.length)) } := by
      refine ⟨.inl ⟨rfl, rfl⟩, ?_, Nat.mod_lt _ (by decide), hm.quotaSize_lt⟩
      show order.length < maximumKeyCount
      omega
    refine ⟨hinv, (right_iff hinv hnd (iteratorValid_of_none rfl)).mpr ⟨?_, hr.quotaSize⟩⟩
    show unsigned (unsigned _ + _) = totalLength order
    unfold unsigned
    omega
  case case3 => exact ⟨hm, hr⟩

theorem importLength_eq (its : Entries) {n : Nat} (hn : n < 2 ^ 32) :
    importLength n its = (n + totalLength its) % 2 ^ 32 := by
  unfold importLength
  induction its generalizing n with
  | nil =>
    rw [foldl_nil, totalLength, map_nil, sum_nil, add_zero, Nat.mod_eq_of_lt hn]
  | cons e rest ih =>
    have hlt : unsigned (unsigned (n + e.1.length) + e.2.length) < 2 ^ 32 :=
      Nat.mod_lt _ (by decide)
    rw [foldl_cons, ih hlt, totalLength_cons]
    unfold unsigned
    omega

theorem importItems_spec {its : Entries} (hm : m.Inv) (hr : m.Right) (hits : its ≠ [])
    (himp : m.importItems its order = some m') :
    m'.Inv ∧ m'.map.length = its.length + m.map.length ∧
      (m'.Right ↔ m.iterator = none ∧ m.currentLength + totalLength its < 2 ^ 32) := by
  have hne : its.isEmpty = false := by
    rw [Bool.eq_false_iff]
    exact fun h => hits (isEmpty_iff.mp h)
  have hp := length_pos_iff.mpr hits
  unfold importItems at himp
  rw [hne, if_neg Bool.false_ne_true] at himp
  split at himp
  case isFalse => cases himp
  case isTrue hord =>
    obtain ⟨hpr, hlt, hnd⟩ := hord
    cases himp
    have hl : order.length = its.length + m.map.length := hpr.length_eq.trans length_append
    have htot := (totalLength_perm hpr).trans (totalLength_append _ _)
    have hc := hr.currentLength
    have himl := importLength_eq its hm.currentLength_lt
    have hinv : Inv { m with
        map := order
        version := m.version + its.length
        currentLength := importLength m.currentLength its } := by
      refine ⟨?_, hlt, ?_, hm.quotaSize_lt⟩
      · refine hm.iteratorAt.imp_right ?_
        rintro ⟨it, hit, hps, hi⟩
        refine ⟨it, hit, hps, ?_⟩
        change m.iteratorIndex < m.map.length at hi
        show m.iteratorIndex < order.length
        omega
      · show importLength m.currentLength its < 2 ^ 32
        rw [himl]
        exact Nat.mod_lt _ (by decide)
    refine ⟨hinv, hl, fun hr' => ⟨?_, ?_⟩, fun h => ?_⟩
    · -- a valid iterator would have to be one of both versions
      cases hir : m.iterator with
      | none => rfl
      | some it =>
        have hold := hr.iteratorValid hm it hir
        have hnew : it.version = m.version + its.length := hr'.iteratorValid hinv it hir
        omega
    · have hl' : importLength m.currentLength its = totalLength order := hr'.currentLength
      omega
    · refine (right_iff hinv hnd (iteratorValid_of_none h.1)).mpr ⟨?_, hr.quotaSize⟩
      show importLength m.currentLength its = totalLength order
      rw [himl, htot, hc, Nat.mod_eq_of_lt (hc ▸ h.2), add_comm]

theorem key_result {idx : Nat} {k : Option WString} (hm : m.Inv) (hr : m.Right)
    (hk : m.key idx = some (k, m')) : m'.Inv ∧ m'.Right ∧ m'.map = m.map := by
  by_cases hlt : idx < m.length
  · rw [key_spec hm.iteratorAt (hr.iteratorValid hm) hm.length_le hlt] at hk
    obtain ⟨_, rfl⟩ := Prod.mk.inj (some.inj hk)
    have hinv : Inv { m with iterator := some ⟨m.version, idx⟩, iteratorIndex := idx } :=
      ⟨.inr ⟨_, rfl, rfl, hlt⟩, hm.length_lt, hm.currentLength_lt, hm.quotaSize_lt⟩
    refine ⟨hinv, (right_iff hinv hr.nodup ?_).mpr ⟨hr.currentLength, hr.quotaSize⟩, rfl⟩
    intro it hit
    rw [← some.inj hit]
  · unfold key at hk
    rw [if_pos (not_lt.mp hlt)] at hk
    obtain ⟨_, rfl⟩ := Prod.mk.inj (some.inj hk)
    exact ⟨hm, hr, rfl⟩

theorem copy_spec {copied : Entries} (hm : m.Inv) (hcp : m.copy copied = some m') :
    m'.Inv ∧ m'.map.Perm m.map ∧ m'.currentLength = m.currentLength ∧
      m'.quotaSize = m.quotaSize ∧ m'.createdWith = m.createdWith ∧ m'.iterator = none := by
  unfold copy at hcp
  split at hcp
  case isFalse => cases hcp
  case isTrue hpr =>
    cases hcp
    refine ⟨⟨.inl ⟨rfl, rfl⟩, ?_, hm.currentLength_lt, hm.quotaSize_lt⟩, hpr, rfl, rfl, rfl, rfl⟩
    show copied.length < maximumKeyCount
    rw [hpr.length_eq]
    exact hm.length_lt

end

end StorageMap

/-! ## Handles -/

section

variable {α : Type*} [BEq α] [LawfulBEq α] {l : List α} {x : α} {i j : Nat}

theorem one_lt_count_iff :
    1 < l.count x ↔ ∃ i j : Nat, i < j ∧ l[i]? = some x ∧ l[j]? = some x := by
  classical
  obtain rfl : ‹BEq α› = instBEqOfDecidableEq := lawful_beq_subsingleton _ _
  refine duplicate_iff_two_le_count.symm.trans (duplicate_iff_exists_distinct_get.trans ⟨?_, ?_⟩)
  · rintro ⟨n, m, hnm, rfl, hm⟩
    exact ⟨n, m, hnm, getElem?_eq_getElem n.2, hm ▸ getElem?_eq_getElem m.2⟩
  · rintro ⟨i, j, hij, hi, hj⟩
    obtain ⟨hi', hi⟩ := List.getElem?_eq_some_iff.mp hi
    obtain ⟨hj', hj⟩ := List.getElem?_eq_some_iff.mp hj
    exact ⟨⟨i, hi'⟩, ⟨j, hj'⟩, hij, hi.symm, hj.symm⟩

theorem one_lt_count (hij : i ≠ j) (hi : l[i]? = some x) (hj : l[j]? = some x) : 1 < l.count x := by
  rcases lt_or_gt_of_ne hij with hlt | hgt
  · exact one_lt_count_iff.mpr ⟨i, j, hlt, hi, hj⟩
  · exact one_lt_count_iff.mpr ⟨j, i, hgt, hj, hi⟩

theorem exists_other (hc : 1 < l.count x) (i : Nat) : ∃ j ≠ i, l[j]? = some x := by
  obtain ⟨a, b, hab, ha, hb⟩ := one_lt_count_iff.mp hc
  by_cases hai : a = i
  · exact ⟨b, hai ▸ hab.ne', hb⟩
  · exact ⟨a, hai, ha⟩

end

namespace World

/-- Every handle refers to a map. -/
structure Inv (w : World) : Prop where
  maps : ∀ m ∈ w.maps, m.Inv
  handles : ∀ map, some map ∈ w.handles → map < w.maps.length

/-- What a handle refers to after an operation through it, and that nothing else changed. -/
structure Written (w : World) (handle : Nat) (m : StorageMap) (w' : World) : Prop where
  others : ∀ handle' ≠ handle, w.contents[handle']? = w'.contents[handle']?
  self : w'.contents[handle]? = some (some m.map)
  right_iff : (∀ m ∈ w.maps, m.Right) → ((∀ m ∈ w'.maps, m.Right) ↔ m.Right)
  inv : w.Inv → m.Inv → w'.Inv

section

variable {w w' : World} {handle map : Nat} {m m' : StorageMap}

theorem getElem?_contents (w : World) (handle : Nat) :
    w.contents[handle]? = w.handles[handle]?.map w.entriesOf := getElem?_map

theorem mapOf_eq (h : w.mapOf handle = some (map, m)) :
    w.handles[handle]? = some (some map) ∧ w.maps[map]? = some m := by
  unfold mapOf at h
  split at h
  case h_1 map' hg =>
    obtain ⟨m', hm, ⟨⟩⟩ := map_eq_some_iff.mp h
    exact ⟨hg, hm⟩
  case h_2 => cases h

theorem contents_eq (hhdl : w.handles[handle]? = some (some map)) (hm : w.maps[map]? = some m) :
    w.contents[handle]? = some (some m.map) := by
  rw [getElem?_contents, hhdl, map_some]
  unfold entriesOf
  rw [bind_some, hm]
  rfl

theorem contents_congr (hhdl : w'.handles[handle]? = w.handles[handle]?)
    (hm : ∀ map, w.handles[handle]? = some (some map) →
      w'.maps[map]?.map (·.map) = w.maps[map]?.map (·.map)) :
    w.contents[handle]? = w'.contents[handle]? := by
  rw [getElem?_contents, getElem?_contents, hhdl]
  rcases hg : w.handles[handle]? with _ | _ | map
  · rfl
  · rfl
  · exact (congrArg some (hm map hg)).symm

theorem inv_set (hinv : w.Inv) (hm' : m'.Inv) : (w.set map m').Inv := by
  refine ⟨fun x hx => ?_, fun map' hmap' => ?_⟩
  · rcases mem_or_eq_of_mem_set hx with hx | rfl
    · exact hinv.maps x hx
    · exact hm'
  · show map' < (w.maps.set map m').length
    rw [length_set]
    exact hinv.handles map' hmap'

/-- A map is changed in place, and the other handles do not refer to it or see no change. -/
theorem written_set (hmapOf : w.mapOf handle = some (map, m))
    (hsh : w.refCount map ≤ 1 ∨ m'.map = m.map) : Written w handle m' (w.set map m') := by
  obtain ⟨hhdl, hm⟩ := mapOf_eq hmapOf
  have hlt := (List.getElem?_eq_some_iff.mp hm).1
  refine ⟨fun handle' hne => contents_congr rfl fun map' hoth => ?_,
    contents_eq hhdl (getElem?_set_self hlt), ?_, inv_set⟩
  · show (w.maps.set map m')[map']?.map _ = _
    by_cases heq : map = map'
    · subst heq
      rw [getElem?_set_self hlt, hm]
      rcases hsh with hc | hsm
      · exact absurd (one_lt_count hne hoth hhdl) (not_lt.mpr hc)
      · rw [map_some, map_some, hsm]
    · rw [getElem?_set_ne heq]
  · intro hr
    refine ⟨fun h => h m' (mem_set hlt m'), fun h x hx => ?_⟩
    rcases mem_or_eq_of_mem_set hx with hx | rfl
    · exact hr x hx
    · exact h

theorem written_replace (hinv : w.Inv) (hmapOf : w.mapOf handle = some (map, m)) :
    Written w handle m' (w.replace handle m') := by
  obtain ⟨hhdl, _⟩ := mapOf_eq hmapOf
  have hlt := (List.getElem?_eq_some_iff.mp hhdl).1
  refine ⟨fun handle' hne => contents_congr (getElem?_set_ne hne.symm) fun map' hoth => ?_,
    contents_eq (getElem?_set_self hlt) getElem?_concat_length, ?_, ?_⟩
  · show (w.maps ++ [m'])[map']?.map _ = _
    rw [getElem?_append_left (hinv.handles map' (mem_of_getElem? hoth))]
  · intro hr
    exact ⟨fun h => h m' (mem_append_right _ (mem_singleton.mpr rfl)),
      fun h => forall_mem_append.mpr ⟨hr, forall_mem_singleton.mpr h⟩⟩
  · intro _ hm'
    refine ⟨forall_mem_append.mpr ⟨hinv.maps, forall_mem_singleton.mpr hm'⟩, fun map' hmap' => ?_⟩
    show map' < (w.maps ++ [m']).length
    rw [length_append, length_singleton]
    rcases mem_or_eq_of_mem_set hmap' with hmap' | heq
    · exact Nat.lt_succ_of_lt (hinv.handles map' hmap')
    · rw [some.inj heq]
      exact Nat.lt_succ_self _

theorem holds_observe {setItem : Option (Nat × (WString × WString) × Bool)} (hw : w.Holds) :
    (w.observe w' handle setItem).Holds ↔ (∀ m ∈ w'.maps, m.Right) ∧
      Observation.Right ⟨handle, w.contents, w'.contents, setItem⟩ := by
  refine ⟨fun h => ⟨h.maps, h.observations _ mem_cons_self⟩, fun h => ⟨h.1, ?_⟩⟩
  exact forall_mem_cons.mpr ⟨h.2, hw.observations⟩

theorem Written.observed (hwr : Written w handle m' w') (hinv : w.Inv) (hw : w.Holds)
    (hm' : m'.Inv) : (w.observe w' handle none).Inv ∧
      ((w.observe w' handle none).Holds ↔ m'.Right) := by
  refine ⟨⟨(hwr.inv hinv hm').maps, (hwr.inv hinv hm').handles⟩, ?_⟩
  rw [holds_observe hw, hwr.right_iff hw.maps]
  refine ⟨fun h => h.1, fun h => ⟨h, hwr.others, ?_⟩⟩
  rintro quo key value exception ⟨⟩

end

/-! ## Steps -/

/-- `setItem` does not overflow, or reports an exception that has to be reported. -/
def SetItemFits (m : StorageMap) (key value : WString) : Prop :=
  if m.quotaSize = StorageMap.noQuota then totalLength (replaced m.map key value) < 2 ^ 32
  else m.currentLength + value.length < 2 ^ 32 ∨
    m.quotaSize < 2 * totalLength (replaced m.map key value)

def Meets (w : World) : Event → Prop
  | .setItem handle key value _ _ => ∀ map m, w.mapOf handle = some (map, m) →
      SetItemFits m key value
  | .setItemIgnoringQuota handle key value _ _ => ∀ map m, w.mapOf handle = some (map, m) →
      totalLength (replaced m.map key value) < 2 ^ 32 ∧
        (w.refCount map > 1 → m.quotaSize = StorageMap.noQuota)
  | .importItems handle items _ => ∀ map m, w.mapOf handle = some (map, m) → items ≠ [] →
      w.refCount map ≤ 1 ∧ m.iterator = none ∧ m.currentLength + totalLength items < 2 ^ 32
  | _ => True

section

variable {w w' : World} {handle map : Nat} {m m' m₁ : StorageMap}

theorem forall_mapOf {P : Nat → StorageMap → Prop} (h : w.mapOf handle = some (map, m)) :
    (∀ map' m', w.mapOf handle = some (map', m') → P map' m') ↔ P map m := by
  refine ⟨fun ha => ha map m h, fun hP map' m' h' => ?_⟩
  obtain ⟨rfl, rfl⟩ := Prod.mk.inj (some.inj (h'.symm.trans h))
  exact hP

/-- The map that copy-on-write works on. -/
structure Working (m m₁ : StorageMap) : Prop where
  inv : m₁.Inv
  right : m₁.Right
  perm : m₁.map.Perm m.map
  currentLength : m₁.currentLength = m.currentLength
  quotaSize : m₁.quotaSize = m.quotaSize

theorem Working.totalLength_replaced (h : Working m m₁) (key value : WString) :
    totalLength (replaced m₁.map key value) = totalLength (replaced m.map key value) :=
  totalLength_perm ((h.perm.filter _).cons _)

variable {copied order : Entries} {key value : WString}

theorem copyOnWrite_spec {β : Type} {mutate : StorageMap → Option (StorageMap × β)} {r : β}
    (hinv : w.Inv) (hw : w.Holds) (hmapOf : w.mapOf handle = some (map, m))
    (h : w.copyOnWrite handle map m copied mutate = some (w', r)) :
    ∃ m₁ m', Working m m₁ ∧ mutate m₁ = some (m', r) ∧ Written w handle m' w' := by
  have hmem := mem_of_getElem? (mapOf_eq hmapOf).2
  have hm := hinv.maps m hmem
  have hr := hw.maps m hmem
  unfold copyOnWrite at h
  split at h
  case isTrue =>
    obtain ⟨m₁, hcp, h⟩ := bind_eq_some_iff.mp h
    obtain ⟨⟨m', r'⟩, hmut, h⟩ := bind_eq_some_iff.mp h
    cases h
    obtain ⟨hinv₁, hpr, hl, hquo, hcrt, hit⟩ := copy_spec hm hcp
    have hr₁ : m₁.Right := by
      refine (right_iff hinv₁ ((hpr.map (·.1)).nodup_iff.mpr hr.nodup)
        (iteratorValid_of_none hit)).mpr ⟨?_, ?_⟩
      · rw [hl, hr.currentLength, totalLength_perm hpr]
      · rw [hquo, hcrt, hr.quotaSize]
    exact ⟨m₁, m', ⟨hinv₁, hr₁, hpr, hl, hquo⟩, hmut, written_replace hinv hmapOf⟩
  case isFalse hc =>
    obtain ⟨⟨m', r'⟩, hmut, h⟩ := bind_eq_some_iff.mp h
    cases h
    exact ⟨m, m', ⟨hm, hr, List.Perm.refl _, rfl, rfl⟩, hmut,
      written_set hmapOf (.inl (not_lt.mp hc))⟩

variable {exception : Bool}

theorem right_of_setItem (hm : m₁.Inv) (hl : m₁.currentLength = totalLength m₁.map)
    (hnd : (m₁.map.map (·.1)).Nodup) (hs : m₁.setItem key value order = some (m', exception))
    (hno : exception = false) :
    m'.Right ↔ totalLength (replaced m₁.map key value) < 2 ^ 32 ∧
      m₁.quotaSize = m₁.createdWith := by
  obtain ⟨hinv', hit, hpr, hl', hquo, hcrt⟩ := (setItem_spec hm hl hnd hs).2.2 hno
  rw [right_iff hinv'
    ((hpr.map (·.1)).nodup_iff.mpr (nodup_replaced hnd key value))
    (iteratorValid_of_none hit), hl', hquo, hcrt,
    totalLength_perm hpr]
  omega

section

variable (hinv : w.Inv) (hw : w.Holds) (hmapOf : w.mapOf handle = some (map, m))

include hinv hw hmapOf

theorem step_setItem (hwri : w.copyOnWrite handle map m copied (fun m => m.setItem key value
      order) = some (w', exception)) :
    (w.observe w' handle (some (m.quotaSize, (key, value), exception))).Inv ∧
      ((w.observe w' handle (some (m.quotaSize, (key, value), exception))).Holds ↔
        SetItemFits m key value) := by
  obtain ⟨m₁, m', hwr, hs, hwn⟩ := copyOnWrite_spec hinv hw hmapOf hwri
  have hr := hwr.right
  obtain ⟨hecp, hsm, hs'⟩ := setItem_spec hwr.inv hr.currentLength hr.nodup hs
  rw [hwr.quotaSize, hwr.currentLength, hwr.totalLength_replaced] at hecp
  have hinv' : m'.Inv := by
    cases exception with
    | true => exact hsm rfl ▸ hwr.inv
    | false => exact (hs' rfl).1
  have hr' : m'.Right ↔ exception = true ∨ totalLength (replaced m.map key value) < 2 ^ 32 := by
    cases hexc : exception with
    | true => exact iff_of_true (hsm hexc ▸ hr) (.inl rfl)
    | false =>
      rw [right_of_setItem hwr.inv hr.currentLength hr.nodup hs hexc, hwr.totalLength_replaced]
      simp [hr.quotaSize]
  obtain ⟨hhdl, hmap⟩ := mapOf_eq hmapOf
  have hbef := contents_eq hhdl hmap
  have hquo := (hinv.maps m (mem_of_getElem? hmap)).quotaSize_lt
  refine ⟨⟨(hwn.inv hinv hinv').maps, (hwn.inv hinv hinv').handles⟩, ?_⟩
  rw [holds_observe hw, hwn.right_iff hw.maps, hr']
  -- the exception is right exactly if it is not reported for an overflow only
  have hob : Observation.Right ⟨handle, w.contents, w'.contents,
      some (m.quotaSize, (key, value), exception)⟩ ↔
        (exception = true ↔ Exceeds m.quotaSize m.map key value) := by
    constructor
    · intro hobs
      obtain ⟨entries, _, hens, _, hi, _⟩ := hobs.exception _ _ _ _ rfl
      obtain rfl := some.inj (some.inj (hens.symm.trans hbef))
      exact hi
    · intro hi
      refine ⟨hwn.others, fun quo key' value' exception' heq => ?_⟩
      obtain ⟨rfl, ⟨rfl, rfl⟩, rfl⟩ := heq
      refine ⟨m.map, m'.map, hbef, hwn.self, hi, fun hexc => ?_⟩
      rw [hsm hexc]
      exact hwr.perm
  rw [hob, hecp]
  unfold SetItemFits Exceeds
  split
  case isTrue hno => simp [hno]
  case isFalse hyes =>
    omega

theorem step_removeItem {r : Unit} (hwri : w.copyOnWrite handle map m copied (fun m =>
      (m.removeItem key order).map fun m => (m, ())) = some (w', r)) :
    (w.observe w' handle none).Inv ∧ (w.observe w' handle none).Holds := by
  obtain ⟨m₁, m', hwr, hrem, hwn⟩ := copyOnWrite_spec hinv hw hmapOf hwri
  obtain ⟨m₂, hrmd, ⟨⟩⟩ := map_eq_some_iff.mp hrem
  obtain ⟨hinv', hr'⟩ := removeItem_spec hwr.inv hwr.right hrmd
  obtain ⟨hinv₁, hi⟩ := hwn.observed hinv hw hinv'
  exact ⟨hinv₁, hi.mpr hr'⟩

theorem step_key {idx : Nat} {k : Option WString} (hk : m.key idx = some (k, m')) :
    (w.observe (w.set map m') handle none).Inv ∧ (w.observe (w.set map m') handle none).Holds := by
  have hm := mem_of_getElem? (mapOf_eq hmapOf).2
  obtain ⟨hinv', hr', hsm⟩ := key_result (hinv.maps m hm) (hw.maps m hm) hk
  obtain ⟨hinv₁, hi⟩ := (written_set hmapOf (.inr hsm)).observed hinv hw hinv'
  exact ⟨hinv₁, hi.mpr hr'⟩

end

theorem setItem_noQuota (hm : m₁.Inv) (hl : m₁.currentLength = totalLength m₁.map)
    (hnd : (m₁.map.map (·.1)).Nodup) (hquo : m₁.quotaSize = noQuota)
    (hs : m₁.setItem key value order = some (m', exception)) : exception = false := by
  rw [Bool.eq_false_iff]
  intro hexc
  exact ((setItem_spec hm hl hnd hs).1.mp hexc).1 hquo

theorem inv_noQuota (hm : m.Inv) : StorageMap.Inv { m with quotaSize := noQuota } :=
  ⟨hm.iteratorAt, hm.length_lt, hm.currentLength_lt, Nat.sub_lt (Nat.two_pow_pos 32) Nat.one_pos⟩

theorem setItemIgnoringQuota_spec (hinv : w.Inv) (hw : w.Holds)
    (hmapOf : w.mapOf handle = some (map, m))
    (h : w.setItemIgnoringQuota handle map m copied key value order = some w') :
    ∃ m', Written w handle m' w' ∧ m'.Inv ∧
      (m'.Right ↔ totalLength (replaced m.map key value) < 2 ^ 32 ∧
        (w.refCount map > 1 → m.quotaSize = noQuota)) := by
  have hmem := mem_of_getElem? (mapOf_eq hmapOf).2
  have hm := hinv.maps m hmem
  have hr := hw.maps m hmem
  unfold setItemIgnoringQuota at h
  split at h
  case isTrue hc =>
    -- the copy is made while the quota is changed, and keeps it
    obtain ⟨m₁, hcp, h⟩ := bind_eq_some_iff.mp h
    obtain ⟨⟨m', exception⟩, hs, h⟩ := bind_eq_some_iff.mp h
    cases h
    obtain ⟨hinv₁, hpr, hl, hquo, hcrt, _⟩ := copy_spec (inv_noQuota hm) hcp
    have hl₁ : m₁.currentLength = totalLength m₁.map := by
      rw [hl, totalLength_perm hpr]
      exact hr.currentLength
    have hnd₁ := (hpr.map (·.1)).nodup_iff.mpr hr.nodup
    have hno := setItem_noQuota hinv₁ hl₁ hnd₁ hquo hs
    refine ⟨m', written_replace hinv hmapOf, ((setItem_spec hinv₁ hl₁ hnd₁ hs).2.2 hno).1, ?_⟩
    have htot : totalLength (replaced m₁.map key value) =
        totalLength (replaced m.map key value) := totalLength_perm ((hpr.filter _).cons _)
    rw [right_of_setItem hinv₁ hl₁ hnd₁ hs hno, htot, hquo, hcrt]
    show _ ∧ noQuota = m.createdWith ↔ _
    rw [← hr.quotaSize]
    exact and_congr_right fun _ => ⟨fun h _ => h.symm, fun h => (h hc).symm⟩
  case isFalse hc =>
    obtain ⟨⟨m', exception⟩, hs, h⟩ := bind_eq_some_iff.mp h
    cases h
    have hno := setItem_noQuota (inv_noQuota hm) hr.currentLength hr.nodup rfl hs
    obtain ⟨hinv', hit, hpr, hl', _, hcrt⟩ :=
      (setItem_spec (inv_noQuota hm) hr.currentLength hr.nodup hs).2.2 hno
    have hinv'' : StorageMap.Inv { m' with quotaSize := m.quotaSize } :=
      ⟨hinv'.iteratorAt, hinv'.length_lt, hinv'.currentLength_lt, hm.quotaSize_lt⟩
    refine ⟨_, written_set hmapOf (.inl (not_lt.mp hc)), hinv'', ?_⟩
    rw [right_iff hinv''
      ((hpr.map (·.1)).nodup_iff.mpr (nodup_replaced hr.nodup key value))
      (iteratorValid_of_none hit)]
    show m'.currentLength = totalLength m'.map ∧ m.quotaSize = m'.createdWith ↔ _
    rw [hl', hcrt, totalLength_perm hpr, hr.quotaSize]
    simp only [hc, false_implies, and_true]
    omega

theorem refCount_le_of_others (hmapOf : w.mapOf handle = some (map, m)) (hne : m'.map ≠ m.map)
    (hots : ∀ handle' ≠ handle, w.contents[handle']? = (w.set map m').contents[handle']?) :
    w.refCount map ≤ 1 := by
  obtain ⟨hhdl, hm⟩ := mapOf_eq hmapOf
  have hlt := (List.getElem?_eq_some_iff.mp hm).1
  by_contra hc
  obtain ⟨oth, hoth, hg⟩ := exists_other (not_le.mp hc) handle
  have heq := hots oth hoth
  rw [contents_eq hg hm, contents_eq (w := w.set map m') hg (getElem?_set_self hlt)] at heq
  exact hne (some.inj (some.inj heq)).symm

theorem step_importItems {its : Entries} (hinv : w.Inv) (hw : w.Holds)
    (hmapOf : w.mapOf handle = some (map, m))
    (himp : m.importItems its order = some m') :
    (w.observe (w.set map m') handle none).Inv ∧
      ((w.observe (w.set map m') handle none).Holds ↔ (its ≠ [] → w.refCount map ≤ 1 ∧
        m.iterator = none ∧ m.currentLength + totalLength its < 2 ^ 32)) := by
  have hm := mem_of_getElem? (mapOf_eq hmapOf).2
  by_cases hits : its = []
  · subst hits
    cases himp
    obtain ⟨hinv₁, hi⟩ := (written_set hmapOf (.inr rfl)).observed hinv hw (hinv.maps m hm)
    exact ⟨hinv₁, iff_of_true (hi.mpr (hw.maps m hm)) fun h => absurd rfl h⟩
  · obtain ⟨hinv', hl, hr'⟩ := importItems_spec (hinv.maps m hm) (hw.maps m hm) hits himp
    have hne : m'.map ≠ m.map := by
      intro heq
      rw [heq] at hl
      have := length_pos_iff.mpr hits
      omega
    have hobs := fun hc => (written_set hmapOf (.inl hc)).observed hinv hw hinv'
    have hw₁ : (w.set map m').Inv := inv_set hinv hinv'
    refine ⟨⟨hw₁.maps, hw₁.handles⟩, fun hhd _ => ?_, fun hmts => ?_⟩
    · have hc := refCount_le_of_others hmapOf hne (hhd.observations _ mem_cons_self).others
      exact ⟨hc, hr'.mp ((hobs hc).2.mp hhd)⟩
    · obtain ⟨hc, hmts⟩ := hmts hits
      exact (hobs hc).2.mpr (hr'.mpr hmts)

theorem step_create {quo : Nat} (hinv : w.Inv) (hw : w.Holds) (hquo : quo < 2 ^ 32) :
    Inv { w with
      maps := w.maps ++ [.create quo]
      handles := w.handles ++ [some w.maps.length] } ∧
    Holds { w with
      maps := w.maps ++ [.create quo]
      handles := w.handles ++ [some w.maps.length] } := by
  have hcrt : (create quo).Inv := ⟨.inl ⟨rfl, rfl⟩, Nat.two_pow_pos 31, Nat.two_pow_pos 32, hquo⟩
  have hr : (create quo).Right :=
    (right_iff hcrt nodup_nil (iteratorValid_of_none rfl)).mpr ⟨rfl, rfl⟩
  refine ⟨⟨forall_mem_append.mpr ⟨hinv.maps, forall_mem_singleton.mpr hcrt⟩,
      fun map hm => ?_⟩,
    forall_mem_append.mpr ⟨hw.maps, forall_mem_singleton.mpr hr⟩, hw.observations⟩
  show map < (w.maps ++ [create quo]).length
  rw [length_append, length_singleton]
  rcases mem_append.mp hm with hm | hm
  · exact Nat.lt_succ_of_lt (hinv.handles map hm)
  · rw [some.inj (mem_singleton.mp hm)]
    exact Nat.lt_succ_self _

theorem inv_share (hinv : w.Inv) (hmapOf : w.mapOf handle = some (map, m)) :
    Inv { w with handles := w.handles ++ [some map] } := by
  refine ⟨hinv.maps, fun map' hm' => ?_⟩
  rcases mem_append.mp hm' with hm' | hm'
  · exact hinv.handles map' hm'
  · rw [some.inj (mem_singleton.mp hm')]
    exact (List.getElem?_eq_some_iff.mp (mapOf_eq hmapOf).2).1

theorem inv_release (hinv : w.Inv) (handle : Nat) :
    Inv { w with handles := w.handles.set handle none } := by
  refine ⟨hinv.maps, fun map' hm' => ?_⟩
  rcases mem_or_eq_of_mem_set hm' with hm' | heq
  · exact hinv.handles map' hm'
  · cases heq

end

/-- From a state where everything holds, the invariant is kept, and everything still holds exactly
if the event meets its condition. -/
theorem step_spec {w w' : World} {e : Event} (hinv : w.Inv) (hw : w.Holds)
    (hst : w.step e = some w') : w'.Inv ∧ (w'.Holds ↔ w.Meets e) := by
  revert hst
  fun_cases step w e <;> intro hst <;> try cases hst
  case case1.refl quota hquo =>
    exact (step_create hinv hw hquo).imp_right fun h => iff_of_true h trivial
  case case4.refl handle map m hmapOf =>
    exact ⟨inv_share hinv hmapOf, iff_of_true ⟨hw.maps, hw.observations⟩ trivial⟩
  case case5.refl handle =>
    exact ⟨inv_release hinv handle, iff_of_true ⟨hw.maps, hw.observations⟩ trivial⟩
  case case7 handle key value copied order map m hmapOf =>
    obtain ⟨⟨w₁, exception⟩, hwri, rfl⟩ := map_eq_some_iff.mp hst
    obtain ⟨hinv', hi⟩ := step_setItem hinv hw hmapOf hwri
    exact ⟨hinv', hi.trans (forall_mapOf (P := fun _ m => SetItemFits m key value) hmapOf).symm⟩
  case case9 handle key value copied order map m hmapOf =>
    obtain ⟨w₁, hwri, rfl⟩ := map_eq_some_iff.mp hst
    obtain ⟨m', hwr, hinv', hr'⟩ := setItemIgnoringQuota_spec hinv hw hmapOf hwri
    obtain ⟨hinv₁, hi⟩ := hwr.observed hinv hw hinv'
    exact ⟨hinv₁, (hi.trans hr').trans (forall_mapOf (P := fun map m =>
      totalLength (replaced m.map key value) < 2 ^ 32 ∧
        (w.refCount map > 1 → m.quotaSize = noQuota)) hmapOf).symm⟩
  case case11 handle key copied order map m hmapOf =>
    obtain ⟨⟨w₁, _⟩, hwri, rfl⟩ := map_eq_some_iff.mp hst
    exact (step_removeItem hinv hw hmapOf hwri).imp_right fun h => iff_of_true h trivial
  case case13 handle its order map m hmapOf =>
    obtain ⟨m', himp, rfl⟩ := map_eq_some_iff.mp hst
    obtain ⟨hinv', hi⟩ := step_importItems hinv hw hmapOf himp
    exact ⟨hinv', hi.trans (forall_mapOf (P := fun map m => its ≠ [] →
      w.refCount map ≤ 1 ∧ m.iterator = none ∧
        m.currentLength + totalLength its < 2 ^ 32) hmapOf).symm⟩
  case case15 handle idx map m hmapOf =>
    obtain ⟨⟨k, m'⟩, hk, rfl⟩ := map_eq_some_iff.mp hst
    exact (step_key hinv hw hmapOf hk).imp_right fun h => iff_of_true h trivial

/-- **Storage maps.** Whatever is done through any number of handles, the four properties hold
in every state exactly if every event meets its condition: no length overflows, a map with a
quota is not shared when the quota is ignored, and a map that items are imported into is not
shared and has no iterator. -/
theorem storageMaps_right (events : List Event) :
    Runs.AllStates step Holds initial events ↔ Runs.AllSteps step Meets initial events :=
  Runs.allStates_iff_allSteps_of (fun _ _ _ hinv hw hstep => (step_spec hinv hw hstep).1)
    (fun _ _ _ hinv hw hstep => (step_spec hinv hw hstep).2)
    ⟨fun _ hm => absurd hm List.not_mem_nil, fun _ hmap => absurd hmap List.not_mem_nil⟩
    ⟨forall_mem_nil _, forall_mem_nil _⟩

/-- When the quota of a shared map is ignored for one item, the copy made for it has none. -/
theorem copy_without_quota : ∃ w : World, Runs.run step initial
      [.create 100, .share 0, .setItemIgnoringQuota 1 ⟨[97], by decide⟩ ⟨[98], by decide⟩ []
        [(⟨[97], by decide⟩, ⟨[98], by decide⟩)]] = some w ∧
    w.handles = [some 0, some 1] ∧
    w.maps.map (fun m => (m.quotaSize, m.createdWith)) = [(100, 100), (2 ^ 32 - 1, 100)] ∧
    ¬ w.Holds := by
  refine ⟨_, rfl, rfl, rfl, fun hw => ?_⟩
  have hquo := (hw.maps _ (mem_cons_of_mem _ mem_cons_self)).quotaSize
  exact absurd hquo (by decide)

end World

end WebKit.Storage
