import Mathlib.Data.List.Perm.Basic
import WebKit.UIProcess.BackForwardList

/-!
# Runs of the back-forward list

Over every run the list keeps its current index and its capacity, and reports what it removes,
except that `restoreFromState` reports nothing. The loop of `backForwardListState` compares the
position of a rejected item with the index that earlier rejected items have lowered already.
-/

namespace WebKit.UIProcess

open List Function WebBackForwardList

variable {α : Type*}

/-! ## What is claimed -/

/-- The client keeps an item in the saved list. -/
def keeps (filter : Option (Item α → Bool)) (entry : Item α) : Bool :=
  filter.all fun f => f entry

/-- There is a current item as long as there are items, and there are not too many. -/
structure WebBackForwardList.Consistent (l : WebBackForwardList α) : Prop where
  hasCurrentIndex_iff : l.hasCurrentIndex = true ↔ l.entries ≠ []
  currentIndex_lt : l.hasCurrentIndex = true → l.currentIndex < l.entries.length
  length_le : l.entries.length ≤ l.capacity

/-- The items reported removed are exactly those that left the list. -/
structure Mutation.Exact (m : Mutation α) : Prop where
  mem_iff : ∀ item, item ∈ m.report.removedItems ↔ item ∈ m.before ∧ item ∉ m.after
  nodup : m.report.removedItems.Nodup
  didRemoveItem : ∀ item ∈ m.report.didRemoveItem, item ∈ m.report.removedItems

open Item

/-- The saved index designates the current item if it was kept, and an item if any was. -/
structure Saved.Right (s : Saved α) : Prop where
  items : s.state.items = (s.list.entries.filter (keeps s.filter)).map itemState
  current : ∀ current, s.list.hasCurrentIndex = true →
    s.list.entries[s.list.currentIndex]? = some current → keeps s.filter current = true →
    ∃ k, s.state.currentIndex = some k ∧
      (s.list.entries.filter (keeps s.filter))[k]? = some current
  valid : s.state.items ≠ [] → ∃ k, s.state.currentIndex = some k ∧ k < s.state.items.length

structure Session.Holds (s : Session α) : Prop where
  consistent : s.list.Consistent
  exact : ∀ m ∈ s.mutations, m.Exact
  right : ∀ saved ∈ s.saved, saved.Right

/-! ## The loop over the entries -/

/-- The index after the loop. -/
def adjust (filter : Option (Item α → Bool)) : Nat → List (Item α) → Nat → Nat
  | _, [], index => index
  | i, entry :: rest, index =>
    adjust filter (i + 1) rest
      (if keeps filter entry then index
      else if i ≤ index ∧ index ≠ 0 then index - 1 else index)

theorem any_not_eq (filter : Option (Item α → Bool)) (entry : Item α) :
    (filter.any fun f => !f entry) = !keeps filter entry := by
  cases filter with
  | none => rfl
  | some f => rfl

theorem saveLoop_eq (filter : Option (Item α → Bool)) (entries : List (Item α)) (i : Nat)
    (st : BackForwardListState α) :
    saveLoop filter i entries st =
      { items := st.items ++ (entries.filter (keeps filter)).map itemState
        currentIndex := st.currentIndex.map (adjust filter i entries) } := by
  induction entries generalizing i st with
  | nil => simp [saveLoop, adjust]
  | cons ent rest ih =>
    rw [saveLoop, any_not_eq]
    cases hkps : keeps filter ent with
    | true =>
      rw [if_neg (by simp), ih]
      simp [adjust, hkps]
    | false =>
      rw [if_pos (by simp), ih]
      simp [adjust, hkps, comp_def]

/-- The number of rejected items that lower the index `current`: the position `i` of the next item
and the `rejected` items before it together must not exceed it. -/
def lowered (filter : Option (Item α → Bool)) (current : Nat) :
    Nat → Nat → List (Item α) → Nat
  | _, _, [] => 0
  | i, rejected, entry :: rest =>
    if keeps filter entry then lowered filter current (i + 1) rejected rest
    else (if i + rejected ≤ current then 1 else 0) +
      lowered filter current (i + 1) (rejected + 1) rest

section

variable {filter : Option (Item α → Bool)} {current : Nat}

theorem adjust_eq (entries : List (Item α)) (i rej idx : Nat)
    (h : idx + rej = current ∨ idx < i ∧ current < i + rej) :
    adjust filter i entries idx = idx - lowered filter current i rej entries := by
  induction entries generalizing i rej idx with
  | nil => rfl
  | cons ent rest ih =>
    rw [adjust, lowered]
    cases hkps : keeps filter ent with
    | true =>
      rw [if_pos rfl, if_pos rfl]
      exact ih _ _ _ (by omega)
    | false =>
      rw [if_neg Bool.false_ne_true, if_neg Bool.false_ne_true]
      by_cases hlow : i ≤ idx ∧ idx ≠ 0
      · rw [if_pos hlow, if_pos (by omega), ih _ (rej + 1) (idx - 1) (by omega)]
        omega
      · rw [if_neg hlow, ih _ (rej + 1) _ (by omega)]
        split
        · omega
        · omega

theorem lowered_append (l l' : List (Item α)) (i rej : Nat) :
    lowered filter current i rej (l ++ l') =
      lowered filter current i rej l +
        lowered filter current (i + l.length) (rej + l.countP fun e => !keeps filter e) l' := by
  induction l generalizing i rej with
  | nil => simp [lowered]
  | cons ent rest ih =>
    rw [cons_append, lowered, lowered, countP_cons, length_cons]
    cases hkps : keeps filter ent with
    | true =>
      rw [if_pos rfl, if_pos rfl, ih]
      simp [Nat.add_assoc, Nat.add_comm 1]
    | false =>
      rw [if_neg Bool.false_ne_true, if_neg Bool.false_ne_true, ih]
      simp [Nat.add_assoc, Nat.add_comm 1]

theorem lowered_eq_zero (l : List (Item α)) (i rej : Nat) (h : current < i + rej) :
    lowered filter current i rej l = 0 := by
  induction l generalizing i rej with
  | nil => rfl
  | cons ent rest ih =>
    rw [lowered, ih _ _ (by omega), ih _ _ (by omega)]
    split
    · rfl
    · rw [if_neg (by omega)]

theorem lowered_le (l : List (Item α)) (i rej : Nat) :
    lowered filter current i rej l ≤ l.countP fun e => !keeps filter e := by
  induction l generalizing i rej with
  | nil => exact Nat.le_refl _
  | cons ent rest ih =>
    have hrest := ih (i + 1) rej
    have hrest' := ih (i + 1) (rej + 1)
    rw [lowered, countP_cons]
    cases hkps : keeps filter ent with
    | true =>
      simp
      omega
    | false =>
      simp
      split
      · omega
      · omega

end

/-! ## Saved states -/

/-- The number of items that a filter rejects before the current one. -/
def rejectedBefore (filter : Option (Item α → Bool)) (l : WebBackForwardList α) : Nat :=
  (l.entries.take l.currentIndex).countP fun e => !keeps filter e

/-- The filters under which the index is lowered far enough. If the current item is kept, every
rejected item before it has to lower the index; otherwise the index has to stay that of an item. -/
def LowersIndex (filter : Option (Item α → Bool)) (l : WebBackForwardList α) : Prop :=
  match l.entries[l.currentIndex]? with
  | none => True
  | some current =>
    if keeps filter current then
      lowered filter l.currentIndex 0 0 l.entries = rejectedBefore filter l
    else
      l.entries.countP (keeps filter) = 0 ∨
        l.currentIndex - lowered filter l.currentIndex 0 0 l.entries <
          l.entries.countP (keeps filter)

section

variable {filter : Option (Item α → Bool)} {l : WebBackForwardList α}

theorem items_backForwardListState (filter : Option (Item α → Bool)) (l : WebBackForwardList α) :
    (l.backForwardListState filter).items =
      (l.entries.filter (keeps filter)).map itemState := by
  unfold backForwardListState
  rw [saveLoop_eq]
  dsimp only
  split
  · rfl
  · rfl

theorem currentIndex_backForwardListState (filter : Option (Item α → Bool))
    (hc : l.hasCurrentIndex = true) :
    (l.backForwardListState filter).currentIndex =
      if l.entries.countP (keeps filter) = 0 then none
      else some (l.currentIndex - lowered filter l.currentIndex 0 0 l.entries) := by
  have hi : adjust filter 0 l.entries l.currentIndex =
      l.currentIndex - lowered filter l.currentIndex 0 0 l.entries :=
    adjust_eq l.entries 0 0 l.currentIndex (.inl rfl)
  unfold backForwardListState
  rw [saveLoop_eq, hc, countP_eq_length_filter]
  cases l.entries.filter (keeps filter) with
  | nil => rfl
  | cons ent rest => simp [hi]

theorem currentIndex_eq_none (hemp : (l.backForwardListState filter).items = []) :
    (l.backForwardListState filter).currentIndex = none := by
  unfold backForwardListState at hemp ⊢
  generalize saveLoop _ _ _ _ = state at hemp ⊢
  dsimp only at hemp ⊢
  split
  · rfl
  case isFalse hso =>
    rw [if_neg hso] at hemp
    exact absurd (isEmpty_iff.mpr hemp) hso

variable {current : Item α}

theorem entries_eq_append (hg : l.entries[l.currentIndex]? = some current) :
    ∃ bef behind, l.entries = bef ++ current :: behind ∧
      bef.length = l.currentIndex ∧ bef = l.entries.take l.currentIndex := by
  obtain ⟨hlt, hg⟩ := List.getElem?_eq_some_iff.mp hg
  refine ⟨l.entries.take l.currentIndex, l.entries.drop (l.currentIndex + 1), ?_, ?_, rfl⟩
  · rw [← hg, getElem_cons_drop, take_append_drop]
  · rw [length_take, Nat.min_eq_left (Nat.le_of_lt hlt)]

theorem designates_iff (hnd : l.entries.Nodup)
    (hg : l.entries[l.currentIndex]? = some current) (hkps : keeps filter current = true) :
    (l.entries.filter (keeps filter))[
        l.currentIndex - lowered filter l.currentIndex 0 0 l.entries]? = some current ↔
      lowered filter l.currentIndex 0 0 l.entries = rejectedBefore filter l := by
  obtain ⟨before, behind, heq, hl, htk⟩ := entries_eq_append hg
  have hlw : lowered filter l.currentIndex 0 0 l.entries =
      lowered filter l.currentIndex 0 0 before := by
    rw [heq, lowered_append, lowered, if_pos hkps,
      lowered_eq_zero behind _ _ (by omega), Nat.add_zero]
  have hle : lowered filter l.currentIndex 0 0 before ≤
      before.countP fun e => !keeps filter e := lowered_le before 0 0
  have hc : before.length =
      before.countP (keeps filter) + before.countP fun e => !keeps filter e := by
    simpa using length_eq_countP_add_countP (keeps filter) (l := before)
  have hrj : rejectedBefore filter l = before.countP fun e => !keeps filter e := by
    rw [rejectedBefore, ← htk]
  -- the kept items before the current one are the beginning of the saved list
  have hflt : l.entries.filter (keeps filter) =
      before.filter (keeps filter) ++ current :: behind.filter (keeps filter) := by
    rw [heq, filter_append, filter_cons_of_pos hkps]
  have hps : (l.entries.filter (keeps filter))[before.countP (keeps filter)]? = some current := by
    rw [hflt, countP_eq_length_filter, getElem?_append_right (Nat.le_refl _), Nat.sub_self]
    rfl
  have hlt : before.countP (keeps filter) < (l.entries.filter (keeps filter)).length :=
    (List.getElem?_eq_some_iff.mp hps).1
  rw [hlw, hrj]
  constructor
  · intro hi
    have := (getElem?_inj hlt (hnd.filter _)).mp (hps.trans hi.symm)
    omega
  · intro ha
    rw [ha, show l.currentIndex - (before.countP fun e => !keeps filter e) =
      before.countP (keeps filter) by omega]
    exact hps

/-- **Saved states.** They are right exactly for the filters that lower the index far enough. -/
theorem right_iff (hl : l.Consistent) (hnd : l.entries.Nodup) :
    Saved.Right ⟨l, filter, l.backForwardListState filter⟩ ↔ LowersIndex filter l := by
  have hits := items_backForwardListState filter l
  set state := l.backForwardListState filter
  have hlen : state.items.length = l.entries.countP (keeps filter) := by
    rw [hits, length_map, countP_eq_length_filter]
  have hne : state.items ≠ [] ↔ l.entries.countP (keeps filter) ≠ 0 := by
    rw [← hlen, ne_eq, ne_eq, length_eq_zero_iff]
  unfold LowersIndex
  cases hg : l.entries[l.currentIndex]? with
  | none =>
    -- then there are no items at all
    have hemp : l.entries = [] := by
      refine not_not.mp fun hso => ?_
      have hlt := hl.currentIndex_lt (hl.hasCurrentIndex_iff.mpr hso)
      exact absurd (getElem?_eq_none_iff.mp hg) (Nat.not_le.mpr hlt)
    refine iff_of_true ⟨hits, ?_, ?_⟩ trivial
    · intro current _ hso
      simp [hg] at hso
    · intro hso
      exact absurd (by rw [hemp]; rfl) (hne.mp hso)
  | some current =>
    have hc : l.hasCurrentIndex = true :=
      hl.hasCurrentIndex_iff.mpr (ne_nil_of_mem (mem_of_getElem? hg))
    have hi : state.currentIndex = _ := currentIndex_backForwardListState filter hc
    dsimp only
    cases hkps : keeps filter current with
    | true =>
      have hp : l.entries.countP (keeps filter) ≠ 0 := Nat.pos_iff_ne_zero.mp
        (countP_pos_iff.mpr ⟨current, mem_of_getElem? hg, hkps⟩)
      rw [if_neg hp] at hi
      rw [if_pos rfl, ← designates_iff hnd hg hkps]
      constructor
      · intro hr
        obtain ⟨k, hk, hps⟩ := hr.current current hc hg hkps
        rwa [Option.some.inj (hk.symm.trans hi)] at hps
      · intro hps
        refine ⟨hits, ?_, fun _ => ⟨_, hi, ?_⟩⟩
        · intro current' _ hg' _
          rw [Option.some.inj (hg'.symm.trans hg)]
          exact ⟨_, hi, hps⟩
        · show _ < state.items.length
          rw [hlen, countP_eq_length_filter]
          exact (List.getElem?_eq_some_iff.mp hps).1
    | false =>
      constructor
      · intro hr
        by_cases hz : l.entries.countP (keeps filter) = 0
        · exact .inl hz
        obtain ⟨k, hk, hlt⟩ := hr.valid (hne.mpr hz)
        change state.currentIndex = some k at hk
        change k < state.items.length at hlt
        rw [hi, if_neg hz] at hk
        rw [hlen, ← Option.some.inj hk] at hlt
        exact .inr hlt
      · intro hvld
        refine ⟨hits, ?_, ?_⟩
        · intro current' _ hg' hkps'
          rw [Option.some.inj (hg'.symm.trans hg)] at hkps'
          simp [hkps] at hkps'
        · intro hso
          have hz := hne.mp hso
          rw [if_neg hz] at hi
          refine ⟨_, hi, ?_⟩
          show _ < state.items.length
          rw [hlen]
          exact hvld.resolve_left hz

end

/-! ## Mutations -/

theorem Mutation.Exact.of_perm {before after stay : List (Item α)} {r : Report α}
    (hnd : before.Nodup) (hpr : before.Perm (r.removedItems ++ stay))
    (hst : ∀ item ∈ stay, item ∈ after)
    (haft : ∀ item ∈ after, item ∈ stay ∨ item ∉ before)
    (hdid : ∀ item ∈ r.didRemoveItem, item ∈ r.removedItems) :
    Mutation.Exact ⟨before, after, r⟩ := by
  have happ : (r.removedItems ++ stay).Nodup := hpr.nodup_iff.mp hnd
  have hdsj := (nodup_append.mp happ).2.2
  refine ⟨fun item => ⟨fun hrmd => ?_, ?_⟩, (nodup_append.mp happ).1, hdid⟩
  · have hbef : item ∈ before := hpr.mem_iff.mpr (mem_append_left _ hrmd)
    refine ⟨hbef, fun hm => ?_⟩
    rcases haft item hm with hm | hn
    · exact hdsj item hrmd item hm rfl
    · exact hn hbef
  · rintro ⟨hbef, hn⟩
    rcases mem_append.mp (hpr.mem_iff.mp hbef) with hrmd | hm
    · exact hrmd
    · exact absurd (hst item hm) hn

/-- The items of a list are different objects. -/
def WebBackForwardList.Distinct (l : WebBackForwardList α) : Prop :=
  (l.entries.map address).Nodup

/-- A mutation leaves a consistent list of old or new items, all different, and reports what it
removed. -/
structure Mutates (l : WebBackForwardList α) (fresh : List (Item α)) (l' : WebBackForwardList α)
    (r : Report α) : Prop where
  consistent : l'.Consistent
  distinct : l'.Distinct
  capacity : l'.capacity = l.capacity
  mem : ∀ item ∈ l'.entries, item ∈ l.entries ∨ item ∈ fresh
  exact : Mutation.Exact ⟨l.entries, l'.entries, r⟩

section

variable {l l' l₁ : WebBackForwardList α} {r r₁ : Report α}

theorem WebBackForwardList.Distinct.nodup (h : l.Distinct) : l.entries.Nodup := h.of_map _

theorem Mutates.refl (hl : l.Consistent) (hd : l.Distinct) : Mutates l [] l {} where
  consistent := hl
  distinct := hd
  capacity := rfl
  mem _ h := .inl h
  exact := .of_perm hd.nodup (List.Perm.refl _) (fun _ h => h) (fun _ h => .inl h)
    (forall_mem_nil _)

/-- The list before the new item is inserted: the current item is the last one. -/
structure Tossed (l l₁ : WebBackForwardList α) (r : Report α) : Prop where
  perm : l.entries.Perm (r.removedItems ++ l₁.entries)
  didRemoveItem : r.didRemoveItem = r.removedItems
  capacity : l₁.capacity = l.capacity
  length_lt : l₁.entries.length < l₁.capacity
  current : l₁.hasCurrentIndex = true → l₁.currentIndex + 1 = l₁.entries.length
  empty : l₁.hasCurrentIndex = false → l₁.entries = []

theorem tossFirst_spec (heq : l₁.tossFirst r = some (l', r₁))
    (hpr : l.entries.Perm (r.removedItems ++ l₁.entries))
    (hdid : r.didRemoveItem = r.removedItems) (hc : l₁.capacity = l.capacity)
    (hle : l₁.entries.length ≤ l₁.capacity) (hcur : l₁.hasCurrentIndex = true)
    (hls : l₁.currentIndex + 1 = l₁.entries.length) : Tossed l l' r₁ := by
  unfold tossFirst at heq
  split at heq
  case isFalse hrm =>
    cases heq
    refine ⟨hpr, hdid, hc, by omega, fun _ => hls, fun hno => ?_⟩
    simp [hcur] at hno
  case isTrue hfl =>
    cases hens : l₁.entries with
    | nil =>
      rw [hens] at hls
      cases hls
    | cons fst rest =>
      rw [hens] at heq hpr hls hle
      rw [length_cons] at hls hle
      have hpr' : l.entries.Perm (r.removedItems ++ [fst] ++ rest) := by
        rw [append_assoc]
        exact hpr
      dsimp only at heq
      split at heq
      case isTrue hemp =>
        cases heq
        refine ⟨hpr', by rw [hdid], hc, ?_, nofun, fun _ => isEmpty_iff.mp hemp⟩
        show rest.length < l₁.capacity
        omega
      case isFalse hso =>
        cases heq
        refine ⟨hpr', by rw [hdid], hc, ?_, fun _ => ?_, fun hno => ?_⟩
        · show rest.length < l₁.capacity
          omega
        · show l₁.currentIndex - 1 + 1 = rest.length
          have := length_pos_iff.mpr (fun h => hso (isEmpty_iff.mpr h))
          omega
        · simp [hcur] at hno

theorem toss_spec (hl : l.Consistent) (hp : 0 < l.capacity)
    (heq : l.toss = some (l', r₁)) : Tossed l l' r₁ := by
  unfold toss at heq
  split at heq
  case isTrue hc =>
    have hlt := hl.currentIndex_lt hc
    rw [if_neg (by omega)] at heq
    have hlen : (l.entries.take (l.currentIndex + 1)).length = l.currentIndex + 1 := by
      rw [length_take, Nat.min_eq_left hlt]
    refine tossFirst_spec heq ?_ rfl rfl ?_ hc hlen.symm
    · -- the forward list is reported from its end
      show l.entries.Perm ((l.entries.drop (l.currentIndex + 1)).reverse ++
        l.entries.take (l.currentIndex + 1))
      refine List.Perm.trans ?_ (List.Perm.append_right _ (reverse_perm _).symm)
      have hcm : (l.entries.take (l.currentIndex + 1) ++
          l.entries.drop (l.currentIndex + 1)).Perm (l.entries.drop (l.currentIndex + 1) ++
            l.entries.take (l.currentIndex + 1)) := perm_append_comm
      rwa [take_append_drop] at hcm
    · show (l.entries.take (l.currentIndex + 1)).length ≤ l.capacity
      rw [hlen]
      exact Nat.le_trans hlt hl.length_le
  case isFalse hno =>
    cases heq
    refine ⟨?_, rfl, rfl, hp, fun hyes => absurd hyes hno, fun _ => rfl⟩
    show l.entries.Perm (l.entries ++ [])
    rw [append_nil]

variable {newItem : Item α}

/-- The list after the new item was put at its end, where it is the current one. -/
theorem Mutates.of_append (stay : List (Item α))
    (hnew : ∀ e ∈ l.entries, e.address ≠ newItem.address) (hd : l.Distinct)
    (hpr : l.entries.Perm (r.removedItems ++ stay))
    (hdid : ∀ item ∈ r.didRemoveItem, item ∈ r.removedItems)
    (hens : l'.entries = stay ++ [newItem]) (hcur : l'.hasCurrentIndex = true)
    (hi : l'.currentIndex = stay.length) (hc : l'.capacity = l.capacity)
    (hlt : stay.length < l.capacity) : Mutates l [newItem] l' r := by
  have hm : ∀ e ∈ stay, e ∈ l.entries := fun e he => hpr.mem_iff.mpr (mem_append_right _ he)
  have hl : l'.entries.length = stay.length + 1 := by
    rw [hens, length_append, length_singleton]
  refine ⟨⟨iff_of_true hcur ?_, fun _ => by omega, by omega⟩, ?_, hc, ?_, ?_⟩
  · rw [hens]
    exact append_ne_nil_of_right_ne_nil _ (cons_ne_nil _ _)
  · unfold WebBackForwardList.Distinct
    have hmap := hpr.map address
    rw [map_append] at hmap
    rw [hens, map_append, nodup_append]
    refine ⟨(nodup_append.mp (hmap.nodup_iff.mp hd)).2.1, nodup_singleton _, ?_⟩
    intro a ha b hb heq
    obtain ⟨e, he, rfl⟩ := mem_map.mp ha
    exact hnew e (hm e he) (heq.trans (mem_singleton.mp hb))
  · intro item hit
    rw [hens] at hit
    exact (mem_append.mp hit).imp_left (hm item)
  · refine .of_perm hd.nodup hpr ?_ ?_ hdid
    · intro item hit
      rw [hens]
      exact mem_append_left _ hit
    · intro item hit
      rw [hens] at hit
      refine (mem_append.mp hit).imp_right fun hit hbef => ?_
      obtain rfl := mem_singleton.mp hit
      exact hnew item hbef rfl

variable {keep : Bool}

theorem insert_spec (htsd : Tossed l l₁ r) (hd : l.Distinct)
    (hnew : ∀ e ∈ l.entries, e.address ≠ newItem.address)
    (heq : l₁.insert newItem keep r = some (l', r₁)) : Mutates l [newItem] l' r₁ := by
  have hdid : ∀ item ∈ r.didRemoveItem, item ∈ r.removedItems := by
    rw [htsd.didRemoveItem]
    exact fun _ h => h
  have hlt : l₁.entries.length < l.capacity := htsd.capacity ▸ htsd.length_lt
  revert heq
  fun_cases insert l₁ newItem keep r <;> rintro ⟨⟩
  case case2 hc current hg _ =>
    have hls := htsd.current hc
    refine .of_append _ hnew hd htsd.perm hdid ?_ hc hls htsd.capacity hlt
    show l₁.entries.insertIdx (l₁.currentIndex + 1) newItem = _
    rw [hls, insertIdx_length_self]
  case case3 hc current hg _ =>
    -- the current item is the last one
    have hls := htsd.current hc
    obtain ⟨bef, behind, hens, hl, _⟩ := entries_eq_append hg
    obtain rfl : behind = [] := by
      rw [hens, length_append, length_cons] at hls
      exact length_eq_zero_iff.mp (by omega)
    refine .of_append bef hnew hd ?_ ?_ ?_ hc hl.symm htsd.capacity (by omega)
    · refine (hens ▸ htsd.perm).trans ?_
      rw [append_assoc]
      exact perm_append_comm.append_left _
    · intro item hit
      exact mem_append_left _ (hdid item hit)
    · show l₁.entries.set l₁.currentIndex newItem = _
      rw [hens, ← hl, set_append_right _ _ (Nat.le_refl _), Nat.sub_self]
      rfl
  case case4 hno =>
    have hemp := htsd.empty (Bool.not_eq_true _ |>.mp hno)
    refine .of_append _ hnew hd htsd.perm hdid ?_ rfl ?_ htsd.capacity hlt
    · show l₁.entries.insertIdx 0 newItem = _
      rw [hemp]
      rfl
    · rw [hemp]
      rfl

theorem addItem_spec (hl : l.Consistent) (hd : l.Distinct)
    (hnew : ∀ e ∈ l.entries, e.address ≠ newItem.address)
    (heq : l.addItem newItem keep = some (l', r)) : Mutates l [newItem] l' r := by
  revert heq
  fun_cases addItem l newItem keep <;> intro heq <;> try cases heq
  case case1.refl =>
    exact ⟨hl, hd, rfl, fun _ h => .inl h, (Mutates.refl hl hd).exact⟩
  case case3 hc l₁ r₁ hts =>
    exact insert_spec (toss_spec hl (Nat.pos_of_ne_zero hc) hts) hd hnew heq

theorem find_spec {item idx : Nat} (hfn : l.find item = some idx) : idx < l.entries.length :=
  (findIdx?_eq_some_iff_getElem.mp hfn).1

/-- The target of `goToItem` is a different item, so the list is not empty without the current. -/
theorem goToItem_spec {item : Nat} (hl : l.Consistent) (hd : l.Distinct)
    (heq : l.goToItem item keep = some (l', r)) : Mutates l [] l' r := by
  have hrf := Mutates.refl hl hd
  revert heq
  fun_cases goToItem l item keep <;> rintro ⟨⟩
  case case1 => exact hrf
  case case2 => exact hrf
  case case4 hfn current hg _ =>
    exact ⟨⟨hl.hasCurrentIndex_iff, fun _ => find_spec hfn, hl.length_le⟩, hd, rfl,
      hrf.mem, hrf.exact⟩
  case case6 hnn _ _ current hg _ _ _ hfn =>
    have hlt := find_spec hfn
    have hs := eraseIdx_sublist l.entries l.currentIndex
    have hne : l.entries.eraseIdx l.currentIndex ≠ [] :=
      ne_nil_of_length_pos (Nat.zero_lt_of_lt hlt)
    refine ⟨⟨iff_of_true (not_not.mp (not_or.mp hnn).2) hne, fun _ => hlt,
      Nat.le_trans hs.length_le hl.length_le⟩, Nodup.sublist (hs.map _) hd, rfl,
      fun e he => .inl (hs.mem he), .of_perm hd.nodup ?_ (fun _ h => h)
        (fun _ h => .inl h) (forall_mem_nil _)⟩
    obtain ⟨hi, rfl⟩ := List.getElem?_eq_some_iff.mp hg
    exact (getElem_cons_eraseIdx_perm hi).symm

theorem removeAllItems_spec (hd : l.Distinct) :
    Mutates l [] l.removeAllItems.1 l.removeAllItems.2 where
  consistent := ⟨iff_of_false Bool.false_ne_true (fun h => h rfl), nofun, Nat.zero_le _⟩
  distinct := nodup_nil
  capacity := rfl
  mem := nofun
  exact := .of_perm hd.nodup (append_nil l.entries ▸ List.Perm.refl _)
    (forall_mem_nil _) (forall_mem_nil _) (fun _ h => h)

theorem clear_spec (hl : l.Consistent) (hd : l.Distinct)
    (heq : l.clear = some (l', r)) : Mutates l [] l' r := by
  revert heq
  fun_cases clear l <;> rintro ⟨⟩
  case case1 => exact Mutates.refl hl hd
  case case3 hln hc current hg =>
    have hle := hl.length_le
    obtain ⟨hi, rfl⟩ := List.getElem?_eq_some_iff.mp hg
    have hpr : l.entries.Perm (l.entries.eraseIdx l.currentIndex ++ [l.entries[l.currentIndex]]) :=
      (getElem_cons_eraseIdx_perm hi).symm.trans (perm_append_singleton _ _).symm
    refine ⟨⟨iff_of_true hc (cons_ne_nil _ _), fun _ => Nat.one_pos, ?_⟩,
      nodup_singleton _, rfl, fun e he => .inl (mem_singleton.mp he ▸ mem_of_getElem? hg),
      .of_perm hd.nodup hpr (fun _ h => h) (fun _ h => .inl h) fun item hit => ?_⟩
    · show 1 ≤ l.capacity
      omega
    · obtain ⟨hit, hne⟩ := mem_filter.mp hit
      refine (mem_append.mp (hpr.mem_iff.mp hit)).resolve_right fun hit => ?_
      exact of_decide_eq_true hne (congrArg _ (mem_singleton.mp hit))
  case case4 => exact removeAllItems_spec hd

end

/-! ## Restoring -/

variable (states : List (ItemState α))

theorem address_createItems (adr uid : Nat) : (createItems adr uid states).map address =
      List.range' adr states.length := by
  induction states generalizing adr uid with
  | nil => rfl
  | cons st rest ih =>
    rw [createItems, map_cons, ih, length_cons, range'_succ]

theorem length_createItems (adr uid : Nat) :
    (createItems adr uid states).length = states.length := by
  have hm := congrArg List.length (address_createItems states adr uid)
  rwa [length_map, length_range'] at hm

theorem le_address_createItems {states : List (ItemState α)} {adr uid : Nat}
    {e : Item α} (he : e ∈ createItems adr uid states) :
    adr ≤ e.address ∧ e.address < adr + states.length := by
  have hm := mem_map_of_mem (f := address) he
  rw [address_createItems, mem_range'_1] at hm
  exact hm

namespace Session

/-- The items are different objects that exist, and saved states are those of consistent lists. -/
structure Inv (s : Session α) : Prop where
  distinct : s.list.Distinct
  created : ∀ e ∈ s.list.entries, e.address < s.created
  saved : ∀ saved ∈ s.saved, saved.state = saved.list.backForwardListState saved.filter ∧
    saved.list.Consistent ∧ saved.list.capacity = s.list.capacity

/-- A filter lowers the index far enough, and a state is restored to a list without items. -/
def Meets (s : Session α) : Event α → Prop
  | .save filter => LowersIndex filter s.list
  | .restore _ => s.list.entries = []
  | _ => True

section

variable {s s' : Session α} (capacity uniqueHistoryItemID : Nat)

theorem inv_initial : (initial capacity uniqueHistoryItemID : Session α).Inv :=
  ⟨nodup_nil, forall_mem_nil _, forall_mem_nil _⟩

theorem holds_initial : (initial capacity uniqueHistoryItemID : Session α).Holds :=
  ⟨⟨iff_of_false Bool.false_ne_true (fun h => h rfl), nofun,
    Nat.zero_le _⟩, forall_mem_nil _, forall_mem_nil _⟩

theorem mutates {l' : WebBackForwardList α} {r : Report α} {fresh : List (Item α)}
    (created : Nat) (hi : s.Inv) (hs : s.Holds) (h : Mutates s.list fresh l' r)
    (hcrt : s.created ≤ created) (hfre : ∀ e ∈ fresh, e.address < created) :
    Inv { s.mutate (l', r) with created := created } ∧
      Holds { s.mutate (l', r) with created := created } := by
  refine ⟨⟨h.distinct, ?_, ?_⟩, ⟨h.consistent, ?_, hs.right⟩⟩
  · intro e he
    rcases h.mem e he with he | he
    · exact Nat.lt_of_lt_of_le (hi.created e he) hcrt
    · exact hfre e he
  · intro saved hsvd
    obtain ⟨hste, hcn, hc⟩ := hi.saved saved hsvd
    exact ⟨hste, hcn, hc.trans h.capacity.symm⟩
  · exact forall_mem_cons.mpr ⟨h.exact, hs.exact⟩

theorem restore_consistent {l : WebBackForwardList α} {saved : Saved α}
    (hste : saved.state = saved.list.backForwardListState saved.filter)
    (hcn : saved.list.Consistent) (hc : saved.list.capacity = l.capacity)
    (hr : saved.Right) (adr uid : Nat) :
    (l.restoreFromState adr uid saved.state).Consistent := by
  have hens := length_createItems saved.state.items adr uid
  have hl : saved.state.items.length ≤ l.capacity := by
    rw [hr.items, length_map, ← hc]
    exact Nat.le_trans (length_filter_le _ _) hcn.length_le
  by_cases hemp : saved.state.items = []
  · have hno : saved.state.currentIndex = none := by
      rw [hste] at hemp ⊢
      exact currentIndex_eq_none hemp
    unfold restoreFromState
    rw [hno, hemp]
    exact ⟨iff_of_false Bool.false_ne_true (fun h => h rfl), nofun, Nat.zero_le _⟩
  · obtain ⟨k, hk, hlt⟩ := hr.valid hemp
    unfold restoreFromState
    rw [hk]
    refine ⟨iff_of_true rfl ?_, fun _ => ?_, ?_⟩
    · exact length_pos_iff.mp (by dsimp only; omega)
    · show k < (createItems _ _ _).length
      rwa [hens]
    · show (createItems _ _ _).length ≤ l.capacity
      rwa [hens]

theorem step_iff {e : Event α} (hi : s.Inv) (hs : s.Holds) (hst : s.step e = some s') :
    s'.Inv ∧ (s'.Holds ↔ s.Meets e) := by
  -- nothing new is put on the list
  have hkps : ∀ {l' : WebBackForwardList α} {r : Report α}, Mutates s.list [] l' r →
      Inv (s.mutate (l', r)) ∧ (Holds (s.mutate (l', r)) ↔ True) := fun h =>
    (mutates s.created hi hs h (Nat.le_refl _) (forall_mem_nil _)).imp_right
      fun h => iff_of_true h trivial
  cases e with
  | addItem itemState keep =>
    obtain ⟨⟨l', r⟩, heq, rfl⟩ := Option.map_eq_some_iff.mp hst
    have hnew : ∀ e ∈ s.list.entries, e.address ≠ s.created :=
      fun e he => Nat.ne_of_lt (hi.created e he)
    have hmt := addItem_spec hs.consistent hi.distinct hnew heq
    obtain ⟨hi', hs'⟩ := mutates (s.created + 1) hi hs hmt (Nat.le_succ _)
      (fun e he => by rw [mem_singleton.mp he]; exact Nat.lt_succ_self _)
    exact ⟨hi', iff_of_true hs' trivial⟩
  | goToItem item keep =>
    obtain ⟨⟨l', r⟩, heq, rfl⟩ := Option.map_eq_some_iff.mp hst
    exact hkps (goToItem_spec hs.consistent hi.distinct heq)
  | clear =>
    obtain ⟨⟨l', r⟩, heq, rfl⟩ := Option.map_eq_some_iff.mp hst
    exact hkps (clear_spec hs.consistent hi.distinct heq)
  | removeAllItems =>
    cases hst
    exact hkps (removeAllItems_spec hi.distinct)
  | save filter =>
    cases hst
    refine ⟨⟨hi.distinct, hi.created, ?_⟩, ?_⟩
    · exact forall_mem_cons.mpr ⟨⟨rfl, hs.consistent, rfl⟩, hi.saved⟩
    · show _ ↔ LowersIndex filter s.list
      rw [← right_iff hs.consistent hi.distinct.nodup]
      refine ⟨fun hs' => hs'.right _ mem_cons_self, fun hr => ?_⟩
      refine ⟨hs.consistent, hs.exact, fun saved hsvd => ?_⟩
      rcases mem_cons.mp hsvd with rfl | hsvd
      · exact hr
      · exact hs.right saved hsvd
  | restore k =>
    dsimp only [step] at hst
    split at hst <;> cases hst
    next saved hg =>
    have hsvd := mem_of_getElem? hg
    obtain ⟨hste, hcn, hc⟩ := hi.saved saved hsvd
    have hr := hs.right saved hsvd
    refine ⟨⟨?_, fun e he => (le_address_createItems he).2, ?_⟩, ?_⟩
    · show ((createItems _ _ _).map address).Nodup
      rw [address_createItems]
      exact nodup_range'
    · exact fun saved' hsvd' => hi.saved saved' hsvd'
    · constructor
      · -- the items of the list are gone, and none is reported
        intro hs'
        refine eq_nil_iff_forall_not_mem.mpr fun item hit => ?_
        have hexa := (hs'.exact _ mem_cons_self).mem_iff item
        refine not_mem_nil (hexa.mpr ⟨hit, fun haft => ?_⟩)
        have hle := (le_address_createItems haft).1
        exact absurd (hi.created item hit) (Nat.not_lt.mpr hle)
      · intro hemp
        refine ⟨restore_consistent hste hcn hc hr _ _, ?_, hs.right⟩
        intro m hm
        rcases mem_cons.mp hm with rfl | hm
        · rw [show s.list.entries = [] from hemp]
          exact ⟨fun item => iff_of_false not_mem_nil (fun h => not_mem_nil h.1),
            nodup_nil, forall_mem_nil _⟩
        · exact hs.exact m hm

/-- **The back-forward list.** A run keeps the list consistent, reports exactly what leaves it and
saves right indexes, exactly if all filters lower the index far enough and states are only restored
to lists without items. -/
theorem backForwardList_consistent (capacity uniqueHistoryItemID : Nat) (events : List (Event α)) :
    Runs.AllStates step Holds (initial capacity uniqueHistoryItemID) events ↔
      Runs.AllSteps step Meets (initial capacity uniqueHistoryItemID) events :=
  Runs.allStates_iff_allSteps_of (fun _ _ _ hinv hs hstep => (step_iff hinv hs hstep).1)
    (fun _ _ _ hinv hs hstep => (step_iff hinv hs hstep).2) (inv_initial _ _) (holds_initial _ _)

/-- Four items, the last one is the current one, and the filter rejects all others. -/
theorem saved_index_out_of_range : ∃ s : Session Unit,
    Runs.run step (initial 100 0)
      [.addItem ⟨1, ()⟩ true, .addItem ⟨3, ()⟩ true, .addItem ⟨5, ()⟩ true,
        .addItem ⟨7, ()⟩ true, .save (some fun e => e.itemState.identifier == 7)] = some s ∧
    s.saved.map (·.state) = [⟨[⟨7, ()⟩], some 1⟩] ∧ ¬ s.Holds := by
  refine ⟨_, rfl, rfl, fun hs => ?_⟩
  obtain ⟨k, hk, hlt⟩ := (hs.right _ mem_cons_self).valid (cons_ne_nil _ _)
  obtain rfl : 1 = k := Option.some.inj hk
  exact absurd hlt (by decide)

end

end Session

end WebKit.UIProcess
