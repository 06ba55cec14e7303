import WebKit.ContentExtensions.ActionBytes
import WebKit.Lib.Vectors

/-!
# Merging actions keeps ignore-previous-rules

The order of the serialized locations has to tell which actions an ignore-previous-rules action
hides. The invariant of the loop of `serializeActions`: rules that ignore previous rules and rules
that do not are located in the order of the rule list, and a location is shared only by rules
without a rule of the other kind between them.
-/

namespace WebKit.ContentExtensions

open Vectors List

variable {rules : List ContentExtensionRule} {st : SerializerState}

/-- The kind of an action: does it ignore previous rules? -/
def ActionType.isIgnore (type : ActionType) : Bool := type == .ignorePreviousRules

/-- The kind of a rule. -/
def ContentExtensionRule.isIgnore (rule : ContentExtensionRule) : Bool :=
  rule.actionType.isIgnore

/-! ## Where the rules are -/

/-- The rule at this index waits in the pending map. -/
def Pending (st : SerializerState) (index : Nat) : Prop :=
  ∃ slot ∈ st.cssDisplayNoneActionsMap, index ∈ slot.2.clientLocations

/-- The rule at this index has its final location. -/
def Located (st : SerializerState) (index location : Nat) : Prop :=
  st.actionLocations[index]? = some location ∧ ¬ Pending st index

/-- The action has the type of the rule, and its selector is a comma separated list with the rule's.
-/
def Carries (rule : ContentExtensionRule) : SerializedAction → Prop
  | .plain type => type = rule.actionType ∧ type.serializable = true ∧
      type ≠ .cssDisplayNoneSelector
  | .selector string => rule.actionType = .cssDisplayNoneSelector ∧
      ∃ merged : List WTFString, rule.stringArgument ∈ merged ∧
        string.characters = List.intercalate [(0x2c : UChar)] (merged.map WTFString.characters)

/-- Two rules may share a location: same type, same flags, for a selector the
same trigger. -/
def Mergeable (a b : ContentExtensionRule) : Prop :=
  a.actionType = b.actionType ∧ a.trigger.flags = b.trigger.flags ∧
    (a.actionType = .cssDisplayNoneSelector → a.trigger = b.trigger)

/-- From `index` on, the rules are all of one kind. -/
def SameKindFrom (rules : List ContentExtensionRule) (index : Nat) (kind : Bool) : Prop :=
  ∀ k rule, rules[k]? = some rule → index ≤ k → rule.isIgnore = kind

/-- What a map from flags to locations says about the rules seen so far: the location is that of a
rule, all rules there have the type and the flags of the entry with no rule of the other kind since,
and every rule of the other kind is located before. -/
structure FlagsMapOk (rules : List ContentExtensionRule) (st : SerializerState)
    (type : ActionType) (map : FlagsMap) : Prop where
  used : ∀ entry ∈ map, ∃ i rule, rules[i]? = some rule ∧ Located st i entry.2
  owners : ∀ entry ∈ map, ∀ i rule, rules[i]? = some rule → Located st i entry.2 →
    rule.actionType = type ∧ rule.trigger.flags = entry.1 ∧
      SameKindFrom rules i type.isIgnore
  before : ∀ entry ∈ map, ∀ i rule, rules[i]? = some rule → rule.isIgnore ≠ type.isIgnore →
    ∃ location, Located st i location ∧ location < entry.2

/-- The part of the invariant that is about the locations. -/
structure Placed (rules : List ContentExtensionRule) (st : SerializerState) : Prop where
  length : st.actionLocations.length = rules.length
  written : ∀ i rule location, rules[i]? = some rule → Located st i location →
    ∃ s, HasAction st.actions location s ∧ Carries rule s
  ordered : ∀ i j ri rj li lj, rules[i]? = some ri → rules[j]? = some rj → i < j →
    ri.isIgnore ≠ rj.isIgnore → Located st i li → Located st j lj → li < lj
  shared : ∀ i j ri rj location, rules[i]? = some ri → rules[j]? = some rj → i < j →
    Located st i location → Located st j location →
    Mergeable ri rj ∧ ∀ k rule, rules[k]? = some rule → i ≤ k → k ≤ j →
      rule.isIgnore = ri.isIgnore
  keys : (st.cssDisplayNoneActionsMap.map Prod.fst).Nodup
  pending : ∀ slot ∈ st.cssDisplayNoneActionsMap, ∀ i ∈ slot.2.clientLocations,
    ∃ rule, rules[i]? = some rule ∧ rule.actionType = .cssDisplayNoneSelector ∧
      rule.trigger = slot.1 ∧ rule.stringArgument ∈ slot.2.selectors ∧
      SameKindFrom rules i false

/-- The invariant of the loop. -/
structure Merged (rules : List ContentExtensionRule) (st : SerializerState) : Prop
    extends Placed rules st where
  block : FlagsMapOk rules st .blockLoad st.blockActionsMap
  blockCookies : FlagsMapOk rules st .blockCookies st.blockCookiesActionsMap
  ignorePrevious :
    FlagsMapOk rules st .ignorePreviousRules st.ignorePreviousRuleActionsMap

theorem FlagsMapOk.nil (type : ActionType) : FlagsMapOk rules st type [] where
  used := nofun
  owners := nofun
  before := nofun

theorem not_pending_of_nil (h : st.cssDisplayNoneActionsMap = []) (i : Nat) : ¬ Pending st i := by
  rintro ⟨slot, hsl, _⟩
  rw [h] at hsl
  cases hsl

open FlagsMapOk

theorem merged_nil : Merged [] {} where
  length := rfl
  written := by intro i rule location h; cases h
  ordered := by intro i j ri rj li lj h; cases h
  shared := by intro i j ri rj location h; cases h
  keys := nodup_nil
  pending := by intro slot h; cases h
  block := nil _
  blockCookies := nil _
  ignorePrevious := nil _

variable {rule : ContentExtensionRule} {i location : Nat} {st' : SerializerState}
  {type : ActionType} {map : FlagsMap} {slot : Trigger × PendingDisplayNoneActions}
  {rest : PendingDisplayNoneActionsMap}

theorem isIgnore_css (h : rule.actionType = .cssDisplayNoneSelector) : rule.isIgnore = false := by
  unfold ContentExtensionRule.isIgnore
  rw [h]
  rfl

theorem Placed.lt_length (h : Placed rules st) (hl : Located st i location) :
    location < st.actions.length := by
  have hi := lt_of_getElem? hl.1
  rw [h.length] at hi
  obtain ⟨s, hs, _⟩ := h.written i rules[i] location (getElem?_eq_getElem hi) hl
  exact hs.lt

theorem Placed.not_pending_of_isIgnore (h : Placed rules st) (hi : rules[i]? = some rule)
    (hk : rule.isIgnore = true) :
    ¬ Pending st i := by
  rintro ⟨slot, hsl, hm⟩
  obtain ⟨rule', hi', hcss, _⟩ := h.pending slot hsl i hm
  rw [hi] at hi'
  cases hi'
  rw [isIgnore_css hcss] at hk
  exact Bool.false_ne_true hk

theorem Placed.located_of_not_pending (h : Placed rules st) (hi : rules[i]? = some rule)
    (hp : ¬ Pending st i) :
    ∃ location, Located st i location := by
  have hlt := lt_of_getElem? hi
  rw [← h.length] at hlt
  exact ⟨st.actionLocations[i], getElem?_eq_getElem hlt, hp⟩

theorem FlagsMapOk.transfer (h : FlagsMapOk rules st type map) (hp : Placed rules st)
    (hkp : ∀ i location, Located st i location → Located st' i location)
    (hnew : ∀ i location, Located st' i location →
      Located st i location ∨ st.actions.length ≤ location) :
    FlagsMapOk rules st' type map where
  used := by
    intro ent he
    obtain ⟨i, rule, hi, hl⟩ := h.used ent he
    exact ⟨i, rule, hi, hkp i _ hl⟩
  owners := by
    intro ent he i rule hi hl
    rcases hnew i _ hl with hl | hge
    · exact h.owners ent he i rule hi hl
    · obtain ⟨j, _, _, hj⟩ := h.used ent he
      exact absurd (hp.lt_length hj) (not_lt.mpr hge)
  before := by
    intro ent he i rule hi hk
    obtain ⟨location, hl, hlt⟩ := h.before ent he i rule hi hk
    exact ⟨location, hkp i _ hl, hlt⟩

theorem FlagsMapOk.of_located (h : FlagsMapOk rules st type map)
    (heq : ∀ i location, Located st' i location ↔ Located st i location) :
    FlagsMapOk rules st' type map where
  used := by simpa only [heq] using h.used
  owners := by simpa only [heq] using h.owners
  before := by simpa only [heq] using h.before

/-! ## Resolving pending selectors -/

@[simp] theorem length_assignLocation (locs clients : List Nat) (val : Nat) :
    (assignLocation locs clients val).length = locs.length := by
  exact length_foldl_modify id (fun _ _ => val) clients locs

theorem getElem?_assignLocation (locs clients : List Nat) (val i : Nat) (hi : i < locs.length) :
    (assignLocation locs clients val)[i]? = if i ∈ clients then some val else locs[i]? := by
  exact getElem?_foldl_set clients locs val hi

/-- The state in which these slots are the ones left to resolve. -/
abbrev withPending (st : SerializerState) (slots : PendingDisplayNoneActionsMap) :
    SerializerState :=
  { st with cssDisplayNoneActionsMap := slots }

section

variable (h : Placed rules (withPending st (slot :: rest)))

include h

theorem Placed.slot_unique (hi : i ∈ slot.2.clientLocations) :
    ¬ Pending (withPending st rest) i := by
  rintro ⟨oth, hoth, hm⟩
  obtain ⟨rule, hr, _, htr, _⟩ := h.pending slot mem_cons_self i hi
  obtain ⟨rule', hr', _, htr', _⟩ := h.pending oth (mem_cons_of_mem _ hoth) i hm
  rw [hr] at hr'
  cases hr'
  have hky := h.keys
  rw [map_cons, nodup_cons] at hky
  apply hky.1
  rw [← htr, htr']
  exact mem_map_of_mem hoth

theorem located_resolveSlot (i location : Nat) :
    Located (withPending (resolveSlot st slot) rest) i location ↔
      Located (withPending st (slot :: rest)) i location ∨
        i ∈ slot.2.clientLocations ∧ location = st.actions.length := by
  have hlt : i ∈ slot.2.clientLocations → i < st.actionLocations.length := by
    intro hi
    obtain ⟨rule, hr, _⟩ := h.pending slot mem_cons_self i hi
    rw [h.length]
    exact lt_of_getElem? hr
  have hpn : Pending (withPending st (slot :: rest)) i ↔
      i ∈ slot.2.clientLocations ∨ Pending (withPending st rest) i := by
    simp [Pending]
  by_cases hi : i ∈ slot.2.clientLocations
  · -- a client of the slot: pending before, located now
    have hg := getElem?_assignLocation st.actionLocations slot.2.clientLocations
      st.actions.length i (hlt hi)
    rw [if_pos hi] at hg
    constructor
    · rintro ⟨hl, _⟩
      exact .inr ⟨hi, Option.some.inj (hl.symm.trans hg)⟩
    · rintro (⟨_, hnp⟩ | ⟨_, rfl⟩)
      · exact absurd (hpn.mpr (.inl hi)) hnp
      · exact ⟨hg, h.slot_unique hi⟩
  · -- any other rule keeps its location
    have hg : (assignLocation st.actionLocations slot.2.clientLocations
        st.actions.length)[i]? = st.actionLocations[i]? := by
      rcases lt_or_ge i st.actionLocations.length with hlt' | hge
      · rw [getElem?_assignLocation _ _ _ _ hlt', if_neg hi]
      · rw [getElem?_eq_none hge, getElem?_eq_none (by simpa using hge)]
    constructor
    · rintro ⟨hl, hnp⟩
      exact .inl ⟨hg ▸ hl, fun hp => hnp ((hpn.mp hp).resolve_left hi)⟩
    · rintro (⟨hl, hnp⟩ | ⟨hi', _⟩)
      · exact ⟨hg.trans hl, fun hp => hnp (hpn.mpr (.inr hp))⟩
      · exact absurd hi' hi

theorem Placed.resolveSlot : Placed rules (withPending (resolveSlot st slot) rest) where
  length := (length_assignLocation _ _ _).trans h.length
  written := by
    intro i rule location hi hl
    rcases (located_resolveSlot h i location).mp hl with hl | ⟨hc, rfl⟩
    · obtain ⟨s, hs, hcry⟩ := h.written i rule location hi hl
      exact ⟨s, hs.append _, hcry⟩
    -- the selector written for the slot lists the selectors of all its clients
    obtain ⟨rule', hr, hcss, _, hsel, _⟩ := h.pending slot mem_cons_self i hc
    rw [hi] at hr
    cases hr
    exact ⟨.selector (combineSelectors slot.2.selectors),
      hasAction_append st.actions (.selector _), hcss,
      slot.2.selectors, hsel, characters_combineSelectors _⟩
  ordered := by
    intro i j ri rj li lj hi hj hij hkn hli hlj
    rcases (located_resolveSlot h i li).mp hli with hli | ⟨hci, rfl⟩
    · rcases (located_resolveSlot h j lj).mp hlj with hlj | ⟨hcj, rfl⟩
      · exact h.ordered i j ri rj li lj hi hj hij hkn hli hlj
      · exact h.lt_length hli
    -- no rule of the other kind comes after a pending one
    obtain ⟨rule', hr, hcss, _, _, hfr⟩ := h.pending slot mem_cons_self i hci
    rw [hi] at hr
    cases hr
    rw [isIgnore_css hcss, hfr j rj hj hij.le] at hkn
    exact absurd rfl hkn
  shared := by
    intro i j ri rj location hi hj hij hli hlj
    rcases (located_resolveSlot h i location).mp hli with hli | ⟨hci, hloc⟩
    · rcases (located_resolveSlot h j location).mp hlj with hlj | ⟨hcj, rfl⟩
      · exact h.shared i j ri rj location hi hj hij hli hlj
      · exact absurd (h.lt_length hli) (lt_irrefl _)
    rcases (located_resolveSlot h j location).mp hlj with hlj | ⟨hcj, _⟩
    · subst hloc
      exact absurd (h.lt_length hlj) (lt_irrefl _)
    -- two clients of the slot: one trigger, and no ignore rule since the first
    obtain ⟨ri', hri, hcs, hti, _, hfr⟩ := h.pending slot mem_cons_self i hci
    obtain ⟨rj', hrj, hcssj, htj, _, _⟩ := h.pending slot mem_cons_self j hcj
    rw [hi] at hri
    rw [hj] at hrj
    cases hri
    cases hrj
    have htr : ri.trigger = rj.trigger := hti.trans htj.symm
    refine ⟨⟨hcs.trans hcssj.symm, by rw [htr], fun _ => htr⟩, ?_⟩
    intro k rule hk hik _
    rw [hfr k rule hk hik, isIgnore_css hcs]
  keys := (nodup_cons.mp h.keys).2
  pending := by
    intro oth hoth
    exact h.pending oth (mem_cons_of_mem _ hoth)

end

theorem Merged.resolveSlot (h : Merged rules (withPending st (slot :: rest))) :
    Merged rules (withPending (resolveSlot st slot) rest) := by
  have hkp : ∀ i location, Located (withPending st (slot :: rest)) i location →
      Located (withPending (ContentExtensions.resolveSlot st slot) rest) i location := by
    intro i location hl
    exact (located_resolveSlot h.toPlaced i location).mpr (.inl hl)
  have hnew : ∀ i location,
      Located (withPending (ContentExtensions.resolveSlot st slot) rest) i location →
      Located (withPending st (slot :: rest)) i location ∨ st.actions.length ≤ location := by
    intro i location hl
    rcases (located_resolveSlot h.toPlaced i location).mp hl with hl | ⟨_, rfl⟩
    · exact .inl hl
    · exact .inr le_rfl
  exact ⟨h.toPlaced.resolveSlot, h.block.transfer h.toPlaced hkp hnew,
    h.blockCookies.transfer h.toPlaced hkp hnew,
    h.ignorePrevious.transfer h.toPlaced hkp hnew⟩

theorem Merged.perm {sls sls' : PendingDisplayNoneActionsMap}
    (h : Merged rules (withPending st sls)) (hpr : sls'.Perm sls) :
    Merged rules (withPending st sls') := by
  have hl : ∀ i location, Located (withPending st sls') i location ↔
      Located (withPending st sls) i location := by
    intro i location
    simp only [Located, Pending, hpr.mem_iff]
  refine ⟨⟨h.length, ?_, ?_, ?_, (hpr.map Prod.fst).nodup_iff.mpr h.keys,
    fun slot hsl => h.pending slot (hpr.mem_iff.mp hsl)⟩, h.block.of_located hl,
    h.blockCookies.of_located hl, h.ignorePrevious.of_located hl⟩
  · simpa only [hl] using h.written
  · simpa only [hl] using h.ordered
  · simpa only [hl] using h.shared

/-- Resolving all slots keeps the invariant, whatever order they come in. -/
theorem Merged.resolvePending {order : PendingDisplayNoneActionsMap → PendingDisplayNoneActionsMap}
    (hord : ∀ sls, (order sls).Perm sls) (h : Merged rules st) :
    Merged rules (resolvePendingDisplayNoneActions order st) := by
  have key : ∀ (sls : PendingDisplayNoneActionsMap) (st : SerializerState),
      Merged rules (withPending st sls) →
      Merged rules (withPending (sls.foldl ContentExtensions.resolveSlot st) []) := by
    intro sls
    induction sls with
    | nil => intro st h; exact h
    | cons slot rest ih => intro st h; exact ih _ h.resolveSlot
  have hst : Merged rules (withPending st st.cssDisplayNoneActionsMap) := h
  exact key _ _ (hst.perm (hord _))

/-! ## One more rule -/

theorem SameKindFrom.snoc {idx : Nat} {kind : Bool} (h : SameKindFrom rules idx kind)
    (hr : rule.isIgnore = kind) :
    SameKindFrom (rules ++ [rule]) idx kind := by
  intro k q hk hle
  rcases getElem?_concat.mp hk with hk | ⟨_, rfl⟩
  · exact h k q hk hle
  · exact hr

theorem sameKindFrom_last {kind : Bool} (hr : rule.isIgnore = kind) :
    SameKindFrom (rules ++ [rule]) rules.length kind := by
  intro k q hk hle
  rcases getElem?_concat.mp hk with hk | ⟨_, rfl⟩
  · exact absurd (lt_of_getElem? hk) (not_lt.mpr hle)
  · exact hr

theorem FlagsMapOk.snoc (h : FlagsMapOk rules st type map)
    (hold : ∀ i < rules.length, ∀ location, (Located st' i location ↔ Located st i location))
    (hkn : map ≠ [] → rule.isIgnore = type.isIgnore)
    (hnew : ∀ ent ∈ map, Located st' rules.length ent.2 →
      rule.actionType = type ∧ rule.trigger.flags = ent.1) :
    FlagsMapOk (rules ++ [rule]) st' type map where
  used := by
    intro ent he
    obtain ⟨i, q, hi, hl⟩ := h.used ent he
    exact ⟨i, q, getElem?_concat.mpr (.inl hi), (hold i (lt_of_getElem? hi) _).mpr hl⟩
  owners := by
    intro ent he i q hi hl
    have hk := hkn (ne_nil_of_mem he)
    rcases getElem?_concat.mp hi with hi | ⟨rfl, rfl⟩
    · obtain ⟨hty, hfgs, hfr⟩ := h.owners ent he i q hi ((hold i (lt_of_getElem? hi) _).mp hl)
      exact ⟨hty, hfgs, hfr.snoc hk⟩
    · obtain ⟨hty, hfgs⟩ := hnew ent he hl
      exact ⟨hty, hfgs, sameKindFrom_last hk⟩
  before := by
    intro ent he i q hi hne
    rcases getElem?_concat.mp hi with hi | ⟨_, rfl⟩
    · obtain ⟨location, hl, hlt⟩ := h.before ent he i q hi hne
      exact ⟨location, (hold i (lt_of_getElem? hi) _).mpr hl, hlt⟩
    · exact absurd (hkn (ne_nil_of_mem he)) hne

theorem FlagsMapOk.cons (h : FlagsMapOk (rules ++ [rule]) st' type map)
    (hty : rule.actionType = type) (hls : Located st' rules.length location)
    (hfre : ∀ i < rules.length, ¬ Located st' i location)
    (hbef : ∀ i q, rules[i]? = some q → q.isIgnore ≠ rule.isIgnore →
      ∃ l, Located st' i l ∧ l < location) :
    FlagsMapOk (rules ++ [rule]) st' type ((rule.trigger.flags, location) :: map) where
  used := by
    exact forall_mem_cons.mpr ⟨⟨rules.length, rule, getElem?_concat.mpr (.inr ⟨rfl, rfl⟩), hls⟩,
      h.used⟩
  owners := by
    intro ent he i q hi hl
    rcases mem_cons.mp he with rfl | he
    · rcases getElem?_concat.mp hi with hi | ⟨rfl, rfl⟩
      · exact absurd hl (hfre i (lt_of_getElem? hi))
      · exact ⟨hty, rfl, sameKindFrom_last (by rw [← hty]; rfl)⟩
    · exact h.owners ent he i q hi hl
  before := by
    intro ent he i q hi hne
    rcases mem_cons.mp he with rfl | he
    · rw [← hty] at hne
      rcases getElem?_concat.mp hi with hi | ⟨_, rfl⟩
      · exact hbef i q hi hne
      · exact absurd rfl hne
    · exact h.before ent he i q hi hne

section

variable (h : Placed rules st)

include h

theorem located_snoc (hl : st'.actionLocations = st.actionLocations ++ [location])
    (hc : ∀ i < rules.length, (Pending st' i ↔ Pending st i)) :
    ∀ i < rules.length, ∀ l, (Located st' i l ↔ Located st i l) := by
  intro i hi l
  rw [← h.length] at hi
  unfold Located
  rw [hl, getElem?_append_left hi, hc i (by rwa [← h.length])]

theorem Placed.not_pending_length : ¬ Pending st rules.length := by
  rintro ⟨slot, hsl, hm⟩
  obtain ⟨rule, hr, _⟩ := h.pending slot hsl _ hm
  exact absurd (lt_of_getElem? hr) (lt_irrefl _)

theorem Placed.shared_of_append {j : Nat} {ri rj : ContentExtensionRule}
    (hi : rules[i]? = some ri) (hj : rules[j]? = some rj) (hij : i < j)
    (hli : Located st i location) (hlj : Located st j location) :
    Mergeable ri rj ∧ ∀ k q, (rules ++ [rule])[k]? = some q → i ≤ k → k ≤ j →
      q.isIgnore = ri.isIgnore := by
  obtain ⟨hm, hbtw⟩ := h.shared i j ri rj location hi hj hij hli hlj
  have hjlt := lt_of_getElem? hj
  refine ⟨hm, ?_⟩
  intro k q hk hik hkj
  exact hbtw k q ((getElem?_concat.mp hk).resolve_right (by omega)) hik hkj

theorem Placed.located_append (hl : st'.actionLocations = st.actionLocations ++ [location])
    (hc : st'.cssDisplayNoneActionsMap = st.cssDisplayNoneActionsMap) :
    (∀ i < rules.length, ∀ l, (Located st' i l ↔ Located st i l)) ∧
      ∀ l, Located st' rules.length l ↔ l = location := by
  have hpn : ∀ i, Pending st' i ↔ Pending st i := by
    intro i
    unfold Pending
    rw [hc]
  refine ⟨located_snoc h hl (fun i _ => hpn i), fun l => ?_⟩
  unfold Located
  rw [hl, hpn, ← h.length, getElem?_concat_length, h.length]
  constructor
  · rintro ⟨heq, _⟩
    exact (Option.some.inj heq).symm
  · rintro rfl
    exact ⟨rfl, h.not_pending_length⟩

/-- A rule that gets its location at once, behind the rules of the other kind. -/
theorem Placed.snoc {more : List SerializedActionByte} {s : SerializedAction}
    (ha : st'.actions = st.actions ++ more)
    (hl : st'.actionLocations = st.actionLocations ++ [location])
    (hc : st'.cssDisplayNoneActionsMap = st.cssDisplayNoneActionsMap)
    (hs : HasAction st'.actions location s) (hcry : Carries rule s)
    (hbef : ∀ i q, rules[i]? = some q → q.isIgnore ≠ rule.isIgnore → ∃ l, Located st i l ∧ l <
      location) (hsh : ∀ i q, rules[i]? = some q → Located st i location → Mergeable q rule ∧
      SameKindFrom rules i rule.isIgnore) :
    Placed (rules ++ [rule]) st' := by
  obtain ⟨hold, hls⟩ := h.located_append hl hc
  refine ⟨?_, ?_, ?_, ?_, ?_, ?_⟩
  · rw [hl, length_append, length_append, h.length]
    rfl
  · intro i q l hi hloc
    rcases getElem?_concat.mp hi with hi | ⟨rfl, rfl⟩
    · obtain ⟨s', hs', hcry'⟩ := h.written i q l hi ((hold i (lt_of_getElem? hi) l).mp hloc)
      exact ⟨s', ha ▸ hs'.append more, hcry'⟩
    · rw [(hls l).mp hloc]
      exact ⟨s, hs, hcry⟩
  · intro i j ri rj li lj hi hj hij hkn hli hlj
    rcases getElem?_concat.mp hj with hj | ⟨rfl, rfl⟩
    · -- both rules were there before
      have hjlt := lt_of_getElem? hj
      have hi := (getElem?_concat.mp hi).resolve_right (by omega)
      exact h.ordered i j ri rj li lj hi hj hij hkn
        ((hold i (lt_of_getElem? hi) li).mp hli) ((hold j hjlt lj).mp hlj)
    · have hi := (getElem?_concat.mp hi).resolve_right (by omega)
      obtain ⟨l, hl', hlt⟩ := hbef i ri hi hkn
      have hli := (hold i (lt_of_getElem? hi) li).mp hli
      obtain rfl := Option.some.inj (hl'.1.symm.trans hli.1)
      rwa [(hls lj).mp hlj]
  · intro i j ri rj l hi hj hij hli hlj
    rcases getElem?_concat.mp hj with hj | ⟨rfl, rfl⟩
    · have hjlt := lt_of_getElem? hj
      have hi := (getElem?_concat.mp hi).resolve_right (by omega)
      exact h.shared_of_append hi hj hij ((hold i (lt_of_getElem? hi) l).mp hli)
        ((hold j hjlt l).mp hlj)
    · have hi := (getElem?_concat.mp hi).resolve_right (by omega)
      rw [(hls l).mp hlj] at hli
      obtain ⟨hm, hfr⟩ := hsh i ri hi ((hold i (lt_of_getElem? hi) location).mp hli)
      have hkn : ri.isIgnore = rule.isIgnore := by
        unfold ContentExtensionRule.isIgnore
        rw [hm.1]
      refine ⟨hm, ?_⟩
      intro k q hk hik _
      rw [hkn]
      exact hfr.snoc rfl k q hk hik
  · rw [hc]
    exact h.keys
  · intro slot hsl i hmem
    rw [hc] at hsl
    obtain ⟨q, hq, hcss, htr, hsel, hfr⟩ := h.pending slot hsl i hmem
    refine ⟨q, getElem?_concat.mpr (.inl hq), hcss, htr, hsel, hfr.snoc ?_⟩
    -- were the new rule an ignore rule, the pending one would have to be located
    by_contra hne
    obtain ⟨l, hloc, _⟩ := hbef i q hq (by
      rw [isIgnore_css hcss]
      exact fun heq => hne heq.symm)
    exact hloc.2 ⟨slot, hsl, hmem⟩

end

/-! ## Pending rules -/

theorem addPending_keys (trigger : Trigger) (sel : WTFString) (client : Nat)
    (map : PendingDisplayNoneActionsMap) (h : (map.map Prod.fst).Nodup) :
    ((addPending trigger sel client map).map Prod.fst).Nodup ∧
      ∀ key, key ∈ (addPending trigger sel client map).map Prod.fst ↔
        key = trigger ∨ key ∈ map.map Prod.fst := by
  induction map with
  | nil => simp [addPending]
  | cons slot rest ih =>
    rw [map_cons, nodup_cons] at h
    unfold addPending
    split
    case isTrue heq =>
      refine ⟨nodup_cons.mpr h, ?_⟩
      intro key
      simp [← heq]
    case isFalse hne =>
      obtain ⟨hnd, hm⟩ := ih h.2
      rw [map_cons, nodup_cons]
      refine ⟨⟨?_, hnd⟩, ?_⟩
      · rw [hm]
        rintro (heq | hin)
        · exact hne heq
        · exact h.1 hin
      · intro key
        rw [mem_cons, hm, map_cons, mem_cons]
        exact or_left_comm

theorem mem_addPending {trigger : Trigger} {sel : WTFString} {client : Nat}
    {map : PendingDisplayNoneActionsMap} (hs : slot ∈ addPending trigger sel client map)
    (hi : i ∈ slot.2.clientLocations) :
    (i = client ∧ slot.1 = trigger ∧ sel ∈ slot.2.selectors) ∨
      ∃ old ∈ map, old.1 = slot.1 ∧ i ∈ old.2.clientLocations ∧
        old.2.selectors ⊆ slot.2.selectors := by
  induction map with
  | nil =>
    rw [addPending, mem_singleton] at hs
    subst hs
    exact .inl ⟨mem_singleton.mp hi, rfl, mem_singleton.mpr rfl⟩
  | cons head rest ih =>
    unfold addPending at hs
    split at hs
    case isTrue heq =>
      rcases mem_cons.mp hs with rfl | hs
      · rcases mem_append.mp hi with hi | hi
        · exact .inr ⟨head, mem_cons_self, rfl, hi, subset_append_left _ _⟩
        · exact .inl ⟨mem_singleton.mp hi, heq, by simp⟩
      · exact .inr ⟨slot, mem_cons_of_mem _ hs, rfl, hi, List.Subset.refl _⟩
    case isFalse =>
      rcases mem_cons.mp hs with rfl | hs
      · exact .inr ⟨head, mem_cons_self, rfl, hi, List.Subset.refl _⟩
      · rcases ih hs with hnew | ⟨old, hold, hrest⟩
        · exact .inl hnew
        · exact .inr ⟨old, mem_cons_of_mem _ hold, hrest⟩

theorem pending_addPending (trigger : Trigger) (sel : WTFString) (client i : Nat)
    (map : PendingDisplayNoneActionsMap)
    (h : i = client ∨ ∃ slot ∈ map, i ∈ slot.2.clientLocations) :
    ∃ slot ∈ addPending trigger sel client map, i ∈ slot.2.clientLocations := by
  induction map with
  | nil =>
    rcases h with rfl | ⟨slot, hsl, _⟩
    · exact ⟨_, mem_singleton.mpr rfl, mem_singleton.mpr rfl⟩
    · cases hsl
  | cons head rest ih =>
    unfold addPending
    split
    case isTrue heq =>
      rcases h with rfl | ⟨slot, hsl, hm⟩
      · exact ⟨_, mem_cons_self, by simp⟩
      · rcases mem_cons.mp hsl with rfl | hsl
        · exact ⟨_, mem_cons_self, mem_append_left _ hm⟩
        · exact ⟨slot, mem_cons_of_mem _ hsl, hm⟩
    case isFalse =>
      rcases h with rfl | ⟨slot, hsl, hm⟩
      · obtain ⟨slot, hsl, hm⟩ := ih (.inl rfl)
        exact ⟨slot, mem_cons_of_mem _ hsl, hm⟩
      · rcases mem_cons.mp hsl with rfl | hsl
        · exact ⟨_, mem_cons_self, hm⟩
        · obtain ⟨slot, hsl, hm⟩ := ih (.inr ⟨slot, hsl, hm⟩)
          exact ⟨slot, mem_cons_of_mem _ hsl, hm⟩

/-! ## The step -/

/-- Nothing is left that a rule of the other kind could share, or wait in. -/
structure Ready (st : SerializerState) (rule : ContentExtensionRule) : Prop where
  pending : rule.isIgnore = true → st.cssDisplayNoneActionsMap = []
  block : st.blockActionsMap ≠ [] → rule.isIgnore = ActionType.isIgnore .blockLoad
  blockCookies : st.blockCookiesActionsMap ≠ [] →
    rule.isIgnore = ActionType.isIgnore .blockCookies
  ignorePrevious : st.ignorePreviousRuleActionsMap ≠ [] →
    rule.isIgnore = ActionType.isIgnore .ignorePreviousRules

variable {rule : ContentExtensionRule}
  {order : PendingDisplayNoneActionsMap → PendingDisplayNoneActionsMap}

theorem ready_closeMaps : Ready (closeMaps order st rule.actionType) rule := by
  by_cases h : rule.actionType = .ignorePreviousRules
  · have hkn : rule.isIgnore = true := by
      unfold ContentExtensionRule.isIgnore
      rw [h]
      rfl
    unfold closeMaps
    rw [if_pos h]
    exact ⟨fun _ => rfl, fun hne => absurd rfl hne, fun hne => absurd rfl hne, fun _ => hkn⟩
  · have hkn : rule.isIgnore = false := beq_false_of_ne h
    unfold closeMaps
    rw [if_neg h]
    exact ⟨fun ht => absurd (hkn.symm.trans ht) Bool.false_ne_true, fun _ => hkn,
      fun _ => hkn, fun hne => absurd rfl hne⟩

theorem Merged.closeMaps (hord : ∀ sls, (order sls).Perm sls) (h : Merged rules st)
    (type : ActionType) : Merged rules (closeMaps order st type) := by
  unfold ContentExtensions.closeMaps
  split
  case isTrue =>
    have hr := h.resolvePending hord
    exact ⟨⟨hr.length, hr.written, hr.ordered, hr.shared, nodup_nil, hr.pending⟩,
      nil _, nil _, hr.ignorePrevious.of_located fun _ _ => Iff.rfl⟩
  case isFalse =>
    exact ⟨⟨h.length, h.written, h.ordered, h.shared, h.keys, h.pending⟩,
      h.block.of_located fun _ _ => Iff.rfl, h.blockCookies.of_located fun _ _ => Iff.rfl,
      nil _⟩

theorem Placed.other_located (h : Placed rules st) (hrdy : Ready st rule)
    {q : ContentExtensionRule} (hi : rules[i]? = some q) (hne : q.isIgnore ≠ rule.isIgnore) :
    ∃ location, Located st i location ∧ location < st.actions.length := by
  have hnp : ¬ Pending st i := by
    cases hk : rule.isIgnore with
    | true => exact not_pending_of_nil (hrdy.pending hk) i
    | false =>
      rw [hk] at hne
      exact h.not_pending_of_isIgnore hi (Bool.of_not_eq_false hne)
  obtain ⟨location, hl⟩ := h.located_of_not_pending hi hnp
  exact ⟨location, hl, h.lt_length hl⟩

/-- Every map that was right stays so with the rule, if it is empty or of the kind of the rule. -/
def KeepsMaps (rules : List ContentExtensionRule) (st : SerializerState)
    (rule : ContentExtensionRule) (st' : SerializerState) : Prop :=
  ∀ type map, FlagsMapOk rules st type map → (map ≠ [] → rule.isIgnore = type.isIgnore) →
    FlagsMapOk (rules ++ [rule]) st' type map

theorem Placed.fresh {s : SerializedAction} (h : Placed rules st) (hrdy : Ready st rule)
    (hcry : Carries rule s) (ha : st'.actions = st.actions ++ s.bytes)
    (hl : st'.actionLocations = st.actionLocations ++ [st.actions.length])
    (hc : st'.cssDisplayNoneActionsMap = st.cssDisplayNoneActionsMap) :
    Placed (rules ++ [rule]) st' ∧ ∀ type map, FlagsMapOk rules st type map →
      (map ≠ [] → rule.isIgnore = type.isIgnore) →
      FlagsMapOk (rules ++ [rule]) st' type map ∧
        (rule.actionType = type → FlagsMapOk (rules ++ [rule]) st' type
          ((rule.trigger.flags, st.actions.length) :: map)) := by
  obtain ⟨hold, hls⟩ := h.located_append hl hc
  constructor
  · refine h.snoc ha hl hc (ha ▸ hasAction_append st.actions s) hcry ?_ ?_
    · intro i q hi hne
      exact h.other_located hrdy hi hne
    · intro i q hi hloc
      exact absurd (h.lt_length hloc) (lt_irrefl _)
  · intro type map hm hkn
    have hsn : FlagsMapOk (rules ++ [rule]) st' type map := by
      refine hm.snoc hold hkn ?_
      intro ent he hloc
      -- the entry is about bytes written before
      obtain ⟨j, q, hj, hjl⟩ := hm.used ent he
      rw [(hls _).mp hloc] at hjl
      exact absurd (h.lt_length hjl) (lt_irrefl _)
    refine ⟨hsn, ?_⟩
    intro hty
    refine hsn.cons hty ((hls _).mpr rfl) ?_ ?_
    · intro i hi hloc
      exact absurd (h.lt_length ((hold i hi _).mp hloc)) (lt_irrefl _)
    · intro i q hi hne
      obtain ⟨l, hloc, hlt⟩ := h.other_located hrdy hi hne
      exact ⟨l, (hold i (lt_of_getElem? hi) l).mpr hloc, hlt⟩

theorem Placed.reuse (h : Placed rules st) (hcss : rule.actionType ≠ .cssDisplayNoneSelector)
    (hm : FlagsMapOk rules st rule.actionType map) (hent : (rule.trigger.flags, location) ∈ map)
    (ha : st'.actions = st.actions) (hl : st'.actionLocations = st.actionLocations ++ [location])
    (hc : st'.cssDisplayNoneActionsMap = st.cssDisplayNoneActionsMap) :
    Placed (rules ++ [rule]) st' ∧ KeepsMaps rules st rule st' := by
  obtain ⟨hold, hls⟩ := h.located_append hl hc
  obtain ⟨j, q, hj, hjl⟩ := hm.used _ hent
  constructor
  · -- what is written there carries the rule that owns the location, and so this one
    obtain ⟨s, hs, hcry⟩ := h.written j q location hj hjl
    have hty := (hm.owners _ hent j q hj hjl).1
    have hcry' : Carries rule s := by
      cases s with
      | plain type => exact ⟨hcry.1.trans hty, hcry.2⟩
      | selector str => exact absurd (hty.symm.trans hcry.1) hcss
    refine h.snoc (by rw [ha, append_nil]) hl hc (ha ▸ hs) hcry' ?_ ?_
    · intro i q' hi hne
      exact hm.before _ hent i q' hi hne
    · intro i q' hi hloc
      obtain ⟨hty', hfgs, hfr⟩ := hm.owners _ hent i q' hi hloc
      exact ⟨⟨hty', hfgs, fun hsel => absurd (hty'.symm.trans hsel) hcss⟩, hfr⟩
  · intro type map' hm' hkn
    refine hm'.snoc hold hkn ?_
    intro ent he hloc
    -- both entries are about the rule that owns the location
    obtain ⟨hty, hfgs, _⟩ := hm.owners _ hent j q hj hjl
    have hent2 : ent.2 = location := (hls _).mp hloc
    obtain ⟨hty', hfgs', _⟩ := hm'.owners ent he j q hj (by rwa [hent2])
    exact ⟨hty.symm.trans hty', hfgs.symm.trans hfgs'⟩

theorem Placed.snocPending (st' : SerializerState) (h : Placed rules st)
    (hcss : rule.actionType = .cssDisplayNoneSelector) (ha : st'.actions = st.actions)
    (hl : st'.actionLocations = st.actionLocations ++ [unsignedMax])
    (hc : st'.cssDisplayNoneActionsMap = addPending rule.trigger rule.stringArgument
      st.actionLocations.length st.cssDisplayNoneActionsMap) :
    Placed (rules ++ [rule]) st' ∧ KeepsMaps rules st rule st' := by
  rw [h.length] at hc
  have hkn := isIgnore_css hcss
  have hpn : ∀ i, Pending st' i ↔ i = rules.length ∨ Pending st i := by
    intro i
    unfold Pending
    rw [hc]
    constructor
    · rintro ⟨slot, hsl, hmem⟩
      rcases mem_addPending hsl hmem with ⟨rfl, _⟩ | ⟨old, hold, _, hmem, _⟩
      · exact .inl rfl
      · exact .inr ⟨old, hold, hmem⟩
    · exact pending_addPending _ _ _ _ _
  have hold := located_snoc h hl (fun i hi => by
    rw [hpn]
    exact or_iff_right hi.ne)
  have hnt : ∀ l, ¬ Located st' rules.length l := fun l hloc =>
    hloc.2 ((hpn _).mpr (.inl rfl))
  -- a located rule is one of the rules seen before
  have hbc : ∀ i q l, (rules ++ [rule])[i]? = some q → Located st' i l →
      rules[i]? = some q ∧ Located st i l := by
    intro i q l hi hloc
    rcases getElem?_concat.mp hi with hi | ⟨rfl, _⟩
    · exact ⟨hi, (hold i (lt_of_getElem? hi) l).mp hloc⟩
    · exact absurd hloc (hnt l)
  refine ⟨⟨?_, ?_, ?_, ?_, ?_, ?_⟩, fun type map hm hk =>
    hm.snoc hold hk (fun ent _ hloc => absurd hloc (hnt _))⟩
  · rw [hl, length_append, length_append, h.length]
    rfl
  · intro i q l hi hloc
    obtain ⟨hi, hloc⟩ := hbc i q l hi hloc
    rw [ha]
    exact h.written i q l hi hloc
  · intro i j ri rj li lj hi hj hij hne hli hlj
    obtain ⟨hi, hli⟩ := hbc i ri li hi hli
    obtain ⟨hj, hlj⟩ := hbc j rj lj hj hlj
    exact h.ordered i j ri rj li lj hi hj hij hne hli hlj
  · intro i j ri rj l hi hj hij hli hlj
    obtain ⟨hi, hli⟩ := hbc i ri l hi hli
    obtain ⟨hj, hlj⟩ := hbc j rj l hj hlj
    exact h.shared_of_append hi hj hij hli hlj
  · rw [hc]
    exact (addPending_keys _ _ _ _ h.keys).1
  · intro slot hsl i hmem
    rw [hc] at hsl
    rcases mem_addPending hsl hmem with ⟨rfl, htr, hsel⟩ | ⟨old, hin, hkey, hmem, hs⟩
    · exact ⟨rule, getElem?_concat.mpr (.inr ⟨rfl, rfl⟩), hcss, htr.symm, hsel,
        sameKindFrom_last hkn⟩
    · obtain ⟨q, hq, hqc, htr, hsel, hfr⟩ := h.pending old hin i hmem
      exact ⟨q, getElem?_concat.mpr (.inl hq), hqc, htr.trans hkey, hs hsel, hfr.snoc hkn⟩

theorem mem_of_lookup {flags : ResourceFlags} (h : map.lookup flags = some location) :
    (flags, location) ∈ map := by
  obtain ⟨bef, after, rfl, _⟩ := lookup_eq_some_iff.mp h
  exact mem_append_right _ mem_cons_self

/-- Sharing by flags: the rule is located where `shareAction` says, and all maps stay right. -/
theorem Placed.share (st' : SerializerState) (h : Placed rules st) (hrdy : Ready st rule)
    (hty : rule.actionType = type) (hs : type.serializable = true)
    (hcss : type ≠ .cssDisplayNoneSelector) (hm : FlagsMapOk rules st type map)
    (ha : st'.actions = (shareAction st.actions map type rule.trigger.flags).2.1)
    (hl : st'.actionLocations = st.actionLocations ++
      [(shareAction st.actions map type rule.trigger.flags).1])
    (hc : st'.cssDisplayNoneActionsMap = st.cssDisplayNoneActionsMap) :
    Placed (rules ++ [rule]) st' ∧
      FlagsMapOk (rules ++ [rule]) st' type
        (shareAction st.actions map type rule.trigger.flags).2.2 ∧
      KeepsMaps rules st rule st' := by
  subst hty
  unfold shareAction at ha hl ⊢
  cases hlk : map.lookup rule.trigger.flags with
  | some location =>
    rw [hlk] at ha hl
    obtain ⟨hp, hmp⟩ := h.reuse hcss hm (mem_of_lookup hlk) ha hl hc
    exact ⟨hp, hmp _ _ hm (fun _ => rfl), hmp⟩
  | none =>
    rw [hlk] at ha hl
    obtain ⟨hp, hmp⟩ := h.fresh (s := .plain rule.actionType) hrdy ⟨rfl, hs, hcss⟩ ha hl hc
    exact ⟨hp, (hmp _ _ hm (fun _ => rfl)).2 rfl, fun type map hm hk => (hmp type map hm hk).1⟩

theorem Merged.pushAction (h : Merged rules st) (hrdy : Ready st rule)
    (hser : rule.actionType.serializable = true) :
    Merged (rules ++ [rule]) (pushAction st rule) := by
  have hfre : ∃ s : SerializedAction, Carries rule s ∧
      (ContentExtensions.pushAction st rule).actions = st.actions ++ s.bytes := by
    by_cases hcss : rule.actionType = .cssDisplayNoneSelector
    · refine ⟨.selector rule.stringArgument, ⟨hcss, [rule.stringArgument], ?_, ?_⟩, ?_⟩
      · exact mem_singleton.mpr rfl
      · simp [List.intercalate]
      · exact if_pos hcss
    · exact ⟨.plain rule.actionType, ⟨rfl, hser, hcss⟩, if_neg hcss⟩
  obtain ⟨s, hcry, ha⟩ := hfre
  obtain ⟨hp, hmp⟩ := h.toPlaced.fresh hrdy hcry ha rfl rfl
  exact ⟨hp, (hmp _ _ h.block hrdy.block).1,
    (hmp _ _ h.blockCookies hrdy.blockCookies).1,
    (hmp _ _ h.ignorePrevious hrdy.ignorePrevious).1⟩

theorem Merged.mergeAction (h : Merged rules st) (hrdy : Ready st rule)
    (hsp : mergeAction st rule = some st') :
    Merged (rules ++ [rule]) st' := by
  unfold ContentExtensions.mergeAction at hsp
  cases hty : rule.actionType with
  | cssDisplayNoneStyleSheet | invalidAction => rw [hty] at hsp; cases hsp
  | cssDisplayNoneSelector =>
    rw [hty] at hsp
    have hst := Option.some.inj hsp
    obtain ⟨hp, hmp⟩ := h.toPlaced.snocPending st' hty (hst ▸ rfl) (hst ▸ rfl) (hst ▸ rfl)
    subst hst
    exact ⟨hp, hmp _ _ h.block hrdy.block, hmp _ _ h.blockCookies hrdy.blockCookies,
      hmp _ _ h.ignorePrevious hrdy.ignorePrevious⟩
  | ignorePreviousRules =>
    rw [hty] at hsp
    have hst := Option.some.inj hsp
    obtain ⟨hp, hmn, hmp⟩ :=
      h.toPlaced.share st' hrdy hty rfl (by simp) h.ignorePrevious
        (hst ▸ rfl) (hst ▸ rfl) (hst ▸ rfl)
    subst hst
    exact ⟨hp, hmp _ _ h.block hrdy.block, hmp _ _ h.blockCookies hrdy.blockCookies, hmn⟩
  | blockLoad =>
    rw [hty] at hsp
    have hst := Option.some.inj hsp
    obtain ⟨hp, hmn, hmp⟩ :=
      h.toPlaced.share st' hrdy hty rfl (by simp) h.block (hst ▸ rfl) (hst ▸ rfl) (hst ▸ rfl)
    subst hst
    exact ⟨hp, hmn, hmp _ _ h.blockCookies hrdy.blockCookies,
      hmp _ _ h.ignorePrevious hrdy.ignorePrevious⟩
  | blockCookies =>
    rw [hty] at hsp
    have hst := Option.some.inj hsp
    obtain ⟨hp, hmn, hmp⟩ :=
      h.toPlaced.share st' hrdy hty rfl (by simp) h.blockCookies (hst ▸ rfl) (hst ▸ rfl) (hst ▸ rfl)
    subst hst
    exact ⟨hp, hmp _ _ h.block hrdy.block, hmn, hmp _ _ h.ignorePrevious hrdy.ignorePrevious⟩

/-- **Step.** An iteration of the loop keeps the invariant. -/
theorem Merged.step (hord : ∀ sls, (order sls).Perm sls) (h : Merged rules st)
    (hst : serializeRule order st rule = some st') :
    Merged (rules ++ [rule]) st' := by
  unfold serializeRule at hst
  have hcld := h.closeMaps hord rule.actionType
  split at hst
  case isTrue => cases hst
  case isFalse hser =>
    split at hst
    case isTrue =>
      cases hst
      exact hcld.pushAction ready_closeMaps (Bool.of_not_eq_false hser)
    case isFalse => exact hcld.mergeAction ready_closeMaps hst

/-- **Run.** The loop keeps the invariant over the whole rule list. -/
theorem Merged.run (hord : ∀ sls, (order sls).Perm sls) (more : List ContentExtensionRule)
    (h : Merged rules st) (hr : more.foldlM (serializeRule order) st = some st') :
    Merged (rules ++ more) st' := by
  induction more generalizing rules st with
  | nil =>
    cases hr
    rwa [append_nil]
  | cons rule rest ih =>
    obtain ⟨mid, hmid, hrest⟩ := Option.bind_eq_some_iff.mp hr
    have := ih (h.step hord hmid) hrest
    rwa [append_assoc] at this

end WebKit.ContentExtensions
