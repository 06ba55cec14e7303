import WebKit.ContentExtensions.ActionMerging
import Mathlib.Data.List.Sort

/-!
# What an ignore-previous-rules action hides

The invariant of `serializeActions` at the end of the run, and what the backend makes of it: it
walks the sorted locations of the matching rules from the back to the first ignore-previous-rules
action, and keeps exactly the actions that follow the last matching ignore rule.
-/

namespace WebKit.ContentExtensions

open List

variable (ruleList : List ContentExtensionRule)

/-- The rule at an index, with its location. -/
def RuleAt (locations : List Nat) (index : Nat)
    (rule : ContentExtensionRule) (location : Nat) : Prop :=
  ruleList[index]? = some rule ∧ locations[index]? = some location

/-- The action there has the type of the rule, and its selector is a list with that of the rule in
it. -/
def ReadsBack (rule : ContentExtensionRule) (location : Nat) (action : Action) : Prop :=
  action.type = rule.actionType ∧ action.actionID = location ∧
    (rule.actionType = .cssDisplayNoneSelector →
      ∃ merged : List WTFString, rule.stringArgument ∈ merged ∧
        action.stringArgument.characters =
          List.intercalate [(0x2c : UChar)] (merged.map WTFString.characters))

/-- The matching rule at `index` follows every matching ignore rule. -/
def FollowsIgnores (matching : List Nat) (index : Nat) : Prop :=
  ∀ k ∈ matching, ∀ rule, ruleList[k]? = some rule → rule.isIgnore = true → k < index

/-- The same, read off the locations. -/
def LocatedAfterIgnores (locations : List Nat) (matching : List Nat) (location : Nat) : Prop :=
  ∀ k ∈ matching, ∀ rule l, RuleAt ruleList locations k rule l → rule.isIgnore = true →
    l < location

/-- What the serialized actions and their locations guarantee. -/
structure SerializedFaithfully (ruleList : List ContentExtensionRule)
    (actions : List SerializedActionByte) (locations : List Nat) : Prop where
  /-- Every rule has a location. -/
  length : locations.length = ruleList.length
  /-- Ignore rules are located in rule order relative to all other rules. -/
  ordered : ∀ i k ri rk li lk, RuleAt ruleList locations i ri li →
    RuleAt ruleList locations k rk lk → ri.isIgnore = false → rk.isIgnore = true →
    (li < lk ↔ i < k)
  /-- Every location reads back as the action of its rule. -/
  readsBack : ∀ i rule location, RuleAt ruleList locations i rule location →
    ∃ action, deserialize actions location = some action ∧ ReadsBack rule location action
  /-- Rules that share a location can be merged; those between are ignore rules iff they are. -/
  shared : ∀ i j ri rj location, i < j → RuleAt ruleList locations i ri location →
    RuleAt ruleList locations j rj location →
    Mergeable ri rj ∧ ∀ k rk, ruleList[k]? = some rk → i < k → k < j →
      rk.isIgnore = ri.isIgnore
  /-- Being located after all matching ignore rules is following all of them. -/
  located_after : ∀ matching, ∀ i ∈ matching, ∀ rule location,
    RuleAt ruleList locations i rule location →
    (LocatedAfterIgnores ruleList locations matching location ↔
      FollowsIgnores ruleList matching i)
  /-- Given the locations of the matching rules, the backend keeps the actions of those that follow
  the last matching ignore rule, and adds the style sheet if there is none. -/
  applied : ∀ matching, (∀ i ∈ matching, i < ruleList.length) → ∀ matched,
    (∀ l, l ∈ matched ↔ ∃ i ∈ matching, locations[i]? = some l) → ∀ identifier,
    ∃ final, actionsForResourceLoad actions identifier matched = some final ∧
      ∀ action, action ∈ final ↔
        (∃ i ∈ matching, FollowsIgnores ruleList matching i ∧
          ∃ location read, locations[i]? = some location ∧
            deserialize actions location = some read ∧
            action = { read with extensionIdentifier := identifier.characters }) ∨
        ((∀ i ∈ matching, ∀ rule, ruleList[i]? = some rule → rule.isIgnore = false) ∧
          action = styleSheetAction identifier)

/-! ## The walk of the backend -/

/-- The walk stops at the greatest location of an ignore action, and keeps what lies above it. -/
theorem collectActions_spec (acts : List SerializedActionByte) (ident : List UChar)
    (read : Nat → Action) (locs : List Nat)
    (hrd : ∀ l ∈ locs, deserialize acts l = some (read l))
    (hs : locs.Pairwise (fun a b => b ≤ a)) :
    ∃ final saw, collectActions acts ident locs = some (final, saw) ∧
      (saw = true ↔ ∃ l ∈ locs, (read l).type = .ignorePreviousRules) ∧
      ∀ action, action ∈ final ↔ ∃ l ∈ locs,
        (∀ l' ∈ locs, (read l').type = .ignorePreviousRules → l' < l) ∧
        action = { read l with extensionIdentifier := ident } := by
  induction locs with
  | nil => exact ⟨[], false, rfl, by simp, by simp⟩
  | cons l rest ih =>
    rw [pairwise_cons] at hs
    have hl := hrd l mem_cons_self
    unfold collectActions
    rw [hl]
    by_cases hign : (read l).type = .ignorePreviousRules
    · -- the walk stops here, and everything left is at or below this location
      refine ⟨[], true, ?_, ?_, ?_⟩
      · exact if_pos hign
      · exact ⟨fun _ => ⟨l, mem_cons_self, hign⟩, fun _ => rfl⟩
      · intro action
        constructor
        · rintro ⟨⟩
        · rintro ⟨l₁, hl₁, haft, _⟩
          have hlt := haft l mem_cons_self hign
          rcases mem_cons.mp hl₁ with rfl | hl₁
          · exact absurd hlt (lt_irrefl _)
          · exact absurd (hs.1 l₁ hl₁) (not_le.mpr hlt)
    · obtain ⟨final, saw, hr, hsaw, hf⟩ := ih (forall_mem_cons.mp hrd).2 hs.2
      refine ⟨{ read l with extensionIdentifier := ident } :: final, saw, ?_, ?_, ?_⟩
      · show (if (read l).type = .ignorePreviousRules then _ else _) = _
        rw [if_neg hign, hr]
        rfl
      · rw [hsaw]
        simp [hign]
      · intro action
        rw [mem_cons, hf]
        constructor
        · rintro (rfl | ⟨l₁, hl₁, haft, rfl⟩)
          · refine ⟨l, mem_cons_self, ?_, rfl⟩
            intro l' hl' hign'
            rcases mem_cons.mp hl' with rfl | hl'
            · exact absurd hign' hign
            · refine lt_of_le_of_ne (hs.1 l' hl') ?_
              rintro rfl
              exact hign hign'
          · refine ⟨l₁, mem_cons_of_mem _ hl₁, ?_, rfl⟩
            intro l' hl' hign'
            rcases mem_cons.mp hl' with rfl | hl'
            · exact absurd hign' hign
            · exact haft l' hl' hign'
        · rintro ⟨l₁, hl₁, haft, rfl⟩
          rcases mem_cons.mp hl₁ with rfl | hl₁
          · exact .inl rfl
          · exact .inr ⟨l₁, hl₁, (forall_mem_cons.mp haft).2, rfl⟩

/-! ## The end of the run -/

section Final

variable {ruleList : List ContentExtensionRule} {st : SerializerState} {rule : ContentExtensionRule}

theorem RuleAt.located {i location : Nat} (hnil : st.cssDisplayNoneActionsMap = [])
    (h : RuleAt ruleList st.actionLocations i rule location) : Located st i location :=
  ⟨h.2, not_pending_of_nil hnil i⟩

section

variable (h : Merged ruleList st) (hnil : st.cssDisplayNoneActionsMap = [])

include h hnil

theorem Merged.readsBack (hsz : st.actions.length < 2 ^ 32) {i loc : Nat}
    (hr : RuleAt ruleList st.actionLocations i rule loc) :
    ∃ action, deserialize st.actions loc = some action ∧ ReadsBack rule loc action := by
  obtain ⟨s, hs, hcry⟩ := h.written i rule loc hr.1 (hr.located hnil)
  cases s with
  | plain type =>
    obtain ⟨hty, hser, hcss⟩ := hcry
    refine ⟨_, deserialize_plain hs hser hcss, hty, rfl, ?_⟩
    intro hsel
    exact absurd (hty.trans hsel) hcss
  | selector str =>
    obtain ⟨hcss, merged, hm, hchs⟩ := hcry
    obtain ⟨str', hrd, hchs'⟩ := deserialize_selector hs hsz
    exact ⟨_, hrd, hcss.symm, rfl, fun _ => ⟨merged, hm, hchs'.trans hchs⟩⟩

theorem Merged.ordered_iff {i k li lk : Nat} {ri rk : ContentExtensionRule}
    (hi : RuleAt ruleList st.actionLocations i ri li)
    (hk : RuleAt ruleList st.actionLocations k rk lk) (hri : ri.isIgnore = false)
    (hrk : rk.isIgnore = true) : li < lk ↔ i < k := by
  have hne : ri.isIgnore ≠ rk.isIgnore := by
    rw [hri, hrk]
    exact Bool.false_ne_true
  constructor
  · intro hlt
    by_contra hge
    rcases lt_or_eq_of_le (not_lt.mp hge) with hki | rfl
    · have := h.ordered k i rk ri lk li hk.1 hi.1 hki hne.symm (hk.located hnil) (hi.located hnil)
      omega
    · have heq : some ri = some rk := hi.1.symm.trans hk.1
      exact hne (by rw [Option.some.inj heq])
  · intro hik
    exact h.ordered i k ri rk li lk hi.1 hk.1 hik hne (hi.located hnil) (hk.located hnil)

/-- The order of the locations says what follows the last matching ignore rule. -/
theorem Merged.locatedAfter_iff {matching : List Nat} {i loc : Nat} (hi : i ∈ matching)
    (hr : RuleAt ruleList st.actionLocations i rule loc) :
    LocatedAfterIgnores ruleList st.actionLocations matching loc ↔
      FollowsIgnores ruleList matching i := by
  cases hkn : rule.isIgnore with
  | true =>
    -- an ignore rule neither follows itself nor is located after itself
    constructor
    · intro haft
      exact absurd (haft i hi rule loc hr hkn) (lt_irrefl _)
    · intro hfol
      exact absurd (hfol i hi rule hr.1 hkn) (lt_irrefl _)
  | false =>
    have hne : ∀ k rk, ruleList[k]? = some rk → rk.isIgnore = true → k ≠ i := by
      rintro k rk hk hign rfl
      rw [Option.some.inj (hk.symm.trans hr.1), hkn] at hign
      exact Bool.false_ne_true hign
    constructor
    · intro haft k hk rk hrk hign
      obtain ⟨lk, hlk⟩ := h.located_of_not_pending hrk (not_pending_of_nil hnil k)
      have hlt := haft k hk rk lk ⟨hrk, hlk.1⟩ hign
      have hiff := h.ordered_iff hnil hr ⟨hrk, hlk.1⟩ hkn hign
      have := hne k rk hrk hign
      omega
    · intro hfol k hk rk lk hrk hign
      have hki := hfol k hk rk hrk.1 hign
      exact h.ordered k i rk rule lk loc hrk.1 hr.1 hki
        (by rw [hkn, hign]; exact Bool.false_ne_true.symm) (hrk.located hnil)
        (hr.located hnil)

theorem Merged.faithful (hsz : st.actions.length < 2 ^ 32) :
    SerializedFaithfully ruleList st.actions st.actionLocations where
  length := h.length
  ordered i k ri rk li lk hi hk hri hrk := h.ordered_iff hnil hi hk hri hrk
  readsBack i rule loc hr := h.readsBack hnil hsz hr
  shared i j ri rj loc hij hi hj := by
    obtain ⟨hm, hbtw⟩ := h.shared i j ri rj loc hi.1 hj.1 hij (hi.located hnil) (hj.located hnil)
    refine ⟨hm, ?_⟩
    intro k rk hk hik hkj
    exact hbtw k rk hk (le_of_lt hik) (le_of_lt hkj)
  located_after matching i hi rule loc hr := h.locatedAfter_iff hnil hi hr
  applied matching hmt matched hmtd ident := by
    have hru : ∀ i ∈ matching, ∃ rule l, RuleAt ruleList st.actionLocations i rule l := by
      intro i hi
      have hget := getElem?_eq_getElem (hmt i hi)
      obtain ⟨l, hl⟩ := h.located_of_not_pending hget (not_pending_of_nil hnil i)
      exact ⟨_, l, hget, hl.1⟩
    let read : Nat → Action := fun l =>
      (deserialize st.actions l).getD (Action.plain .invalidAction l)
    have hrd : ∀ i rule l, RuleAt ruleList st.actionLocations i rule l →
        deserialize st.actions l = some (read l) ∧
          ((read l).type = .ignorePreviousRules ↔ rule.isIgnore = true) := by
      intro i rule l hr
      obtain ⟨action, hd, hty, _⟩ := h.readsBack hnil hsz hr
      have : read l = action := by
        show (deserialize st.actions l).getD _ = action
        rw [hd]
        rfl
      rw [this, hty]
      exact ⟨hd, beq_iff_eq.symm⟩
    set sorted := matched.mergeSort fun a b => decide (a ≤ b)
    -- the locations that were matched are those of the matching rules
    have hm : ∀ l, l ∈ sorted.reverse ↔
        ∃ i ∈ matching, ∃ rule, RuleAt ruleList st.actionLocations i rule l := by
      intro l
      rw [mem_reverse, mem_mergeSort, hmtd]
      refine exists_congr fun i => and_congr_right fun hi => ?_
      constructor
      · exact fun hl => ⟨_, getElem?_eq_getElem (hmt i hi), hl⟩
      · exact fun hr => hr.choose_spec.2
    obtain ⟨final, saw, hcl, hsaw, hf⟩ :=
      collectActions_spec st.actions ident.characters read sorted.reverse
        (by
          intro l hl
          obtain ⟨i, _, rule, hr⟩ := (hm l).mp hl
          exact (hrd i rule l hr).1)
        (by
          rw [pairwise_reverse]
          have hsr : sorted.Pairwise (fun a b => decide (a ≤ b) = true) :=
            pairwise_mergeSort (by simp only [decide_eq_true_eq]; omega)
              (by simp only [Bool.or_eq_true, decide_eq_true_eq]; omega) matched
          simpa only [decide_eq_true_eq] using hsr)
    have haft : ∀ l, (∀ l' ∈ sorted.reverse, (read l').type = .ignorePreviousRules → l' < l) ↔
        LocatedAfterIgnores ruleList st.actionLocations matching l := by
      intro l
      constructor
      · intro ha k hk rule lk hr hign
        exact ha lk ((hm lk).mpr ⟨k, hk, rule, hr⟩) ((hrd k rule lk hr).2.mpr hign)
      · intro ha l' hl' hign
        obtain ⟨k, hk, rule, hr⟩ := (hm l').mp hl'
        exact ha k hk rule l' hr ((hrd k rule l' hr).2.mp hign)
    have hnn : saw = false ↔
        ∀ i ∈ matching, ∀ rule, ruleList[i]? = some rule → rule.isIgnore = false := by
      rw [← Bool.not_eq_true, hsaw]
      constructor
      · intro hno i hi rule hrl
        obtain ⟨rule', l, hr⟩ := hru i hi
        obtain rfl := Option.some.inj (hrl.symm.trans hr.1)
        by_contra hign
        exact hno ⟨l, (hm l).mpr ⟨i, hi, rule, hr⟩,
          (hrd i rule l hr).2.mpr (Bool.of_not_eq_false hign)⟩
      · rintro ha ⟨l, hl, hign⟩
        obtain ⟨i, hi, rule, hr⟩ := (hm l).mp hl
        have := ha i hi rule hr.1
        rw [(hrd i rule l hr).2.mp hign] at this
        exact Bool.false_ne_true this.symm
    refine ⟨if saw then final else final ++ [styleSheetAction ident], ?_, fun action => ?_⟩
    · unfold actionsForResourceLoad
      dsimp only
      rw [hcl]
      cases saw <;> rfl
    have hsht : action ∈ (if saw then final else final ++ [styleSheetAction ident]) ↔
        action ∈ final ∨ saw = false ∧ action = styleSheetAction ident := by
      cases saw <;> simp
    rw [hsht, hnn, hf]
    -- what the walk keeps, in terms of the matching rules
    refine or_congr_left ⟨?_, ?_⟩
    · rintro ⟨l, hl, ha, rfl⟩
      obtain ⟨i, hi, rule, hr⟩ := (hm l).mp hl
      exact ⟨i, hi, (h.locatedAfter_iff hnil hi hr).mp ((haft l).mp ha), l, read l, hr.2,
        (hrd i rule l hr).1, rfl⟩
    · rintro ⟨i, hi, hfol, l, found, hl, hd, rfl⟩
      obtain ⟨rule, l', hr⟩ := hru i hi
      obtain rfl := Option.some.inj (hl.symm.trans hr.2)
      have hfnd : some found = some (read l) := hd.symm.trans (hrd i rule l hr).1
      refine ⟨l, (hm l).mpr ⟨i, hi, rule, hr⟩, ?_, by rw [Option.some.inj hfnd]⟩
      exact (haft l).mpr ((h.locatedAfter_iff hnil hi hr).mpr hfol)

end

end Final

/-- **Merging keeps ignore-previous-rules.** Whatever the rule list and the order of the pending
selectors, the locations are in rule order wherever an ignore rule is concerned, read back as the
actions of their rules, are shared by mergeable rules only, and give the backend exactly the actions
of the matching rules that follow the last matching ignore rule. Ignore rules share a location
across ignore rules only. -/
theorem serializeActions_faithful
    (order : PendingDisplayNoneActionsMap → PendingDisplayNoneActionsMap)
    (horder : ∀ slots, (order slots).Perm slots) (ruleList : List ContentExtensionRule)
    (actions : List SerializedActionByte) (locations : List Nat)
    (h : serializeActions order ruleList = some (actions, locations)) :
    SerializedFaithfully ruleList actions locations := by
  obtain ⟨st, hrun, hfin⟩ := Option.bind_eq_some_iff.mp h
  have hmrg : Merged ruleList (resolvePendingDisplayNoneActions order st) := by
    have := Merged.run horder ruleList merged_nil hrun
    exact this.resolvePending horder
  have hnil : (resolvePendingDisplayNoneActions order st).cssDisplayNoneActionsMap = [] := rfl
  simp only at hfin
  split at hfin
  case isFalse => cases hfin
  case isTrue hsize =>
    cases hfin
    exact hmrg.faithful hnil hsize

/-- A rule without domains, for every load, on the url filter `a`. -/
def sampleRule (type : ActionType) (selector : List SerializedActionByte) :
    ContentExtensionRule where
  trigger := { urlFilter := [0x61] }
  actionType := type
  stringArgument := WTFString.ofLChars selector
  urlFilter_ne_nil := cons_ne_nil _ _

/-- Two selectors merged, an ignore rule, a block rule. -/
theorem serializeActions_faithful_sample :
    SerializedFaithfully
      [sampleRule .cssDisplayNoneSelector [0x62], sampleRule .cssDisplayNoneSelector [0x63],
        sampleRule .ignorePreviousRules [], sampleRule .blockLoad []]
      [2, 3, 0, 0, 0, 0, 0x62, 0x2c, 0x63, 4, 0] [0, 0, 9, 10] :=
  serializeActions_faithful id (fun slots => List.Perm.refl slots) _ _ _ (by decide)

/-- Three ignore rules in a row share one location. -/
theorem serializeActions_shares_across_ignore :
    ¬ ∀ order : PendingDisplayNoneActionsMap → PendingDisplayNoneActionsMap,
      (∀ slots, (order slots).Perm slots) → ∀ ruleList actions locations,
      serializeActions order ruleList = some (actions, locations) →
      ∀ i j k ri rj rk location, RuleAt ruleList locations i ri location →
        RuleAt ruleList locations j rj location → i < k → k < j →
        ruleList[k]? = some rk → rk.isIgnore = false := by
  intro h
  have hbtw := h id (fun slots => List.Perm.refl slots)
    [sampleRule .ignorePreviousRules [], sampleRule .ignorePreviousRules [],
      sampleRule .ignorePreviousRules []] [4] [0, 0, 0] (by decide) 0 2 1 _ _ _ 0
    ⟨rfl, rfl⟩ ⟨rfl, rfl⟩ (by decide) (by decide) rfl
  exact absurd hbtw (by decide)

end WebKit.ContentExtensions
