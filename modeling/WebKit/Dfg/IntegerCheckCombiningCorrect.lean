import WebKit.Dfg.IntegerCheckCombining

/-!
# Combined checks cover the checks they replace

Additions of constants between two that do not overflow do not overflow. For bounds checks this
holds with wrap-around, since the two constants differ by less than `2 ^ 31`. Both need the
smallest constant to be checked.

The transformed block and the block itself are run side by side. What the combined checks have shown
about the source of a range stays true, since the value of a node does not change.
-/

namespace WebKit.Dfg

open List Function

/-! ## Ranges -/

/-- The bounds are the smallest and the largest of the addends. -/
structure Spans (range : Range) (addends : List Int32) : Prop where
  hoisted : range.hoisted = false
  count : range.count = addends.length
  between : ∀ a ∈ addends, range.minBound.toInt ≤ a.toInt ∧ a.toInt ≤ range.maxBound.toInt
  minBound_mem : addends ≠ [] → range.minBound ∈ addends

theorem spans_empty : Spans .empty [] where
  hoisted := rfl
  count := rfl
  between := forall_mem_nil _
  minBound_mem := fun hne => absurd rfl hne

variable {range : Range} {values values' : Values} {addend : Int32} {fresh : Nat}

theorem Spans.extend {addends : List Int32} (h : Spans range addends) (addend : Int32) :
    Spans (range.extend addend) (addends ++ [addend]) := by
  have hls : addend ∈ addends ++ [addend] := mem_append_right _ mem_cons_self
  have hl : (addends ++ [addend]).length = addends.length + 1 := length_append
  have hmin : range.count ≠ 0 → range.minBound ∈ addends := fun hc =>
    h.minBound_mem fun hemp => hc (by rw [h.count, hemp]; rfl)
  have hc : range.count + 1 = (addends ++ [addend]).length := by rw [hl, h.count]
  fun_cases Range.extend range addend
  case case1 hne hgtr =>
    refine ⟨h.hoisted, hc, ?_, fun _ => mem_append_left _ (hmin hne)⟩
    refine forall_mem_append.mpr ⟨fun a ha => ?_, forall_mem_singleton.mpr ?_⟩
    · obtain ⟨hlow, hhg⟩ := h.between a ha
      exact ⟨hlow, Int.le_trans hhg (Int.le_of_lt hgtr)⟩
    · exact ⟨Int.le_trans (h.between _ (hmin hne)).2 (Int.le_of_lt hgtr), Int.le_refl _⟩
  case case2 hne hgtr hles =>
    refine ⟨h.hoisted, hc, ?_, fun _ => hls⟩
    refine forall_mem_append.mpr ⟨fun a ha => ?_, forall_mem_singleton.mpr ?_⟩
    · obtain ⟨hlow, hhg⟩ := h.between a ha
      exact ⟨Int.le_trans (Int.le_of_lt hles) hlow, hhg⟩
    · exact ⟨Int.le_refl _, Int.not_lt.mp hgtr⟩
  case case3 hne hgtr hles =>
    refine ⟨h.hoisted, hc, ?_, fun _ => mem_append_left _ (hmin hne)⟩
    refine forall_mem_append.mpr ⟨h.between, forall_mem_singleton.mpr ?_⟩
    exact ⟨Int.not_lt.mp hles, Int.not_lt.mp hgtr⟩
  case case4 hz =>
    obtain rfl : addends = [] := length_eq_zero_iff.mp (h.count.symm.trans (not_not.mp hz))
    refine ⟨h.hoisted, hc, forall_mem_singleton.mpr ?_, fun _ => hls⟩
    exact ⟨Int.le_refl _, Int.le_refl _⟩

namespace BasicBlock

variable {b : BasicBlock} {key : RangeKey} {addend : Int32} {node : Nat}

/-- The addends of the nodes with a key. -/
def addendsOf (b : BasicBlock) (key : RangeKey) (nodes : List Nat) : List Int32 :=
  nodes.filterMap (fun node =>
    match b.rangeKeyAndAddend node with
    | some (other, addend) => if other = key then some addend else none
    | none => none)

theorem mem_addendsOf {nodes : List Nat} :
    addend ∈ b.addendsOf key nodes ↔
      ∃ node ∈ nodes, b.rangeKeyAndAddend node = some (key, addend) := by
  rw [addendsOf, mem_filterMap]
  refine exists_congr fun node => and_congr_right fun _ => ?_
  cases b.rangeKeyAndAddend node with
  | none => simp
  | some data => simp [Prod.ext_iff]

theorem collectRanges_spans {rgs : RangeMap} {addends : RangeKey → List Int32}
    (nodes : List Nat) (h : ∀ key, Spans (rgs key) (addends key)) (key : RangeKey) :
    Spans (b.collectRanges rgs nodes key) (addends key ++ b.addendsOf key nodes) := by
  fun_induction collectRanges b rgs nodes generalizing addends with
  | case1 rgs =>
    rw [addendsOf, filterMap_nil, append_nil]
    exact h key
  | case2 rgs node rest hdata ih =>
    have hsm : b.addendsOf key (node :: rest) = b.addendsOf key rest := by
      rw [addendsOf, filterMap_cons, hdata]
      rfl
    rw [hsm]
    exact ih h
  | case3 rgs node rest oth addend hdata ih =>
    have hspl : addends key ++ b.addendsOf key (node :: rest)
        = (addends key ++ if oth = key then [addend] else []) ++ b.addendsOf key rest := by
      rw [addendsOf, filterMap_cons, hdata, append_assoc]
      by_cases heq : oth = key
      · simp [heq, addendsOf]
      · simp [heq, addendsOf]
    rw [hspl]
    refine @ih (fun k => addends k ++ if oth = k then [addend] else []) fun k => ?_
    by_cases heq : oth = k
    · subst heq
      rw [update_self, if_pos rfl]
      exact (h oth).extend addend
    · rw [update_of_ne (fun hk => heq hk.symm), if_neg heq, append_nil]
      exact h k

theorem ranges_spans (b : BasicBlock) (key : RangeKey) :
    Spans (b.ranges key) (b.addendsOf key b.nodes) :=
  collectRanges_spans b.nodes (fun _ => spans_empty) key

end BasicBlock

/-! ## What a combined check covers -/

/-- What a key reads. -/
def RangeKey.operands : RangeKey → List Nat
  | .addition source => [source]
  | .arrayBounds none length => [length]
  | .arrayBounds (some source) length => [source, length]

/-- The check of a node with the key and the addend holds. -/
def Covered (values : Values) (key : RangeKey) (addend : Int32) : Prop :=
  match key with
  | .addition source => AddFits (values source) addend
  | .arrayBounds none length => InBounds addend (values length)
  | .arrayBounds (some source) length => InBounds (values source + addend) (values length)

theorem Covered.congr {key : RangeKey} (h : Covered values key addend)
    (hsm : ∀ i ∈ key.operands, values' i = values i) :
    Covered values' key addend := by
  cases key with
  | addition source =>
    rw [Covered, hsm source mem_cons_self]
    exact h
  | arrayBounds source len =>
    cases source with
    | none =>
      rw [Covered, hsm len mem_cons_self]
      exact h
    | some source =>
      rw [Covered, hsm source mem_cons_self, hsm len (mem_cons_of_mem _ mem_cons_self)]
      exact h

theorem toInt_add_cases (x y : Int32) :
    (x + y).toInt = x.toInt + y.toInt ∨ (x + y).toInt = x.toInt + y.toInt - 2 ^ 32 ∨
      (x + y).toInt = x.toInt + y.toInt + 2 ^ 32 := by
  have hx := x.toInt_lt
  have hx' := x.le_toInt
  have hy := y.toInt_lt
  have hy' := y.le_toInt
  rw [BitVec.toInt_add, Int.bmod_def]
  split <;> omega

theorem inBounds_between {x low high a length : Int32} (hlow : InBounds (x + low) length)
    (hhg : InBounds (x + high) length) (hdf : high.toInt - low.toInt < 2 ^ 31)
    (hfr : low.toInt ≤ a.toInt) (hto : a.toInt ≤ high.toInt) : InBounds (x + a) length := by
  obtain ⟨hlow0, hlow1⟩ := hlow
  obtain ⟨hhg0, hhg1⟩ := hhg
  have hl := length.toInt_lt
  have h1 := toInt_add_cases x low
  have h2 := toInt_add_cases x high
  have h3 := toInt_add_cases x a
  have ha := (x + a).toInt_lt
  have ha' := (x + a).le_toInt
  constructor <;> omega

theorem difference_lt_of_isValid {source : Option Nat} {len : Nat}
    (h : isValid (.arrayBounds source len) range = true) :
    range.maxBound.toInt - range.minBound.toInt < 2 ^ 31 := by
  rw [isValid] at h
  split at h
  · cases h
  have hsh : (range.maxBound - range.minBound) >>> 31 = 0 := by simpa using h
  have hnat : (range.maxBound - range.minBound).toNat < 2 ^ 31 := by
    have hz := congrArg BitVec.toNat hsh
    rw [BitVec.toNat_ushiftRight, Nat.shiftRight_eq_div_pow] at hz
    have hdiv : (range.maxBound - range.minBound).toNat / 2 ^ 31 = 0 := hz
    omega
  have hmax := range.maxBound.toInt_eq_toNat_cond
  have hmin := range.minBound.toInt_eq_toNat_cond
  rw [BitVec.toNat_sub] at hnat
  split at hmax <;> split at hmin <;> omega

/-! ## What hoisting checks -/

variable {source : Nat}

theorem insertAdd_spec {mode : ArithMode} (hs : source < fresh)
    (hr : run values (insertAdd fresh source addend mode).2.instructions = some values') :
    (∀ i < fresh, values' i = values i) ∧
      fresh ≤ (insertAdd fresh source addend mode).2.fresh ∧
      (insertAdd fresh source addend mode).1 < (insertAdd fresh source addend mode).2.fresh ∧
      values' (insertAdd fresh source addend mode).1 = values source + addend ∧
      (mode ≠ .unchecked → addend ≠ 0 → AddFits (values source) addend) := by
  rw [insertAdd] at hr ⊢
  by_cases hz : addend = 0
  · rw [if_pos hz] at hr ⊢
    cases hr
    refine ⟨fun _ _ => rfl, le_refl _, hs, ?_, fun _ hne => absurd hz hne⟩
    rw [hz]
    exact (BitVec.add_zero _).symm
  · rw [if_neg hz] at hr ⊢
    obtain ⟨afterConstant, ⟨⟩, ha⟩ := run_cons.mp hr
    obtain ⟨afterAdd, hexe, ⟨⟩⟩ := run_cons.mp ha
    have hoth : update values fresh addend source = values source := update_of_ne (ne_of_lt hs) _ _
    rw [execute, hoth, update_self] at hexe
    obtain ⟨hft, ⟨⟩⟩ := Option.ite_none_right_eq_some.mp hexe
    refine ⟨fun i hi => ?_, Nat.le_add_right _ _, Nat.lt_succ_self _,
      update_self _ _ _, fun hmd _ => hft.resolve_left hmd⟩
    rw [update_of_ne (by omega), update_of_ne (ne_of_lt hi)]

theorem execute_checkInBounds {node idx len : Nat}
    (h : execute values node (.checkInBounds idx len) = some values') :
    values' = values ∧ InBounds (values idx) (values len) := by
  obtain ⟨hin, ⟨⟩⟩ := Option.ite_none_right_eq_some.mp h
  exact ⟨rfl, hin⟩

/-- Constants between two that can be added can be added; a bound with the sign of 0 needs no check.
-/
theorem addFits_between {x low high a : Int32} (hlow : low.toInt < 0 → AddFits x low)
    (hhg : 0 < high.toInt → AddFits x high) (hfr : low.toInt ≤ a.toInt)
    (hto : a.toInt ≤ high.toInt) : AddFits x a := by
  have hx := x.toInt_lt
  have hx' := x.le_toInt
  unfold AddFits at *
  omega

theorem optionalAdd_spec {c : Prop} [Decidable c] (hs : source < fresh) (hne : c → addend ≠ 0)
    (hr : run values (if c then (insertAdd fresh source addend .checkOverflow).2 else ⟨[],
      fresh⟩).instructions = some values') :
    (∀ i < fresh, values' i = values i) ∧
      fresh ≤ (if c then (insertAdd fresh source addend .checkOverflow).2 else ⟨[], fresh⟩).fresh ∧
      (c → AddFits (values source) addend) := by
  by_cases hc : c
  · rw [if_pos hc] at hr ⊢
    obtain ⟨hsm, hfre, -, -, hft⟩ := insertAdd_spec hs hr
    exact ⟨hsm, hfre, fun _ => hft nofun (hne hc)⟩
  · rw [if_neg hc] at hr ⊢
    cases hr
    exact ⟨fun _ _ => rfl, le_rfl, fun h => absurd h hc⟩

/-- **Hoisting.** The inserted nodes change no value of the block, and if they run to their end,
cover every addend of the range. -/
theorem hoist_spec {key : RangeKey} (hvld : isValid key range = true)
    (hop : ∀ i ∈ key.operands, i < fresh)
    (hnn : ∀ len, key = .arrayBounds none len → 0 ≤ range.minBound.toInt)
    (hr : run values (hoist fresh key range).instructions = some values') :
    (∀ i < fresh, values' i = values i) ∧ fresh ≤ (hoist fresh key range).fresh ∧
      ∀ addend : Int32, range.minBound.toInt ≤ addend.toInt →
        addend.toInt ≤ range.maxBound.toInt → Covered values key addend := by
  have hne : ∀ {x : Int32}, x.toInt ≠ 0 → x ≠ 0 := fun hx hz => hx (by rw [hz]; rfl)
  cases key with
  | addition source =>
    have hs : source < fresh := hop source mem_cons_self
    obtain ⟨middle, hfst, hsnd⟩ := run_append.mp hr
    obtain ⟨hsm, hfre, hmin⟩ := optionalAdd_spec hs (fun h => hne (by omega)) hfst
    obtain ⟨hsm', hfre', hmax⟩ :=
      optionalAdd_spec (lt_of_lt_of_le hs hfre) (fun h => hne (by omega)) hsnd
    rw [hsm source hs] at hmax
    refine ⟨fun i hi => ?_, le_trans hfre hfre', fun addend hfr hto => ?_⟩
    · rw [hsm' i (lt_of_lt_of_le hi hfre), hsm i hi]
    · exact addFits_between hmin hmax hfr hto
  | arrayBounds source len =>
    cases source with
    | none =>
      have hl : len < fresh := hop len mem_cons_self
      obtain ⟨afterConstant, ⟨⟩, hcks⟩ := run_cons.mp hr
      obtain ⟨afterCheck, hchk, ⟨⟩⟩ := run_cons.mp hcks
      obtain ⟨rfl, hin⟩ := execute_checkInBounds hchk
      rw [update_self, update_of_ne (ne_of_lt hl)] at hin
      refine ⟨fun i hi => update_of_ne (ne_of_lt hi) _ _,
        Nat.le_add_right _ _, fun addend hfr hto => ?_⟩
      -- The smallest index is not checked.
      exact ⟨Int.le_trans (hnn len rfl) hfr, Int.lt_of_le_of_lt hto hin.2⟩
    | some source =>
      have hs : source < fresh := hop source mem_cons_self
      have hl : len < fresh := hop len (mem_cons_of_mem _ mem_cons_self)
      rw [hoist] at hr ⊢
      obtain ⟨afterSums, hsu, hcks⟩ := run_append.mp hr
      obtain ⟨afterMin, hminRun, hmaxRun⟩ := run_append.mp hsu
      obtain ⟨hsm, hfre, hminLt, hminValue, -⟩ := insertAdd_spec hs hminRun
      obtain ⟨hsm', hfre', hmaxLt, hmaxValue, -⟩ :=
        insertAdd_spec (Nat.lt_of_lt_of_le hs hfre) hmaxRun
      have hkp : ∀ i < fresh, afterSums i = values i := fun i hi => by
        rw [hsm' i (Nat.lt_of_lt_of_le hi hfre), hsm i hi]
      obtain ⟨afterFirst, hfirstCheck, hsecondCheck⟩ := run_cons.mp hcks
      obtain ⟨rfl, hminIn⟩ := execute_checkInBounds hfirstCheck
      obtain ⟨afterSecond, hlastCheck, ⟨⟩⟩ := run_cons.mp hsecondCheck
      obtain ⟨rfl, hmaxIn⟩ := execute_checkInBounds hlastCheck
      rw [hsm' _ hminLt, hminValue, hkp len hl] at hminIn
      rw [hmaxValue, hsm source hs, hkp len hl] at hmaxIn
      refine ⟨hkp, Nat.le_trans hfre (Nat.le_trans hfre' (Nat.le_add_right _ _)),
        fun addend hfr hto => ?_⟩
      exact inBounds_between hminIn hmaxIn (difference_lt_of_isValid hvld) hfr hto

/-! ## Side by side -/

namespace BasicBlock

variable {b : BasicBlock} {key : RangeKey} {addend : Int32} {node : Nat}
  {before rest : List Nat} {values : Values} {value : Int32}

theorem op_of_int32Constant (h : b.int32Constant node = some value) :
    b.op node = .constant value := by
  revert h
  fun_cases int32Constant b node <;> rintro ⟨⟩
  assumption

theorem HoldsBefore.constant (h : b.HoldsBefore values rest) (hnd : node < b.size)
    (hn : node ∉ rest) (hcn : b.int32Constant node = some value) :
    values node = value := by
  have hhd := h node hnd hn
  rw [NodeHolds, op_of_int32Constant hcn] at hhd
  exact hhd

theorem HoldsBefore.indexSource (h : b.HoldsBefore values rest)
    (hnodes : b.nodes = before ++ rest) {idx : Nat} (hi : idx < b.size)
    (hn : idx ∉ rest) {source : Option Nat} (hs : b.indexSource idx = (source, addend)) :
    match source with
    | none => values idx = addend
    | some source => values idx = values source + addend ∧ source < b.size ∧ source ∉ rest := by
  have hsf : values idx = values idx + 0 := (BitVec.add_zero _).symm
  rw [BasicBlock.indexSource] at hs
  cases hcn : b.int32Constant idx with
  | some value =>
    rw [hcn] at hs
    cases hs
    exact h.constant hi hn hcn
  | none =>
    rw [hcn] at hs
    simp only at hs
    split at hs
    · next child1 child2 mode hop =>
      have hchi : child1 ∈ (b.op idx).operands ∧ child2 ∈ (b.op idx).operands := by
        rw [hop]
        simp [Op.operands]
      cases hcld : b.int32Constant child2 with
      | some value =>
        rw [hcld] at hs
        cases hs
        have hsum := h idx hi hn
        rw [NodeHolds, hop] at hsum
        simp only at hsum
        have hv := h.constant (b.operand_lt idx hi _ hchi.2)
          (operand_not_mem hnodes hi hn _ hchi.2) hcld
        rw [hv] at hsum
        exact ⟨hsum, b.operand_lt idx hi _ hchi.1, operand_not_mem hnodes hi hn _ hchi.1⟩
      | none =>
        rw [hcld] at hs
        cases hs
        exact ⟨hsf, hi, hn⟩
    · cases hs
      exact ⟨hsf, hi, hn⟩

theorem rangeKeyAndAddend_cases (hdata : b.rangeKeyAndAddend node = some (key, addend)) :
    (∃ child1 child2 mode, b.op node = .arithAdd child1 child2 mode ∧
      b.int32Constant child2 = some addend ∧ key = .addition child1) ∨
    ∃ idx length source, b.op node = .checkInBounds idx length ∧
      b.indexSource idx = (source, addend) ∧ key = .arrayBounds source length := by
  revert hdata
  fun_cases rangeKeyAndAddend b node
  case case2 child1 child2 mode hop _ =>
    intro hdata
    obtain ⟨value, hv, ⟨⟩⟩ := Option.map_eq_some_iff.mp hdata
    exact .inl ⟨child1, child2, mode, hop, hv, rfl⟩
  case case3 idx length hop source _ hs =>
    rintro ⟨⟩
    exact .inr ⟨idx, length, source, hop, hs, rfl⟩
  all_goals exact nofun

theorem operands_before (b : BasicBlock) (hnodes : b.nodes = before ++ node :: rest) :
    ∀ i ∈ (b.op node).operands, i < b.size ∧ i ∉ node :: rest := by
  have hnd := b.node_lt node (hnodes ▸ mem_append_right _ mem_cons_self)
  exact fun i hi => ⟨b.operand_lt node hnd i hi, b.operand_before _ _ _ hnodes i hi⟩

section

variable (h : b.HoldsBefore values (node :: rest)) (hnodes : b.nodes = before ++ node :: rest)
  (hdata : b.rangeKeyAndAddend node = some (key, addend))

include h hnodes hdata

theorem HoldsBefore.key_operands : ∀ i ∈ key.operands, i < b.size ∧ i ∉ node :: rest := by
  have hus := b.operands_before hnodes
  rcases rangeKeyAndAddend_cases hdata with
    ⟨child1, child2, mode, hop, -, rfl⟩ | ⟨idx, len, source, hop, hs, rfl⟩
  · rw [hop] at hus
    exact forall_mem_singleton.mpr (hus child1 mem_cons_self)
  · rw [hop] at hus
    have hi := hus idx mem_cons_self
    have hl := hus len (mem_cons_of_mem _ mem_cons_self)
    have hv := h.indexSource hnodes hi.1 hi.2 hs
    cases source with
    | none => exact forall_mem_singleton.mpr hl
    | some source =>
      exact forall_mem_cons.mpr ⟨hv.2, forall_mem_singleton.mpr hl⟩

/-- **One node.** A node that is covered does not fail, and what it becomes has the same value. -/
theorem HoldsBefore.execute_covered (hcv : Covered values key addend)
    {trf next : Values} (hagr : ∀ i < b.size, trf i = values i)
    (hnx : Dfg.execute trf node (eliminate key (b.op node)) = some next) :
    ∃ next', Dfg.execute values node (b.op node) = some next' ∧ ∀ i < b.size, next i = next' i := by
  have hus := b.operands_before hnodes
  rcases rangeKeyAndAddend_cases hdata with
    ⟨child1, child2, mode, hop, hcn, rfl⟩ | ⟨idx, len, source, hop, hs, rfl⟩
  · rw [hop] at hus hnx ⊢
    have hcld1 := hus child1 mem_cons_self
    have hcld2 := hus child2 (mem_cons_of_mem _ mem_cons_self)
    have hv := h.constant hcld2.1 hcld2.2 hcn
    have hft : AddFits (values child1) (values child2) := by
      rw [hv]
      exact hcv
    rw [eliminate, Dfg.execute, if_pos (.inl rfl), hagr child1 hcld1.1, hagr child2 hcld2.1] at hnx
    cases hnx
    rw [Dfg.execute, if_pos (.inr hft)]
    refine ⟨_, rfl, fun i hi => ?_⟩
    rw [update_apply, update_apply, hagr i hi]
  · rw [hop] at hus hnx ⊢
    have hidx := hus idx mem_cons_self
    have hv := h.indexSource hnodes hidx.1 hidx.2 hs
    have hin : InBounds (values idx) (values len) := by
      cases source with
      | none =>
        rw [hv]
        exact hcv
      | some source =>
        rw [hv.1]
        exact hcv
    cases hnx
    rw [Dfg.execute, if_pos hin]
    exact ⟨values, rfl, hagr⟩

end

/-- The ranges, with some of them hoisted. -/
def withHoisted (b : BasicBlock) (hoisted : RangeKey → Bool) : RangeMap :=
  fun key => { b.ranges key with hoisted := hoisted key }

/-- What is hoisted has been checked for the whole range, and what it reads has been executed. -/
def Checked (b : BasicBlock) (hoisted : RangeKey → Bool) (values : Values) (rest : List Nat) :
    Prop :=
  ∀ key, hoisted key = true → (∀ i ∈ key.operands, i ∉ rest) ∧
    ∀ addend : Int32, (b.ranges key).minBound.toInt ≤ addend.toInt →
      addend.toInt ≤ (b.ranges key).maxBound.toInt → Covered values key addend

theorem withHoisted_update (hoisted : RangeKey → Bool) (key : RangeKey) :
    update (b.withHoisted hoisted) key
        { b.withHoisted hoisted key with hoisted := true }
      = b.withHoisted (update hoisted key true) := by
  funext other
  by_cases heq : other = key
  · subst heq
    rw [update_self, withHoisted, withHoisted, update_self]
  · rw [update_of_ne heq, withHoisted, withHoisted, update_of_ne heq]

variable {hoisted : RangeKey → Bool}

theorem Checked.execute (h : b.Checked hoisted values (node :: rest)) {next : Values} {op : Op}
    (hnx : execute values node op = some next) :
    b.Checked hoisted next rest := by
  intro key hk
  obtain ⟨hop, hcv⟩ := h key hk
  refine ⟨fun i hi hm => hop i hi (mem_cons_of_mem _ hm),
    fun addend hfr hto => (hcv addend hfr hto).congr (fun i hi => ?_)⟩
  exact execute_of_ne hnx (fun heq => hop i hi (heq ▸ mem_cons_self))

/-- **Side by side.** What is left of the transformed block runs to its end only if the block does.
-/
theorem transformLoop_run (hnn : b.ConstantIndicesNonneg) {trf trf' : Values}
    (hnodes : b.nodes = before ++ rest) (hfre : b.size ≤ fresh)
    (hagr : ∀ i < b.size, trf i = values i) (hhd : b.HoldsBefore values rest)
    (hckd : b.Checked hoisted values rest) (hr : run trf (b.transformLoop
      (b.withHoisted hoisted) fresh rest) = some trf') :
    ∃ values', run values (b.instructions rest) = some values' ∧
      ∀ i < b.size, values' i = trf' i := by
  induction rest generalizing before hoisted fresh trf values with
  | nil =>
    cases hr
    exact ⟨values, rfl, fun i hi => (hagr i hi).symm⟩
  | cons node rest ih =>
    have hnd : node < b.size := b.node_lt node (hnodes ▸ mem_append_right _ mem_cons_self)
    have hnodes' : b.nodes = (before ++ [node]) ++ rest := by
      rw [append_assoc]
      exact hnodes
    -- The rest of the block, once the node has been executed on both sides.
    have hgoOn : ∀ {hoisted fresh op trf}, b.size ≤ fresh →
        (∀ next, execute trf node op = some next → ∃ next',
          execute values node (b.op node) = some next' ∧ ∀ i < b.size, next i = next' i) →
        b.Checked hoisted values (node :: rest) →
        run trf ((node, op) :: b.transformLoop (b.withHoisted hoisted) fresh rest) = some trf' →
        ∃ values', run values (b.instructions (node :: rest)) = some values' ∧
          ∀ i < b.size, values' i = trf' i := by
      intro hoisted fresh op trf hfre hexe hckd hr
      obtain ⟨next, hnx, hrest⟩ := run_cons.mp hr
      obtain ⟨next', hnx', hagr'⟩ := hexe next hnx
      obtain ⟨values', hr', hsm⟩ := ih hnodes' hfre hagr'
        (hhd.execute hnodes hnx') (hckd.execute hnx') hrest
      exact ⟨values', run_cons.mpr ⟨next', hnx', hr'⟩, hsm⟩
    have hun : ∀ next, execute trf node (b.op node) = some next → _ :=
      fun _ => execute_agree hagr (b.operand_lt node hnd)
    rw [transformLoop] at hr
    cases hdata : b.rangeKeyAndAddend node with
    | none =>
      rw [hdata] at hr
      exact hgoOn hfre hun hckd hr
    | some data =>
      obtain ⟨key, addend⟩ := data
      rw [hdata] at hr
      simp only at hr
      have hm : node ∈ b.nodes := hnodes ▸ mem_append_right _ mem_cons_self
      obtain ⟨hfr, hto⟩ := (b.ranges_spans key).between addend (mem_addendsOf.mpr ⟨node, hm, hdata⟩)
      have hk := hhd.key_operands hnodes hdata
      split at hr
      · exact hgoOn hfre hun hckd hr
      next hvld =>
      have hvld' : isValid key (b.withHoisted hoisted key) = true := by simpa using hvld
      split at hr
      · next hhs =>
        exact hgoOn hfre (fun _ => hhd.execute_covered hnodes hdata
          ((hckd key hhs).2 addend hfr hto) hagr) hckd hr
      obtain ⟨afterHoist, hho, hrest⟩ := run_append.mp hr
      rw [withHoisted_update] at hrest
      obtain ⟨hsm, hfre', hcv⟩ := hoist_spec hvld'
        (fun i hi => lt_of_lt_of_le (hk i hi).1 hfre)
        (fun len hno => by
          subst hno
          exact hnn len hvld') hho
      have hckd' : b.Checked (update hoisted key true) values (node :: rest) := by
        intro oth hoth
        by_cases heq : oth = key
        · subst heq
          refine ⟨fun i hi => (hk i hi).2, fun addend hfr hto => ?_⟩
          refine (hcv addend hfr hto).congr (fun i hi => ?_)
          exact (hagr i (hk i hi).1).symm
        · rw [update_of_ne heq] at hoth
          exact hckd oth hoth
      refine hgoOn (le_trans hfre hfre') (fun _ => hhd.execute_covered hnodes hdata
        ((hckd' key (update_self ..)).2 addend hfr hto) (fun i hi => ?_)) hckd' hrest
      rw [hsm i (lt_of_lt_of_le hi hfre), hagr i hi]

theorem run_eq_none_of_negative {len : Nat} (hinp : b.Inputs values)
    (hc : b.addendsOf (.arrayBounds none len) b.nodes ≠ [])
    (hneg : (b.ranges (.arrayBounds none len)).minBound.toInt < 0) :
    run values (b.instructions b.nodes) = none := by
  cases hr : run values (b.instructions b.nodes) with
  | none => rfl
  | some values' =>
    have hnodes : b.nodes = [] ++ b.nodes := rfl
    have hhd : b.HoldsBefore values' [] := HoldsBefore.run hinp hnodes hr
    obtain ⟨node, hm, hdata⟩ :=
      mem_addendsOf.mp ((b.ranges_spans (.arrayBounds none len)).minBound_mem hc)
    rcases rangeKeyAndAddend_cases hdata with
      ⟨child1, child2, mode, -, -, hk⟩ | ⟨idx, len', source, hop, hs, hk⟩
    · cases hk
    · obtain ⟨rfl, rfl⟩ := RangeKey.arrayBounds.inj hk
      have hnd := b.node_lt node hm
      have hchk := hhd node hnd not_mem_nil
      rw [NodeHolds, hop] at hchk
      have hi : idx < b.size := by
        refine b.operand_lt node hnd idx ?_
        rw [hop]
        exact mem_cons_self
      have hv : values' idx = _ := hhd.indexSource (append_nil b.nodes).symm hi not_mem_nil hs
      have hin := (hchk hm).1
      rw [hv] at hin
      exact absurd hneg (Int.not_lt.mpr hin)

/-- **Combining preserves every check**, unless a negative constant index is combined with another
one: where the transformed block runs to its end, the block itself does, with the same values, if
and only if there is none. -/
theorem preservesChecks_iff (b : BasicBlock) {values values' : Values} (hinp : b.Inputs values)
    (hrun : run values b.handleBlock = some values') :
    (∃ values'', run values (b.instructions b.nodes) = some values'' ∧
      ∀ node < b.size, values'' node = values' node) ↔ b.ConstantIndicesNonneg := by
  constructor
  · rintro ⟨values'', hrun', -⟩ length hvld
    have hcnt : b.addendsOf (.arrayBounds none length) b.nodes ≠ [] := by
      intro hemp
      have hzero := (b.ranges_spans (.arrayBounds none length)).count
      rw [hemp] at hzero
      rw [isValid, hzero] at hvld
      cases hvld
    by_contra hneg
    rw [run_eq_none_of_negative hinp hcnt (Int.not_le.mp hneg)] at hrun'
    cases hrun'
  · intro hnn
    have hrgs : b.ranges = b.withHoisted (fun _ => false) := by
      funext key
      rw [withHoisted, ← (b.ranges_spans key).hoisted]
    rw [handleBlock, hrgs] at hrun
    exact transformLoop_run hnn (nil_append b.nodes).symm (le_refl _)
      (fun _ _ => rfl) hinp (fun key hfalse => by cases hfalse) hrun

/-! ## A negative constant index -/

/-- Bounds checks of a constant, -1 or 1, and of 3 against one length, which is node 0. -/
def twoChecks (negative : Bool) : BasicBlock where
  size := 5
  op := fun node =>
    match node with
    | 0 => .other [] (fun _ => none)
    | 1 => .constant (if negative then -1 else 1)
    | 2 => .constant 3
    | 3 => .checkInBounds 1 0
    | _ => .checkInBounds 2 0
  nodes := [3, 4]
  nodup := by decide
  node_lt := by decide
  operand_lt := by decide +revert
  operand_before := by
    intro before node after hnodes
    match before, hnodes with
    | [], hnodes =>
      obtain ⟨rfl, rfl⟩ := List.cons.inj hnodes
      decide +revert
    | [first], hnodes =>
      obtain ⟨rfl, hrest⟩ := List.cons.inj hnodes
      obtain ⟨rfl, rfl⟩ := List.cons.inj hrest
      decide +revert
    | first :: second :: before, hnodes =>
      have hlength := congrArg List.length hnodes
      simp at hlength
  operand_outside := by decide +revert

/-- The length 5. -/
def twoChecksInputs (negative : Bool) : Values := fun node =>
  match node with
  | 0 => 5
  | 1 => if negative then -1 else 1
  | _ => 3

theorem twoChecks_inputs (negative : Bool) :
    (twoChecks negative).Inputs (twoChecksInputs negative) := by
  intro node hnode hnot
  match node, hnode, hnot with
  | 0, _, _ => trivial
  | 1, _, _ => rfl
  | 2, _, _ => rfl
  | 3, _, hnot => exact absurd mem_cons_self hnot
  | 4, _, hnot => exact absurd (mem_cons_of_mem _ mem_cons_self) hnot

/-- The transformed block runs to its end with both constants, the block itself only with 1. -/
theorem twoChecks_runs (negative : Bool) :
    (run (twoChecksInputs negative) (twoChecks negative).handleBlock).isSome = true ∧
      (run (twoChecksInputs negative)
        ((twoChecks negative).instructions (twoChecks negative).nodes)).isSome = !negative := by
  cases negative <;> decide

theorem preservesChecks_iff_nonneg : ∃ values',
    run (twoChecksInputs false) (twoChecks false).handleBlock = some values' ∧
      ((∃ values'', run (twoChecksInputs false)
          ((twoChecks false).instructions (twoChecks false).nodes) = some values'' ∧
        ∀ node < (twoChecks false).size, values'' node = values' node) ↔
          (twoChecks false).ConstantIndicesNonneg) := by
  obtain ⟨values', hrun⟩ := Option.isSome_iff_exists.mp (twoChecks_runs false).1
  exact ⟨values', hrun, preservesChecks_iff _ (twoChecks_inputs false) hrun⟩

/-- The two checks are combined to one of the index 3, and the one of -1 is gone. -/
theorem negative_index_not_checked : ¬(twoChecks true).PreservesChecks := by
  intro hpres
  obtain ⟨values', hrun⟩ := Option.isSome_iff_exists.mp (twoChecks_runs true).1
  obtain ⟨values'', hrun', -⟩ := hpres _ (twoChecks_inputs true) values' hrun
  have hnone := (twoChecks_runs true).2
  rw [hrun'] at hnone
  cases hnone

end BasicBlock

end WebKit.Dfg
