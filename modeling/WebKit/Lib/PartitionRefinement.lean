import Mathlib.Data.Nat.Basic
import Mathlib.Tactic.Common

/-!
# Refining two partitions until they are stable

The algorithm keeps a partition of the nodes of a deterministic labelled graph into *blocks* and
one of its transitions into *cords*. A cord holds transitions of one label whose heads lie in one
block. Cords are used one after the other: the sources of the cord `next` are split from the rest
of their blocks, and whenever a block is split, the cords are split by whether their heads are in
the new block.

What makes it enough to use each cord once is `splitters` in `Inv`: where two nodes of a block
differ in the cord of a transition, one of the cords has yet to be used. In the end the blocks are
stable (`Inv.stable`), and no two nodes that a bisimulation relates have been separated
(`Inv.coarse_block`).
-/

namespace PartitionRefinement

/-- A graph with labelled transitions, at most one of each label from a node. -/
structure Graph (N T A : Type*) where
  label : T → A
  source : T → N
  head : T → N
  deterministic : ∀ t u, source t = source u → label t = label u → t = u

variable {N T A : Type*} {g : Graph N T A}

/-- A symmetric relation that transitions preserve. -/
structure Bisimulation (g : Graph N T A) (R : N → N → Prop) : Prop where
  symm : ∀ p q, R p q → R q p
  forth : ∀ t q, R (g.source t) q →
    ∃ u, g.source u = q ∧ g.label u = g.label t ∧ R (g.head t) (g.head u)

/-- The classes of `part` are split along marked elements; new parts have numbers from `count` on.
-/
structure SplitBy {X : Type*} (marked : X → Prop) (part part' : X → Nat) (count count' : Nat) :
    Prop where
  lt : ∀ x, part' x < count'
  count_le : count ≤ count'
  keep : ∀ x, part' x = part x ∨ count ≤ part' x
  same_iff : ∀ x y, part' x = part' y ↔ part x = part y ∧ (marked x ↔ marked y)

/-- The classes of `part'` are parts of those of `part`, those with an old number of the class of
that. -/
structure Evolves {X : Type*} (part part' : X → Nat) (count count' : Nat) : Prop where
  count_le : count ≤ count'
  keep : ∀ x, part' x = part x ∨ count ≤ part' x
  refines : ∀ x y, part' x = part' y → part x = part y

variable {X : Type*}

theorem Evolves.refl (part : X → Nat) (count : Nat) : Evolves part part count count :=
  ⟨le_rfl, fun _ => .inl rfl, fun _ _ h => h⟩

theorem Evolves.trans {part part' part'' : X → Nat} {cnt cnt' cnt'' : Nat}
    (h : Evolves part part' cnt cnt') (h' : Evolves part' part'' cnt' cnt'') :
    Evolves part part'' cnt cnt'' := by
  refine ⟨le_trans h.count_le h'.count_le, ?_, fun x y hxy => h.refines x y (h'.refines x y hxy)⟩
  intro x
  rcases h'.keep x with hx | hx
  · rw [hx]
    exact h.keep x
  · exact .inr (le_trans h.count_le hx)

variable {part part' : X → Nat}

theorem SplitBy.evolves {marked : X → Prop} {cnt cnt' : Nat}
    (h : SplitBy marked part part' cnt cnt') :
    Evolves part part' cnt cnt' :=
  ⟨h.count_le, h.keep, fun x y hxy => ((h.same_iff x y).mp hxy).1⟩

/-- Some elements of one class have become a class of their own. -/
structure SplitOff {X : Type*} (moved : X → Prop) (part part' : X → Nat) (fresh : Nat) :
    Prop where
  moved_eq : ∀ x, moved x → part' x = fresh
  kept_eq : ∀ x, ¬ moved x → part' x = part x
  fresh_ne : ∀ x, part x ≠ fresh
  together : ∀ x y, moved x → moved y → part x = part y

variable {moved : X → Prop} {fresh : Nat}

theorem SplitOff.eq_fresh_iff (h : SplitOff moved part part' fresh) (x : X) :
    part' x = fresh ↔ moved x := by
  by_cases hx : moved x
  · exact ⟨fun _ => hx, fun _ => h.moved_eq x hx⟩
  · rw [h.kept_eq x hx]
    exact ⟨fun he => absurd he (h.fresh_ne x), fun hm => absurd hm hx⟩

theorem SplitOff.same_iff (h : SplitOff moved part part' fresh) (x y : X) :
    part' x = part' y ↔ part x = part y ∧ (moved x ↔ moved y) := by
  constructor
  · intro hxy
    have hm : moved x ↔ moved y := by rw [← h.eq_fresh_iff x, ← h.eq_fresh_iff y, hxy]
    refine ⟨?_, hm⟩
    by_cases hx : moved x
    · exact h.together x y hx (hm.mp hx)
    · rw [← h.kept_eq x hx, ← h.kept_eq y (fun hy => hx (hm.mpr hy)), hxy]
  · rintro ⟨hxy, hm⟩
    by_cases hx : moved x
    · rw [h.moved_eq x hx, h.moved_eq y (hm.mp hx)]
    · rw [h.kept_eq x hx, h.kept_eq y (fun hy => hx (hm.mpr hy)), hxy]

/-- For a relation whose pairs must not be separated. Cords below `next` have been used. -/
structure Inv (g : Graph N T A) (R : N → N → Prop) (block : N → Nat) (cord : T → Nat)
    (cords next : Nat) : Prop where
  next_le : next ≤ cords
  cord_lt : ∀ t, cord t < cords
  cord_label : ∀ t u, cord t = cord u → g.label t = g.label u
  cord_head : ∀ t u, cord t = cord u → block (g.head t) = block (g.head u)
  coarse_block : ∀ p q, R p q → block p = block q
  coarse_cord : ∀ t u, g.label t = g.label u → R (g.head t) (g.head u) → cord t = cord u
  splitters : ∀ t q, block (g.source t) = block q →
    (∃ u, g.source u = q ∧ cord u = cord t) ∨ next ≤ cord t ∨
      ∃ u, g.source u = q ∧ g.label u = g.label t ∧ next ≤ cord u

variable {R : N → N → Prop} {block block' : N → Nat} {cord cord' : T → Nat}
  {cords cords' next : Nat}

/-- In the beginning there is one block, and a cord for each label. -/
theorem inv_init (hblo : ∀ p q, block p = block q) (hlt : ∀ t, cord t < cords)
    (hl : ∀ t u, cord t = cord u ↔ g.label t = g.label u) :
    Inv g R block cord cords 0 := by
  refine ⟨Nat.zero_le _, hlt, ?_, ?_, ?_, ?_, ?_⟩
  · intro t u h
    exact (hl t u).mp h
  · intro t u _
    exact hblo _ _
  · intro p q _
    exact hblo p q
  · intro t u h _
    exact (hl t u).mpr h
  · intro t q _
    exact .inr (.inl (Nat.zero_le _))

/-- **Splitting a block.** Nodes that the relation does not cut become a block of their own, and the
cords are split by whether they lead there. -/
theorem Inv.split (h : Inv g R block cord cords next) {moved : N → Prop}
    (hblo : SplitOff moved block block' fresh) (hr : ∀ p q, R p q → (moved p ↔ moved q))
    (hcr : SplitBy (fun t => block' (g.head t) = fresh) cord cord' cords cords') :
    Inv g R block' cord' cords' next := by
  have hlat : ∀ t, next ≤ cord t → next ≤ cord' t := by
    intro t ht
    rcases hcr.keep t with hkp | hnew
    · rw [hkp]
      exact ht
    · exact le_trans h.next_le hnew
  refine ⟨le_trans h.next_le hcr.count_le, hcr.lt, ?_, ?_, ?_, ?_, ?_⟩
  · intro t u htu
    exact h.cord_label t u ((hcr.same_iff t u).mp htu).1
  · intro t u htu
    obtain ⟨hold, hsd⟩ := (hcr.same_iff t u).mp htu
    rw [hblo.eq_fresh_iff, hblo.eq_fresh_iff] at hsd
    exact (hblo.same_iff _ _).mpr ⟨h.cord_head t u hold, hsd⟩
  · intro p q hpq
    exact (hblo.same_iff p q).mpr ⟨h.coarse_block p q hpq, hr p q hpq⟩
  · intro t u hlab hhds
    refine (hcr.same_iff t u).mpr ⟨h.coarse_cord t u hlab hhds, ?_⟩
    rw [hblo.eq_fresh_iff, hblo.eq_fresh_iff]
    exact hr _ _ hhds
  · intro t q hq
    rcases h.splitters t q ((hblo.same_iff _ q).mp hq).1 with ⟨u, hu, hcu⟩ | ht | ⟨u, hu, hl, hlu⟩
    · -- the same cord before: if not any more, one of the two parts is new
      by_cases hsm : cord' u = cord' t
      · exact .inl ⟨u, hu, hsm⟩
      rcases hcr.keep t with hkt | hnew
      · rcases hcr.keep u with hku | hnew
        · exact absurd (by rw [hku, hkt, hcu]) hsm
        · exact .inr (.inr ⟨u, hu, h.cord_label u t hcu, le_trans h.next_le hnew⟩)
      · exact .inr (.inl (le_trans h.next_le hnew))
    · exact .inr (.inl (hlat t ht))
    · exact .inr (.inr ⟨u, hu, hl, hlat u hlu⟩)

/-- **Using a cord.** When the blocks do not cut the sources of the cord `next`, the next one can be
taken. -/
theorem Inv.advance (h : Inv g R block cord cords next) {cord₀ : T → Nat} {cords₀ : Nat}
    (hev : Evolves cord₀ cord cords₀ cords) (hlt : next < cords₀)
    (hlab : ∀ t u, cord₀ t = cord₀ u → g.label t = g.label u)
    (hsrs : ∀ p q, block p = block q → (∃ t, g.source t = p ∧ cord₀ t = next) →
      ∃ u, g.source u = q ∧ cord₀ u = next) :
    Inv g R block cord cords (next + 1) := by
  -- what is left at the old number was there before
  have hbc : ∀ t, cord t = next → cord₀ t = next := by
    intro t ht
    rcases hev.keep t with hkp | hnew
    · rw [← hkp, ht]
    · omega
  -- what was there before has the old number or one that comes later
  have hfth : ∀ t, cord₀ t = next → cord t = next ∨ next + 1 ≤ cord t := by
    intro t ht
    rcases hev.keep t with hkp | hnew
    · exact .inl (hkp.trans ht)
    · exact .inr (by omega)
  refine ⟨lt_of_lt_of_le hlt hev.count_le, h.cord_lt, h.cord_label, h.cord_head,
    h.coarse_block, h.coarse_cord, ?_⟩
  intro t q hq
  rcases h.splitters t q hq with hsm | ht | ⟨u, hu, hl, hlu⟩
  · exact .inl hsm
  · by_cases hnx : cord t = next
    · obtain ⟨u, hu, hu₀⟩ := hsrs _ q hq ⟨t, rfl, hbc t hnx⟩
      rcases hfth u hu₀ with hcu | hcu
      · exact .inl ⟨u, hu, hcu.trans hnx.symm⟩
      · exact .inr (.inr ⟨u, hu, hlab u t (hu₀.trans (hbc t hnx).symm), hcu⟩)
    · exact .inr (.inl (by omega))
  · by_cases hnx : cord u = next
    · -- the node of `t` has a transition of the cord, of the label of `t`: it is `t`
      obtain ⟨t', ht', ht₀⟩ := hsrs q _ hq.symm ⟨u, hu, hbc u hnx⟩
      have htt : t' = t := g.deterministic t' t ht'
        ((hlab t' u (ht₀.trans (hbc u hnx).symm)).trans hl)
      subst htt
      rcases hfth t' ht₀ with hct | hct
      · exact .inl ⟨u, hu, hnx.trans hct.symm⟩
      · exact .inr (.inl hct)
    · exact .inr (.inr ⟨u, hu, hl, by omega⟩)

/-- **Stability.** When every cord has been used, nodes of a block have the same labels, to the same blocks. -/
theorem Inv.stable (h : Inv g R block cord cords cords) {t : T} {q : N}
    (hq : block (g.source t) = block q) :
    ∃ u, g.source u = q ∧ g.label u = g.label t ∧ block (g.head u) = block (g.head t) := by
  rcases h.splitters t q hq with ⟨u, hu, hcu⟩ | ht | ⟨u, _, _, hu⟩
  · exact ⟨u, hu, h.cord_label u t hcu, h.cord_head u t hcu⟩
  · exact absurd ht (Nat.not_le_of_lt (h.cord_lt t))
  · exact absurd hu (Nat.not_le_of_lt (h.cord_lt u))

/-- The sources of a cord are not cut by a bisimulation. -/
theorem Inv.sources_coarse (h : Inv g R block cord cords next) (hR : Bisimulation g R)
    {p q : N} (hpq : R p q) {c : Nat} (hp : ∃ t, g.source t = p ∧ cord t = c) :
    ∃ u, g.source u = q ∧ cord u = c := by
  obtain ⟨t, rfl, rfl⟩ := hp
  obtain ⟨u, hu, hl, hhds⟩ := hR.forth t q hpq
  exact ⟨u, hu, (h.coarse_cord t u hl.symm hhds).symm⟩

end PartitionRefinement
