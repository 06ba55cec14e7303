import WebKit.Graphics.RegionAlgebra

/-!
# `Region::contains`, `Region::intersects` and `operator==`

Both queries compare two shapes in one walk over their rows. The rows of a shape leave no gap, so
the walk meets every part of a row of `b` inside a row of `a`, unless it lies before the first row
of `a` or behind the last. Only there the flags about the previous spans decide.
-/

namespace WebKit.Graphics.Region

open Scanline Shape List CompareOperation Option

variable {as bs : List Row}

theorem covers_both_tail {a b : Int} {es fs : List Int} (h : Edges (a :: b :: es))
    (hno : ∀ x, a ≤ x → x < b → covers fs x = true → False) :
    (∃ x, covers (a :: b :: es) x = true ∧ covers fs x = true) ↔
      ∃ x, covers es x = true ∧ covers fs x = true := by
  refine exists_congr fun x => and_congr_left fun hf => ?_
  rw [covers_pair_iff h, or_iff_right fun hin => hno x hin.1 hin.2 hf]

theorem compareSegments_intersects {as bs : List Int} (ha : Edges as) (hb : Edges bs) :
    (compareSegments .intersects as bs = some true ∧ ∃ x, covers as x = true ∧ covers bs x = true) ∨
      (compareSegments .intersects as bs = none ∧
        ¬ ∃ x, covers as x = true ∧ covers bs x = true) := by
  induction hn : as.length + bs.length using Nat.strong_induction_on generalizing as bs with
  | _ n ih =>
    rcases hb.cases with rfl | ⟨bX, bMaxX, bs, rfl, hbx, hbs, hbe⟩
    · right
      rw [compareSegments] <;> simp [stopIf, aOutsideB]
    rcases ha.cases with rfl | ⟨aX, aMaxX, as, rfl, hax, has, hae⟩
    · right
      rw [compareSegments] <;> simp [stopIf, bOutsideA]
    simp only [length_cons] at hn
    rw [compareSegments]
    simp only [stopIf, aOverlapsB, aOutsideB, bOutsideA, ite_self, orElse_eq_orElse, orElse_eq_or,
      none_or, Bool.and_eq_true, decide_eq_true_eq]
    by_cases hover : bMaxX > aX ∧ bX < aMaxX
    · refine .inl ⟨by rw [if_pos hover, some_or], max aX bX, ?_, ?_⟩
      · exact (covers_pair_iff ha _).mpr (.inl ⟨le_max_left .., by omega⟩)
      · exact (covers_pair_iff hb _).mpr (.inl ⟨le_max_right .., by omega⟩)
    rw [if_neg hover, none_or]
    split_ifs with hab hba
    · rw [covers_both_tail ha fun x _ hlt hx => ?_]
      · exact ih _ (by simp only [length_cons]; omega) hae hb rfl
      · have := le_of_covers hb hx
        omega
    · simp only [and_comm (a := covers (aX :: aMaxX :: as) _ = true)]
      rw [covers_both_tail hb fun x _ hlt hx => ?_]
      · simp only [and_comm (a := covers bs _ = true)]
        exact ih _ (by simp only [length_cons]; omega) ha hbe rfl
      · have := le_of_covers ha hx
        omega
    · omega

variable {ca cb : List Int} {aHad bHad : Bool}

/-- **Intersection** is found from any point of the walk. -/
theorem compareRows_intersects (ha : Canonical ca as) (hb : Canonical cb bs) :
    compareRows .intersects as bs aHad bHad = true ↔ ∃ p, Ahead as p ∧ Ahead bs p := by
  induction hn : as.length + bs.length using Nat.strong_induction_on
    generalizing as bs ca cb aHad bHad with
  | _ n ih =>
    rcases as with _ | ⟨a, _ | ⟨a', as⟩⟩
    · simp [compareRows, stopIf, bOutsideA, defaultResult, Ahead, InRows]
    · simp [compareRows, stopIf, bOutsideA, defaultResult, not_ahead_last ha]
    rcases bs with _ | ⟨b, _ | ⟨b', bs⟩⟩
    · simp [compareRows, stopIf, aOutsideB, defaultResult, Ahead, InRows]
    · simp [compareRows, stopIf, aOutsideB, defaultResult, not_ahead_last hb]
    obtain ⟨hlta, hta⟩ := ha.tail
    obtain ⟨hltb, htb⟩ := hb.tail
    have haa := hlta a' mem_cons_self
    have hbb := hltb b' mem_cons_self
    simp only [length_cons] at hn
    rw [compareRows]
    simp only [stopIf, aOutsideB, bOutsideA, ite_self, orElse_eq_orElse, orElse_eq_or, none_or]
    have hseg := compareSegments_intersects hta.cur htb.cur
    by_cases hmeet : (b'.1 > a.1 ∧ b.1 < a'.1) ∧ ∃ x, covers a.2 x = true ∧ covers b.2 x = true
    · obtain ⟨hover, x, hx⟩ := hmeet
      rw [if_pos hover, (hseg.resolve_right fun h => h.2 ⟨x, hx⟩).1]
      refine iff_of_true rfl ⟨⟨x, max a.1 b.1⟩, (ahead_cons ha).mpr (.inl ?_),
        (ahead_cons hb).mpr (.inl ?_)⟩
      · exact ⟨le_max_left .., max_lt haa hover.2, hx.1⟩
      · exact ⟨le_max_right .., max_lt hover.1 hbb, hx.2⟩
    have hnone : (if b'.1 > a.1 ∧ b.1 < a'.1 then compareSegments .intersects a.2 b.2 else none)
        = none := by
      split_ifs with hover
      · exact (hseg.resolve_left fun h => hmeet ⟨hover, h.2⟩).1
      · rfl
    -- no point of both shapes lies in both current rows
    have hcur : ∀ p, Ahead (a :: a' :: as) p → Ahead (b :: b' :: bs) p →
        a'.1 ≤ p.y ∨ b'.1 ≤ p.y := by
      intro p hp hp'
      rcases (ahead_cons ha).mp hp with ⟨hpa, hpa', hx⟩ | hp
      · rcases (ahead_cons hb).mp hp' with ⟨hpb, hpb', hx'⟩ | hp'
        · exact (hmeet ⟨⟨hpa.trans_lt hpb', hpb.trans_lt hpa'⟩, p.x, hx, hx'⟩).elim
        · exact .inr (hp'.1 b' rfl)
      · exact .inl (hp.1 a' rfl)
    rw [hnone]
    split_ifs with hab hba
    · rw [ih _ (by simp only [length_cons]; omega) hta hb rfl]
      refine exists_congr fun p => and_congr_left fun hp' => ⟨.cons ha, fun hp => hp.tail ha ?_⟩
      have := hcur p hp hp'
      omega
    · rw [ih _ (by simp only [length_cons]; omega) ha htb rfl]
      refine exists_congr fun p => and_congr_right fun hp => ⟨.cons hb, fun hp' => hp'.tail hb ?_⟩
      have := hcur p hp hp'
      omega
    · rw [ih _ (by simp only [length_cons]; omega) hta htb rfl]
      refine exists_congr fun p => ⟨fun h => ⟨h.1.cons ha, h.2.cons hb⟩, fun h => ?_⟩
      have := hcur p h.1 h.2
      exact ⟨h.1.tail ha (by omega), h.2.tail hb (by omega)⟩

open IntRect

/-- A box around all points holds the box of some of them. -/
theorem containsRect_of_tight {a b : IntRect} {P Q : IntPoint → Prop} (ha : Tight a P)
    (hb : Tight b Q) (hne : b.isEmpty = false) (h : ∀ p, Q p → P p) : a.containsRect b = true := by
  obtain ⟨p, hp, hx⟩ := hb.left hne
  obtain ⟨q, hq, hx'⟩ := hb.right hne
  obtain ⟨r, hr, hy⟩ := hb.top hne
  obtain ⟨s, hs, hy'⟩ := hb.bottom hne
  have hp := (contains_iff ..).mp (ha.inside p (h p hp))
  have hq := (contains_iff ..).mp (ha.inside q (h q hq))
  have hr := (contains_iff ..).mp (ha.inside r (h r hr))
  have hs := (contains_iff ..).mp (ha.inside s (h s hs))
  simp only [containsRect, Bool.and_eq_true, decide_eq_true_eq, ge_iff_le]
  omega

section

variable {o : IntPoint} {a b : Region} (ha : Represents o a as) (hb : Represents o b bs)

include ha hb

theorem Represents.containsRegion_iff (hne : b.isEmpty = false) :
    a.containsRegion b = true ↔ ∀ p, InRows bs p → InRows as p := by
  rw [← compareShapes_contains_iff ha.canonical hb.canonical, containsRegion, ha.shape, hb.shape]
  split_ifs with hbox
  · refine iff_of_false id fun h => ?_
    rw [compareShapes_contains_iff ha.canonical hb.canonical] at h
    rw [containsRect_of_tight ha.tight hb.tight hne h] at hbox
    cases hbox
  · rfl

theorem Represents.intersects_iff : a.intersects b = true ↔ ∃ p, InRows as p ∧ InRows bs p := by
  have hrows : compareShapes .intersects a.shape b.shape = true ↔
      ∃ p, InRows as p ∧ InRows bs p := by
    rw [compareShapes, ha.shape, hb.shape, rows_ofRows ha.canonical.closed,
      rows_ofRows hb.canonical.closed, compareRows_intersects ha.canonical hb.canonical]
    exact exists_congr fun p => and_congr (ahead_iff ha.canonical) (ahead_iff hb.canonical)
  rw [Region.intersects]
  split_ifs with hbox
  · refine iff_of_false id ?_
    rintro ⟨_, hp, hp'⟩
    exact ha.apart hb hbox hp hp'
  · exact hrows

end

section

variable {o : IntPoint} {a b : Region} (ha : Built o a) (hb : Built o b)

include ha hb

/-- **Queries.** `contains` and `intersects` are inclusion and overlap of the points, as long as
the sides of the rectangles lie so close that no difference overflows. -/
theorem region_queries (hne : b.isEmpty = false) :
    (a.containsRegion b = true ↔ ∀ p, b.contains p = true → a.contains p = true) ∧
      (a.intersects b = true ↔ ∃ p, a.contains p = true ∧ b.contains p = true) := by
  obtain ⟨as, ha⟩ := ha.represents
  obtain ⟨bs, hb⟩ := hb.represents
  simp only [ha.contains_iff, hb.contains_iff]
  exact ⟨ha.containsRegion_iff hb hne, ha.intersects_iff hb⟩

end

/-- Two overlapping squares. -/
theorem region_queries_squares : (ofRect ⟨0, 0, 2, 2⟩).intersects (ofRect ⟨1, 1, 2, 2⟩) = true ↔
      ∃ p, (ofRect ⟨0, 0, 2, 2⟩).contains p = true ∧
        (ofRect ⟨1, 1, 2, 2⟩).contains p = true :=
  (region_queries (o := ⟨0, 0⟩) (Built.rect ⟨0, 0, 2, 2⟩ (by decide) (by decide) (by decide))
    (Built.rect ⟨1, 1, 2, 2⟩ (by decide) (by decide) (by decide)) (by decide)).2

/-- The width of two squares far apart wraps around, and the box of their union is empty. -/
theorem far_squares_not_intersects :
    let a := (ofRect ⟨-2000000000, 0, 1, 1⟩).unite (ofRect ⟨2000000000, 0, 1, 1⟩)
    let b := ofRect ⟨2000000000, 0, 1, 1⟩
    a.contains ⟨2000000000, 0⟩ = true ∧ b.contains ⟨2000000000, 0⟩ = true ∧
      a.intersects b = false := by
  decide +kernel

theorem rows_eq_of_inRows_iff {as bs : List Row} (ha : Canonical [] as) (hb : Canonical [] bs)
    (h : ∀ p, InRows as p ↔ InRows bs p) : as = bs := by
  refine eq_of_valueAt_eq ha.sorted hb.sorted ha.changes hb.changes fun y => ?_
  refine eq_of_covers_eq (ha.valueAt_edges y).sorted (hb.valueAt_edges y).sorted fun x => ?_
  exact Bool.eq_iff_iff.mpr (h ⟨x, y⟩)

theorem eq_empty_of_isEmpty {o : IntPoint} {r : IntRect} (h : BoxedOrEmpty o r)
    (he : r.isEmpty = true) : r = {} := by
  rcases h with h | h
  · exact h
  · rw [h.isEmpty] at he
    cases he

/-- Boxes that are tight around the same points are equal, unless they are empty. -/
theorem eq_of_tight {o : IntPoint} {r s : IntRect} {P : IntPoint → Prop}
    (hbr : BoxedOrEmpty o r) (hbs : BoxedOrEmpty o s) (hr : Tight r P) (hs : Tight s P)
    (hne : r.isEmpty = false) : r = s := by
  have hne' : s.isEmpty = false := by
    rw [← Bool.not_eq_true, hs.empty_iff, ← hr.empty_iff, hne]
    simp
  have h1 := containsRect_of_tight hr hs hne' fun _ => id
  have h2 := containsRect_of_tight hs hr hne fun _ => id
  have hwr := (hbr.boxed hne).width
  have hws := (hbs.boxed hne').width
  have hhr := (hbr.boxed hne).height
  have hhs := (hbs.boxed hne').height
  cases r
  cases s
  simp only [containsRect, Bool.and_eq_true, decide_eq_true_eq, ge_iff_le] at h1 h2 hwr hws hhr hhs
  rw [IntRect.mk.injEq]
  omega

/-- **Equality.** A set of points has only one representation that the operations build, so
`operator==` compares the points, as long as no difference overflows. -/
theorem region_equality {o : IntPoint} {a b : Region} (ha : Built o a) (hb : Built o b) :
    (a == b) = true ↔ ∀ p, a.contains p = b.contains p := by
  rw [beq_iff_eq]
  refine ⟨fun h p => h ▸ rfl, fun h => ?_⟩
  obtain ⟨as, hra⟩ := ha.represents
  obtain ⟨bs, hrb⟩ := hb.represents
  obtain rfl := rows_eq_of_inRows_iff hra.canonical hrb.canonical fun p => by
    rw [← hra.contains_iff, ← hrb.contains_iff, h]
  have hshape : a.shape = b.shape := hra.shape.trans hrb.shape.symm
  have hbounds : a.bounds = b.bounds := by
    cases he : a.bounds.isEmpty with
    | true =>
      have he' := hrb.tight.empty_iff.mpr (hra.tight.empty_iff.mp he)
      rw [eq_empty_of_isEmpty hra.boxed he, eq_empty_of_isEmpty hrb.boxed he']
    | false => exact eq_of_tight hra.boxed hrb.boxed hra.tight hrb.tight he
  cases a
  cases b
  cases hbounds
  cases hshape
  rfl

/-- Two overlapping squares, united in either order. -/
theorem region_equality_squares :
    ((ofRect ⟨0, 0, 2, 2⟩).unite (ofRect ⟨1, 1, 2, 2⟩) ==
      (ofRect ⟨1, 1, 2, 2⟩).unite (ofRect ⟨0, 0, 2, 2⟩)) = true ↔
    ∀ p, ((ofRect ⟨0, 0, 2, 2⟩).unite (ofRect ⟨1, 1, 2, 2⟩)).contains p =
      ((ofRect ⟨1, 1, 2, 2⟩).unite (ofRect ⟨0, 0, 2, 2⟩)).contains p :=
  have h := Built.rect (o := ⟨0, 0⟩) ⟨0, 0, 2, 2⟩ (by decide) (by decide) (by decide)
  have h' := Built.rect ⟨1, 1, 2, 2⟩ (by decide) (by decide) (by decide)
  region_equality (h.unite h') (h'.unite h)

end WebKit.Graphics.Region
