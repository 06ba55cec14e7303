import Mathlib.Data.List.GetD
import Mathlib.Data.List.Sort
import WebKit.Graphics.RegionShape

/-!
# Region algebra is pointwise set algebra

Every region that the operations can build is the encoding of a canonical list of rows, with the
tight bounding box of its points (`Represents`), as long as its sides lie in a window of `2 ^ 31`
integers.
-/

namespace WebKit.Graphics

open Scanline Shape List CompareOperation IntRect Option

open MachineInt.IntType (int)

def InRows (rs : List Row) (p : IntPoint) : Prop := covers (valueAt [] rs p.y) p.x = true

instance (rs : List Row) (p : IntPoint) : Decidable (InRows rs p) :=
  inferInstanceAs (Decidable (covers (valueAt [] rs p.y) p.x = true))

theorem decide_inRows (rs : List Row) (p : IntPoint) :
    decide (InRows rs p) = covers (valueAt [] rs p.y) p.x := by
  rw [Bool.eq_iff_iff, decide_eq_true_eq]
  rfl

/-- The box `b` holds all points `P`, is empty exactly when there is none, and otherwise each of its
sides touches one. -/
structure Tight (b : IntRect) (P : IntPoint → Prop) : Prop where
  inside : ∀ p, P p → b.contains p = true
  empty_iff : b.isEmpty = true ↔ ∀ p, ¬ P p
  left : b.isEmpty = false → ∃ p, P p ∧ p.x = b.x
  right : b.isEmpty = false → ∃ p, P p ∧ p.x + 1 = b.maxX
  top : b.isEmpty = false → ∃ p, P p ∧ p.y = b.y
  bottom : b.isEmpty = false → ∃ p, P p ∧ p.y + 1 = b.maxY

namespace IntRect

theorem contains_iff (r : IntRect) (p : IntPoint) :
    r.contains p = true ↔ r.x ≤ p.x ∧ p.x < r.maxX ∧ r.y ≤ p.y ∧ p.y < r.maxY := by
  simp [contains, and_assoc]

variable {r : IntRect} {p : IntPoint}

/-- A box that is not empty, with its sides from `o` on. -/
structure Boxed (o : IntPoint) (r : IntRect) : Prop where
  x : Near o.x r.x
  maxX : Near o.x r.maxX
  y : Near o.y r.y
  maxY : Near o.y r.maxY
  width : r.width = r.maxX - r.x
  height : r.height = r.maxY - r.y
  pos : 0 < r.width ∧ 0 < r.height

/-- The box of no point, or one whose sides lie from `o` on. -/
def BoxedOrEmpty (o : IntPoint) (r : IntRect) : Prop := r = {} ∨ Boxed o r

variable {o : IntPoint}

theorem Boxed.isEmpty (h : Boxed o r) : r.isEmpty = false := by
  simp [IntRect.isEmpty, h.pos]

theorem contains_empty (p : IntPoint) : contains {} p = false := by
  rw [← Bool.not_eq_true, contains_iff]
  simp only [maxX, convert_eq]
  omega

theorem BoxedOrEmpty.isEmpty_of_contains (h : BoxedOrEmpty o r) (hp : r.contains p = true) :
    r.isEmpty = false := by
  rcases h with rfl | h
  · rw [contains_empty] at hp
    cases hp
  · exact h.isEmpty

theorem BoxedOrEmpty.boxed (h : BoxedOrEmpty o r) (hne : r.isEmpty = false) : Boxed o r := by
  rcases h with rfl | h
  · cases hne
  · exact h

theorem contains_of_containsRect {s : IntRect} (h : r.containsRect s = true)
    (hp : s.contains p = true) : r.contains p = true := by
  simp only [containsRect, Bool.and_eq_true, decide_eq_true_eq, ge_iff_le] at h
  rw [contains_iff] at hp ⊢
  omega

theorem intersects_of_contains {s : IntRect} (hbr : BoxedOrEmpty o r) (hbs : BoxedOrEmpty o s)
    (hr : r.contains p = true) (hs : s.contains p = true) : r.intersects s = true := by
  have hre := hbr.isEmpty_of_contains hr
  have hse := hbs.isEmpty_of_contains hs
  rw [contains_iff] at hr hs
  simp only [intersects, hre, hse, Bool.not_false, Bool.true_and, Bool.and_eq_true,
    decide_eq_true_eq]
  omega

theorem unite_eq {oth : IntRect} (hr : Boxed o r) (ho : Boxed o oth) :
    (r.unite oth).x = min r.x oth.x ∧ (r.unite oth).y = min r.y oth.y ∧
      (r.unite oth).maxX = max r.maxX oth.maxX ∧
      (r.unite oth).maxY = max r.maxY oth.maxY ∧ Boxed o (r.unite oth) := by
  have hx : Near o.x (min r.x oth.x) := by
    rcases min_choice r.x oth.x with h | h <;> rw [h]
    exacts [hr.x, ho.x]
  have hy : Near o.y (min r.y oth.y) := by
    rcases min_choice r.y oth.y with h | h <;> rw [h]
    exacts [hr.y, ho.y]
  have hmx : Near o.x (max r.maxX oth.maxX) := by
    rcases max_choice r.maxX oth.maxX with h | h <;> rw [h]
    exacts [hr.maxX, ho.maxX]
  have hmy : Near o.y (max r.maxY oth.maxY) := by
    rcases max_choice r.maxY oth.maxY with h | h <;> rw [h]
    exacts [hr.maxY, ho.maxY]
  have hu : r.unite oth = ⟨min r.x oth.x, min r.y oth.y,
      int.convert (max r.maxX oth.maxX - min r.x oth.x),
      int.convert (max r.maxY oth.maxY - min r.y oth.y)⟩ := by
    simp [unite, hr.isEmpty, ho.isEmpty]
  have hmx' : (r.unite oth).maxX = max r.maxX oth.maxX := by
    rw [hu, IntRect.maxX, hmx.convert_add]
  have hmy' : (r.unite oth).maxY = max r.maxY oth.maxY := by
    rw [hu, IntRect.maxY, hmy.convert_add]
  have hw := hr.width
  have hh := hr.height
  have hp := hr.pos
  refine ⟨by rw [hu], by rw [hu], hmx', hmy', ?_, hmx' ▸ hmx, ?_, hmy' ▸ hmy, ?_, ?_, ?_⟩
  · rw [hu]
    exact hx
  · rw [hu]
    exact hy
  · rw [hmx', hu]
    exact convert_sub hmx hx
  · rw [hmy', hu]
    exact convert_sub hmy hy
  · rw [hu]
    dsimp only
    rw [convert_sub hmx hx, convert_sub hmy hy]
    omega

theorem BoxedOrEmpty.unite {s : IntRect} (hr : BoxedOrEmpty o r) (hs : BoxedOrEmpty o s) :
    BoxedOrEmpty o (r.unite s) := by
  rcases hs with rfl | hs
  · exact hr
  rcases hr with rfl | hr
  · have he : IntRect.isEmpty {} = true := rfl
    exact .inr (by simpa only [IntRect.unite, hs.isEmpty, he, if_true, Bool.false_eq_true, if_false]
      using hs)
  · exact .inr (unite_eq hr hs).2.2.2.2

end IntRect

theorem Tight.unite {o : IntPoint} {a b : IntRect} {P Q : IntPoint → Prop} (ha : Tight a P)
    (hb : Tight b Q) (hba : BoxedOrEmpty o a) (hbb : BoxedOrEmpty o b) :
    Tight (a.unite b) (fun p => P p ∨ Q p) := by
  cases hbe : b.isEmpty with
  | true =>
    have hQ := hb.empty_iff.mp hbe
    have hu : a.unite b = a := by simp [IntRect.unite, hbe]
    simpa only [hu, hQ, or_false] using ha
  | false =>
    cases hae : a.isEmpty with
    | true =>
      have hP := ha.empty_iff.mp hae
      have hu : a.unite b = b := by simp [IntRect.unite, hbe, hae]
      simpa only [hu, hP, false_or] using hb
    | false =>
      obtain ⟨hx, hy, hmx, hmy, hbox⟩ := IntRect.unite_eq (hba.boxed hae) (hbb.boxed hbe)
      have hu : (a.unite b).isEmpty = false := hbox.isEmpty
      obtain ⟨p, hp, hpx⟩ := ha.left hae
      obtain ⟨q, hq, hqx⟩ := hb.left hbe
      obtain ⟨p', hp', hpx'⟩ := ha.right hae
      obtain ⟨q', hq', hqx'⟩ := hb.right hbe
      obtain ⟨u, hu1, huy⟩ := ha.top hae
      obtain ⟨v, hv1, hvy⟩ := hb.top hbe
      obtain ⟨u', hu1', huy'⟩ := ha.bottom hae
      obtain ⟨v', hv1', hvy'⟩ := hb.bottom hbe
      refine ⟨?_, ?_, fun _ => ?_, fun _ => ?_, fun _ => ?_, fun _ => ?_⟩
      · rintro r (hr | hr)
        · have := (IntRect.contains_iff _ r).mp (ha.inside r hr)
          rw [IntRect.contains_iff]
          omega
        · have := (IntRect.contains_iff _ r).mp (hb.inside r hr)
          rw [IntRect.contains_iff]
          omega
      · rw [hu]
        exact ⟨nofun, fun h => (h p (.inl hp)).elim⟩
      · rcases min_choice a.x b.x with h | h
        · exact ⟨p, .inl hp, by omega⟩
        · exact ⟨q, .inr hq, by omega⟩
      · rcases max_choice a.maxX b.maxX with h | h
        · exact ⟨p', .inl hp', by omega⟩
        · exact ⟨q', .inr hq', by omega⟩
      · rcases min_choice a.y b.y with h | h
        · exact ⟨u, .inl hu1, by omega⟩
        · exact ⟨v, .inr hv1, by omega⟩
      · rcases max_choice a.maxY b.maxY with h | h
        · exact ⟨u', .inl hu1', by omega⟩
        · exact ⟨v', .inr hv1', by omega⟩

namespace Region

/-! ## Queries -/

variable {segs c : List Int} {p : IntPoint} {rs as bs : List Row} {r : Row} {y : Int} {a b : Region}
  {o : IntPoint}

theorem rowContains_eq {px : Int} (h : Edges segs) : rowContains px segs = covers segs px := by
  fun_induction rowContains px segs with
  | case1 x maxX rest hx =>
    exact (covers_eq_false_of_lt (forall_lt_of_head hx h.sorted)).symm
  | case2 x maxX rest hx hmax =>
    exact ((covers_pair_iff h px).mpr (.inl ⟨not_lt.mp hx, hmax⟩)).symm
  | case3 x maxX rest hx hmax ih =>
    rw [ih h.tail.2.2, Bool.eq_iff_iff, covers_pair_iff h px]
    exact ⟨.inr, fun hc => hc.resolve_left fun hin => hmax hin.2⟩
  | case4 segs hne =>
    rcases h.cases with rfl | ⟨a, b, fs, rfl, -⟩
    · rfl
    · exact (hne a b fs rfl).elim

theorem rowsContain_of_lt (h : ∀ r ∈ rs, p.y < r.1) : rowsContain p rs = false := by
  rcases rs with _ | ⟨r, _ | ⟨s, rs⟩⟩
  · rfl
  · rfl
  · rw [rowsContain, if_pos (h r mem_cons_self)]

theorem rowsContain_eq_of_le (h : Canonical c (r :: rs)) (hr : r.1 ≤ p.y) :
    rowsContain p (r :: rs) = covers (valueAt c (r :: rs) p.y) p.x := by
  induction rs generalizing c r with
  | nil =>
    have hr2 : r.2 = [] := h.closed
    rw [valueAt_cons_of_le c [] hr, valueAt_nil, hr2]
    rfl
  | cons s rs ih =>
    obtain ⟨hlt, htl⟩ := h.tail
    rw [rowsContain, if_neg (not_lt.mpr hr), valueAt_cons_of_le c _ hr]
    split_ifs with hs
    · exact ih htl hs
    · have hl : ∀ q ∈ s :: rs, p.y < q.1 := forall_lt_of_row (not_le.mp hs) htl
      rw [rowsContain_of_lt hl, Bool.or_false, valueAt_of_lt _ hl, rowContains_eq htl.cur]

theorem rowsContain_iff (h : Canonical [] rs) : rowsContain p rs = true ↔ InRows rs p := by
  unfold InRows
  rcases rs with _ | ⟨r, rs⟩
  · simp [rowsContain]
  rcases le_or_gt r.1 p.y with hr | hr
  · rw [rowsContain_eq_of_le h hr]
  · have hl := forall_lt_of_row hr h
    rw [rowsContain_of_lt hl, valueAt_of_lt _ hl]
    rfl

theorem rowRects_contains {height : Int} (h : Edges segs) (hrge : ∀ e ∈ segs, Near o.x e)
    (p : IntPoint) : (∃ R ∈ rowRects y height segs, R.contains p = true) ↔
      covers segs p.x = true ∧ y ≤ p.y ∧ p.y < int.convert (y + height) := by
  fun_induction rowRects y height segs with
  | case1 x maxX rest ih =>
    simp only [mem_cons, exists_eq_or_imp]
    have hmax : Near o.x maxX := hrge maxX (by simp)
    rw [covers_pair_iff h, ih h.tail.2.2 fun e he => hrge e (by simp [he]), IntRect.contains_iff]
    simp only [IntRect.maxX, maxY, hmax.convert_add]
    constructor
    · rintro (hin | hin)
      · exact ⟨.inl (by omega), by omega⟩
      · exact ⟨.inr hin.1, hin.2⟩
    · rintro ⟨hin | hin, hy⟩
      · exact .inl (by omega)
      · exact .inr ⟨hin, hy⟩
  | case2 segs hne =>
    rcases h.cases with rfl | ⟨a, b, fs, rfl, -⟩
    · simp
    · exact (hne a b fs rfl).elim

theorem rectsFrom_contains (h : Canonical c (r :: rs)) (hrge : InRange o (r :: rs)) (p : IntPoint) :
    (∃ R ∈ rectsFrom (r :: rs), R.contains p = true) ↔
      r.1 ≤ p.y ∧ covers (valueAt c (r :: rs) p.y) p.x = true := by
  induction rs generalizing c r with
  | nil =>
    have hr2 : r.2 = [] := h.closed
    simp only [rectsFrom, valueAt_cons, valueAt_nil, hr2]
    constructor
    · simp
    · rintro ⟨hr, hc⟩
      rw [if_pos hr] at hc
      cases hc
  | cons s rs ih =>
    obtain ⟨hlt, htl⟩ := h.tail
    have hrs : r.1 < s.1 := hlt s mem_cons_self
    rw [rectsFrom]
    simp only [mem_append, or_and_right, exists_or]
    obtain ⟨⟨-, hre⟩, hrge⟩ := forall_mem_cons.mp hrge
    have hsy := (hrge s mem_cons_self).1
    rw [rowRects_contains htl.cur hre, ih htl hrge, hsy.convert_add]
    constructor
    · rintro (⟨hc, hy, hys⟩ | ⟨hs, hc⟩)
      · refine ⟨hy, ?_⟩
        have hl := forall_lt_of_row (show p.y < s.1 by omega) htl
        rw [valueAt_cons_of_le c _ hy, valueAt_of_lt _ hl]
        exact hc
      · have hy : r.1 ≤ p.y := hrs.le.trans hs
        rw [valueAt_cons_of_le c _ hy]
        exact ⟨hy, hc⟩
    · rintro ⟨hy, hc⟩
      rw [valueAt_cons_of_le c _ hy] at hc
      rcases le_or_gt s.1 p.y with hs | hs
      · exact .inr ⟨hs, hc⟩
      · rw [valueAt_of_lt _ (forall_lt_of_row hs htl)] at hc
        exact .inl ⟨hc, hy, by omega⟩

theorem rectsFrom_iff (h : Canonical [] rs) (hrge : InRange o rs) (p : IntPoint) :
    (∃ R ∈ rectsFrom rs, R.contains p = true) ↔ InRows rs p := by
  unfold InRows
  rcases rs with _ | ⟨r, rs⟩
  · simp [rectsFrom]
  rw [rectsFrom_contains h hrge]
  refine ⟨And.right, fun hc => ⟨?_, hc⟩⟩
  by_contra hr
  rw [valueAt_of_lt _ (forall_lt_of_row (not_le.mp hr) h)] at hc
  exact Bool.false_ne_true hc

/-- Two rectangles without a common point. -/
def Apart (R S : IntRect) : Prop := ∀ p, ¬ (R.contains p = true ∧ S.contains p = true)

theorem rowRects_apart {height : Int} (h : Edges segs) (hrge : ∀ e ∈ segs, Near o.x e) :
    (rowRects y height segs).Pairwise Apart := by
  fun_induction rowRects y height segs with
  | case1 x maxX rest ih =>
    obtain ⟨-, hb, hrest⟩ := h.tail
    have hrge' : ∀ e ∈ rest, Near o.x e := fun e he => hrge e (by simp [he])
    refine pairwise_cons.mpr ⟨fun S hS p hp => ?_, ih hrest hrge'⟩
    -- a point of a later rectangle lies at or after an edge behind `maxX`
    have hc := ((rowRects_contains hrest hrge' p).mp ⟨S, hS, hp.2⟩).1
    obtain ⟨e, he, hle⟩ := (hrest.bracket hc).1
    have hx := (IntRect.contains_iff _ p).mp hp.1
    have := hb e he
    simp only [IntRect.maxX, (hrge maxX (by simp)).convert_add] at hx
    omega
  | case2 => exact List.Pairwise.nil

theorem rectsFrom_apart (h : Canonical c rs) (hrge : InRange o rs) :
    (rectsFrom rs).Pairwise Apart := by
  induction rs generalizing c with
  | nil => exact List.Pairwise.nil
  | cons r rs ih =>
    rcases rs with _ | ⟨s, rs⟩
    · exact List.Pairwise.nil
    obtain ⟨-, htl⟩ := h.tail
    obtain ⟨⟨-, hre⟩, hrge⟩ := forall_mem_cons.mp hrge
    rw [rectsFrom, pairwise_append]
    refine ⟨rowRects_apart htl.cur hre, ih htl hrge, fun R hR S hS p hp => ?_⟩
    have hrow := ((rowRects_contains htl.cur hre p).mp ⟨R, hR, hp.1⟩).2
    rw [(hrge s mem_cons_self).1.convert_add] at hrow
    have hl := ((rectsFrom_contains htl hrge p).mp ⟨S, hS, hp.2⟩).1
    omega

/-! ## Bounds -/

theorem getD_mem {segments : List Int} {k : Nat} (h : k < segments.length) :
    segments.getD k 0 ∈ segments := by
  rw [getD_eq_getElem _ _ h]
  exact getElem_mem h

theorem row_between (pre row rest : List Int) (h : row.Pairwise (· < ·)) {e : Int} (he : e ∈ row) :
    (pre ++ (row ++ rest)).getD pre.length 0 ≤ e ∧
      e ≤ (pre ++ (row ++ rest)).getD (pre.length + row.length - 1) 0 := by
  obtain ⟨k, hk, rfl⟩ := getElem_of_mem he
  have hg : ∀ j, (hj : j < row.length) →
      (pre ++ (row ++ rest)).getD (pre.length + j) 0 = row[j] := by
    intro j hj
    rw [getD_append_right _ _ _ _ (by omega), Nat.add_sub_cancel_left,
      getD_append _ _ _ _ hj, getD_eq_getElem _ _ hj]
  have hfst := hg 0 (by omega)
  have hls := hg (row.length - 1) (by omega)
  rw [← Nat.add_sub_assoc (by omega)] at hls
  rw [add_zero] at hfst
  rw [hfst, hls, h.sortedLT.getElem_le_getElem_iff, h.sortedLT.getElem_le_getElem_iff]
  exact ⟨Nat.zero_le k, Nat.le_sub_one_of_lt hk⟩

/-- The loop of `bounds`: `minX` and `maxX` bound the edges of every row, and are edges or initial.
-/
theorem boundsLoop_spec (pre : List Int) (c : List Int) (rs : List Row) (h : Canonical c rs)
    (lo hi : Int) :
    let segments := pre ++ rs.flatMap (·.2)
    let out := boundsLoop segments (spansFrom pre.length rs) (lo, hi)
    (out.1 = lo ∨ out.1 ∈ segments) ∧ (out.2 = hi ∨ out.2 ∈ segments) ∧
      out.1 ≤ lo ∧ hi ≤ out.2 ∧ ∀ r ∈ rs, ∀ e ∈ r.2, out.1 ≤ e ∧ e ≤ out.2 := by
  induction rs generalizing pre c lo hi with
  | nil => simp [spansFrom, boundsLoop]
  | cons r rs ih =>
    obtain ⟨-, htl⟩ := h.tail
    rcases rs with _ | ⟨s, rs⟩
    · have hr2 : r.2 = [] := htl.closed
      simp [spansFrom, boundsLoop, hr2]
    have ih := ih (pre ++ r.2) r.2 htl
    rw [length_append, append_assoc, ← flatMap_cons, spansFrom] at ih
    rw [spansFrom, spansFrom]
    intro segments out
    have hseg : segments = pre ++ (r.2 ++ (s :: rs).flatMap (·.2)) := rfl
    -- after the row, the two variables are as before or edges, and bound the edges of the row
    obtain ⟨lo', hi', ho, hlo, hhi, hlo', hhi', hrow⟩ : ∃ lo' hi', out = boundsLoop segments
          (⟨s.1, pre.length + r.2.length⟩ :: spansFrom (pre.length + r.2.length + s.2.length) rs)
          (lo', hi') ∧ (lo' = lo ∨ lo' ∈ segments) ∧ (hi' = hi ∨ hi' ∈ segments) ∧
        lo' ≤ lo ∧ hi ≤ hi' ∧ ∀ e ∈ r.2, lo' ≤ e ∧ e ≤ hi' := by
      simp only [out]
      rw [boundsLoop]
      simp only [gt_iff_lt, ← min_def_lt, ← max_def_lt]
      split_ifs with hl
      · -- no edges from here on
        have hr2 : r.2 = [] := by
          rw [hseg, length_append, length_append] at hl
          exact length_eq_zero_iff.mp (by omega)
        exact ⟨lo, hi, rfl, .inl rfl, .inl rfl, le_rfl, le_rfl, by simp [hr2]⟩
      · have hlt : pre.length < segments.length := by
          rw [hseg, length_append] at hl ⊢
          omega
        have hlt' : pre.length + r.2.length - 1 < segments.length := by
          rw [hseg, length_append, length_append] at hlt ⊢
          omega
        have hrow := fun e (he : e ∈ r.2) =>
          row_between pre r.2 ((s :: rs).flatMap (·.2)) htl.cur.sorted he
        rw [← hseg] at hrow
        refine ⟨_, _, rfl, ?_, ?_, min_le_right .., le_max_left .., fun e he => ?_⟩
        · refine (min_choice _ lo).symm.imp_right fun h => ?_
          rw [h]
          exact getD_mem hlt
        · refine (max_choice hi _).imp_right fun h => ?_
          rw [h]
          exact getD_mem hlt'
        · exact ⟨min_le_of_left_le (hrow e he).1, le_max_of_le_right (hrow e he).2⟩
    obtain ⟨h1, h2, h3, h4, h5⟩ := ih lo' hi'
    rw [ho]
    refine ⟨?_, ?_, h3.trans hlo', hhi'.trans h4, forall_mem_cons.mpr ⟨fun e he => ?_, h5⟩⟩
    · exact h1.elim (fun h1 => hlo.imp h1.trans (h1.symm ▸ ·)) .inr
    · exact h2.elim (fun h2 => hhi.imp h2.trans (h2.symm ▸ ·)) .inr
    · exact ⟨h3.trans (hrow e he).1, (hrow e he).2.trans h4⟩

theorem Canonical.valueAt_mem (h : Canonical c rs) (hr : r ∈ rs) : valueAt c rs r.1 = r.2 := by
  obtain ⟨qs, ss, rfl⟩ := append_of_mem hr
  refine valueAt_of_mem c h.sorted le_rfl fun s hs => ?_
  exact (pairwise_cons.mp (pairwise_append.mp h.sorted).2.1).1 s hs

section

variable (h : Canonical [] rs)

include h

theorem Canonical.inRows_of_mem (hr : r ∈ rs) {x : Int} (hx : covers r.2 x = true) :
    InRows rs ⟨x, r.1⟩ := by
  unfold InRows
  rw [Canonical.valueAt_mem h hr]
  exact hx

/-- A point of the rows lies in a started row, between two of its edges, above the last row. -/
theorem Canonical.inRows_elim (hp : InRows rs p) :
    (∃ r ∈ rs, r.1 ≤ p.y ∧ (∃ e ∈ r.2, e ≤ p.x) ∧ ∃ e ∈ r.2, p.x < e) ∧ ∃ r ∈ rs, p.y < r.1 := by
  unfold InRows at hp
  constructor
  · rcases Scanline.valueAt_mem [] rs p.y with hv | ⟨r, hr, hy, hv⟩
    · rw [hv] at hp
      cases hp
    · rw [hv] at hp
      exact ⟨r, hr, hy, (h.edges r hr).bracket hp⟩
  · by_contra hno
    push Not at hno
    rw [valueAt_of_forall_le [] hno, h.closed] at hp
    exact Bool.false_ne_true hp

theorem Canonical.ends (hne : rs ≠ []) :
    ∃ fst last bef qs ts, rs = fst :: ts ∧ rs = qs ++ [bef, last] ∧ fst.2 ≠ [] ∧ bef.2 ≠ [] := by
  obtain ⟨ss, last, rfl⟩ := (eq_nil_or_concat' rs).resolve_left hne
  have hls : last.2 = [] := by simpa using h.closed
  rcases eq_nil_or_concat' ss with rfl | ⟨qs, bef, rfl⟩
  · exact absurd hls h.changes.1
  have hbef : bef.2 ≠ [] := by
    have := (changes_append.mp h.changes).2.1
    rw [hls] at this
    simpa using this.symm
  rcases qs with _ | ⟨fst, qs⟩
  · exact ⟨bef, last, bef, [], [last], rfl, rfl, hbef, hbef⟩
  · refine ⟨fst, last, bef, fst :: qs, qs ++ [bef] ++ [last], rfl, by simp, ?_, hbef⟩
    exact h.changes.1

theorem bounds_eq {fst bef last : Row} {qs ts : List Row} (hrge : InRange o rs)
    (hfst : rs = fst :: ts) (hls : rs = qs ++ [bef, last]) (hne : fst.2 ≠ []) :
    ∃ minX maxX, (ofRows rs).bounds = ⟨minX, fst.1, maxX - minX, last.1 - fst.1⟩ ∧
      (∃ r ∈ rs, minX ∈ r.2) ∧ (∃ r ∈ rs, maxX ∈ r.2) ∧
      ∀ r ∈ rs, ∀ e ∈ r.2, minX ≤ e ∧ e ≤ maxX := by
  obtain ⟨hmin, hmax, hlo, hhi, hbox⟩ := boundsLoop_spec [] [] rs h intMax intMin
  simp only [nil_append, length_nil] at hmin hmax hlo hhi hbox
  generalize ho : boundsLoop (rs.flatMap (·.2)) (spansFrom 0 rs) (intMax, intMin) = out
    at hmin hmax hlo hhi hbox
  have hm : fst ∈ rs := by simp [hfst]
  have hlm : last ∈ rs := by simp [hls]
  obtain ⟨e, he⟩ := exists_mem_of_ne_nil _ hne
  obtain ⟨hem, hoe, hex, -⟩ := (hrge fst hm).2 e he
  obtain ⟨hle, hge⟩ := hbox fst hm e he
  -- a loop variable that kept its initial value equals the edge `e`
  have hminm : ∃ r ∈ rs, out.1 ∈ r.2 := by
    rcases hmin with hmin | hmin
    · exact ⟨fst, hm, by rwa [show out.1 = e by omega]⟩
    · simpa using hmin
  have hmaxm : ∃ r ∈ rs, out.2 ∈ r.2 := by
    rcases hmax with hmax | hmax
    · exact ⟨fst, hm, by rwa [show out.2 = e by omega]⟩
    · simpa using hmax
  refine ⟨out.1, out.2, ?_, hminm, hmaxm, hbox⟩
  obtain ⟨r, hr, hrmin⟩ := hminm
  obtain ⟨r', hr', hrmax⟩ := hmaxm
  have hhd : (spansFrom 0 rs).head? = some ⟨fst.1, 0⟩ := by rw [hfst]; rfl
  have hg : ∃ k, (spansFrom 0 rs).getLast? = some ⟨last.1, k⟩ := by
    rw [hls, spansFrom_append]
    simp [spansFrom]
  obtain ⟨k, hg⟩ := hg
  simp only [Shape.bounds, ofRows, hhd, hg, ho,
    convert_sub ((hrge r' hr').2 _ hrmax) ((hrge r hr).2 _ hrmin),
    convert_sub (hrge last hlm).1 (hrge fst hm).1]

/-- **Bounds.** `Shape::bounds` is the tight bounding box of the rows. -/
theorem bounds_tight (hrge : InRange o rs) :
    Tight (ofRows rs).bounds (InRows rs) ∧ BoxedOrEmpty o (ofRows rs).bounds := by
  by_cases hne : rs = []
  · subst hne
    refine ⟨⟨?_, ?_, ?_, ?_, ?_, ?_⟩, .inl rfl⟩ <;> simp [InRows, ofRows, Shape.bounds, spansFrom,
      IntRect.isEmpty]
  obtain ⟨fst, last, bef, qs, ts, hfst, hls, hfe, hbe⟩ := Canonical.ends h hne
  obtain ⟨minX, maxX, hb, ⟨r, hr, hmin⟩, ⟨r', hr', hmax⟩, hbox⟩ := bounds_eq h hrge hfst hls hfe
  have hfm : fst ∈ rs := by simp [hfst]
  have hlm : last ∈ rs := by simp [hls]
  have hnx := (hrge r hr).2 minX hmin
  have hnmx := (hrge r' hr').2 maxX hmax
  have hny := (hrge fst hfm).1
  have hnmy := (hrge last hlm).1
  have hmx : (ofRows rs).bounds.maxX = maxX := by
    rw [hb, IntRect.maxX, add_sub_cancel, hnmx.convert]
  have hmy : (ofRows rs).bounds.maxY = last.1 := by
    rw [hb, maxY, add_sub_cancel, hnmy.convert]
  have hins : ∀ p, InRows rs p → (ofRows rs).bounds.contains p = true := by
    intro p hp
    obtain ⟨⟨q, hq, hqy, ⟨e, he, hex⟩, e', he', hex'⟩, s, hs, hsy⟩ := Canonical.inRows_elim h hp
    have hqf : fst.1 ≤ q.1 := by
      rw [hfst] at hq h
      rcases mem_cons.mp hq with rfl | hq
      · exact le_rfl
      · exact (h.tail.1 q hq).le
    have hsl : s.1 ≤ last.1 := by
      have hsrt := h.sorted
      rw [hls, show qs ++ [bef, last] = (qs ++ [bef]) ++ [last] by simp] at hs hsrt
      rcases mem_append.mp hs with hs | hs
      · exact ((pairwise_append.mp hsrt).2.2 s hs last (by simp)).le
      · rw [mem_singleton.mp hs]
    have h1 := (hbox q hq e he).1
    have h2 := (hbox q hq e' he').2
    rw [IntRect.contains_iff, hmx, hmy, hb]
    dsimp only
    omega
  -- the first row has a first edge, and so has the row before the last
  obtain ⟨a, as, ha⟩ := exists_cons_of_ne_nil hfe
  have hap : InRows rs ⟨a, fst.1⟩ := Canonical.inRows_of_mem h hfm (by
    rw [ha]
    exact (ha ▸ h.edges fst hfm).covers_head)
  have hain := (IntRect.contains_iff _ _).mp (hins _ hap)
  rw [hmx, hmy, hb] at hain
  have hboxed : Boxed o (ofRows rs).bounds := by
    refine ⟨by rw [hb]; exact hnx, hmx ▸ hnmx, by rw [hb]; exact hny, hmy ▸ hnmy, ?_, ?_, ?_⟩
    · rw [hmx, hb]
    · rw [hmy, hb]
    · rw [hb]
      dsimp only at hain ⊢
      omega
  have hnn := hboxed.isEmpty
  refine ⟨⟨hins, ?_, fun _ => ?_, fun _ => ?_, fun _ => ?_, fun _ => ?_⟩, .inr hboxed⟩
  · rw [hnn]
    exact ⟨by simp, fun hno => (hno _ hap).elim⟩
  · refine ⟨⟨minX, r.1⟩, Canonical.inRows_of_mem h hr ?_, by rw [hb]⟩
    exact (h.edges r hr).covers_min hmin fun e he => (hbox r hr e he).1
  · refine ⟨⟨maxX - 1, r'.1⟩, Canonical.inRows_of_mem h hr' ?_, ?_⟩
    · refine (h.edges r' hr').covers_before_max hmax (by omega) fun e he hne => ?_
      have := (hbox r' hr' e he).2
      omega
    · rw [hmx]
      exact Int.sub_add_cancel ..
  · exact ⟨_, hap, by rw [hb]⟩
  · obtain ⟨a', as', ha'⟩ := exists_cons_of_ne_nil hbe
    refine ⟨⟨a', last.1 - 1⟩, ?_, ?_⟩
    · have hsrt := h.sorted
      rw [hls] at hsrt
      have hlt : bef.1 < last.1 := by
        simpa using (pairwise_append.mp hsrt).2.1
      have hbm : bef ∈ rs := by simp [hls]
      unfold InRows
      rw [hls, valueAt_of_mem [] hsrt (show bef.1 ≤ last.1 - 1 by omega) (by simp)]
      rw [ha']
      exact (ha' ▸ h.edges bef hbm).covers_head
    · rw [hmy]
      exact Int.sub_add_cancel ..

end

/-! ## Comparing shapes -/

variable {es : List Int}

theorem lt_of_covers {e x : Int} (h : Edges es) (he : ∀ f ∈ es, e < f)
    (hx : covers es x = true) : e < x := by
  obtain ⟨f, hf, hle⟩ := (h.bracket hx).1
  exact (he f hf).trans_le hle

theorem le_of_covers {e f x : Int} (h : Edges (e :: f :: es))
    (hx : covers (e :: f :: es) x = true) : e ≤ x := by
  obtain ⟨hlt, hes, he⟩ := h.tail
  rcases (covers_pair_iff h x).mp hx with hin | hx
  · exact hin.1
  · exact (hlt.trans (lt_of_covers he hes hx)).le

theorem exists_covers (h : Edges es) (hne : es ≠ []) : ∃ x, covers es x = true := by
  cases es with
  | nil => exact absurd rfl hne
  | cons e es => exact ⟨e, h.covers_head⟩

/-- The comparison of two rows goes on if `a` covers what `b` covers, and fails otherwise. -/
theorem compareSegments_contains {as bs : List Int} (ha : Edges as) (hb : Edges bs) :
    (compareSegments .contains as bs = none ∧ ∀ x, covers bs x = true → covers as x = true) ∨
      (compareSegments .contains as bs = some false ∧
        ¬ ∀ x, covers bs x = true → covers as x = true) := by
  induction hn : as.length + bs.length using Nat.strong_induction_on generalizing as bs with
  | _ n ih =>
    rcases hb.cases with rfl | ⟨bX, bMaxX, bs, rfl, hbx, hbs, hbe⟩
    · refine .inl ⟨?_, nofun⟩
      rw [compareSegments] <;> simp [stopIf, aOutsideB]
    have hcov := covers_pair_iff hb
    rcases ha.cases with rfl | ⟨aX, aMaxX, as, rfl, hax, has, hae⟩
    · refine .inr ⟨by simp [compareSegments, stopIf, bOutsideA], fun h => ?_⟩
      exact Bool.false_ne_true (h bX hb.covers_head)
    -- past its first segment, `a` is covered by the rest
    have hrest : ∀ x, aMaxX ≤ x → covers (aX :: aMaxX :: as) x = true → covers as x = true :=
      fun x hle hx => ((covers_pair_iff ha x).mp hx).resolve_left fun hin => by omega
    simp only [length_cons] at hn
    rw [compareSegments]
    simp only [stopIf, aOverlapsB, aOutsideB, bOutsideA, ite_self, orElse_eq_orElse, orElse_eq_or,
      none_or, decide_eq_true_eq]
    by_cases hlt : bX < aX
    · refine .inr ⟨by simp [hlt], fun h => ?_⟩
      exact (le_of_covers ha (h bX hb.covers_head)).not_gt hlt
    rw [if_neg hlt, none_or]
    split_ifs with hab hba
    · refine (ih _ (by simp only [length_cons]; omega) hae hb rfl).imp
        (And.imp_right fun h x hx => (covers_pair_iff ha x).mpr (.inr (h x hx)))
        (And.imp_right <| mt fun h x hx => ?_)
      -- the end of the segment of `a` is not covered
      have hend : aMaxX ≤ bX := by
        by_contra hlt
        have hx := h aMaxX ((hcov _).mpr (.inl ⟨by omega, hab⟩))
        exact (lt_of_covers hae has (hrest aMaxX le_rfl hx)).false
      exact hrest x (hend.trans (le_of_covers hb hx)) (h x hx)
    · refine (ih _ (by simp only [length_cons]; omega) ha hbe rfl).imp
        (And.imp_right fun h x hx => ?_)
        (And.imp_right <| mt fun h x hx => h x ((hcov x).mpr (.inr hx)))
      rcases (hcov x).mp hx with hin | hx
      · exact (covers_pair_iff ha x).mpr (.inl ⟨by omega, by omega⟩)
      · exact h x hx
    · refine (ih _ (by omega) hae hbe rfl).imp
        (And.imp_right fun h x hx => (covers_pair_iff ha x).mpr ?_)
        (And.imp_right <| mt fun h x hx => ?_)
      · exact ((hcov x).mp hx).imp (fun hin => ⟨by omega, by omega⟩) (h x)
      · have := lt_of_covers hbe hbs hx
        exact hrest x (by omega) (h x ((hcov x).mpr (.inr hx)))

theorem valueAt_cons_default (c d : List Int) (h : r.1 ≤ y) :
    valueAt c (r :: rs) y = valueAt d (r :: rs) y := by
  rw [valueAt_cons_of_le c rs h, valueAt_cons_of_le d rs h]

/-- The point is in the rows, and not before the first of them. -/
def Ahead (rs : List Row) (p : IntPoint) : Prop := (∀ r ∈ rs.head?, r.1 ≤ p.y) ∧ InRows rs p

section

variable {a a' b b' : Row} {ca cb : List Int} {aHad bHad : Bool}

theorem not_ahead_last (h : Canonical ca [a]) : ¬ Ahead [a] p := by
  rintro ⟨hle, hp⟩
  have hnil : a.2 = [] := h.closed
  rw [InRows, valueAt_cons_of_le _ _ (hle a rfl), valueAt_nil, hnil] at hp
  exact Bool.false_ne_true hp

theorem ahead_cons (h : Canonical ca (a :: a' :: as)) : Ahead (a :: a' :: as) p ↔
    (a.1 ≤ p.y ∧ p.y < a'.1 ∧ covers a.2 p.x = true) ∨ Ahead (a' :: as) p := by
  obtain ⟨hlt, htail⟩ := h.tail
  have haa := hlt a' mem_cons_self
  simp only [Ahead, InRows, head?_cons, mem_some_iff, forall_eq']
  rcases lt_or_ge p.y a'.1 with hpa | hpa
  · rw [and_iff_right hpa, or_iff_left fun hge => hpa.not_ge hge.1]
    refine and_congr_right fun hle => ?_
    rw [valueAt_cons_of_le _ _ hle, valueAt_of_lt _ (forall_lt_of_row hpa htail)]
  · have hle := haa.le.trans hpa
    rw [valueAt_cons_of_le _ _ hle, valueAt_cons_default _ [] hpa]
    simp [hle, hpa, hpa.not_gt]

theorem Ahead.cons (h : Canonical ca (a :: a' :: as)) (hp : Ahead (a' :: as) p) :
    Ahead (a :: a' :: as) p := (ahead_cons h).mpr (.inr hp)

theorem Ahead.tail (h : Canonical ca (a :: a' :: as)) (hp : Ahead (a :: a' :: as) p)
    (hle : a'.1 ≤ p.y) : Ahead (a' :: as) p :=
  ((ahead_cons h).mp hp).resolve_left fun hin => hin.2.1.not_ge hle

/-- The comparison of rows for containment, from a point of the walk where `a` has started, or where
what `b` has before it was examined. -/
theorem compareRows_contains_iff (ha : Canonical ca (a :: as)) (hb : Canonical cb bs)
    (hlead : ∀ b b' bs', bs = b :: b' :: bs' → a.1 ≤ b.1 ∨ (aHad = false → b.2 = []) ∧ a.1 < b'.1) :
    compareRows .contains (a :: as) bs aHad bHad = true ↔
      ∀ p, Ahead bs p → a.1 ≤ p.y → Ahead (a :: as) p := by
  induction hn : as.length + bs.length using Nat.strong_induction_on
    generalizing a as bs ca cb aHad bHad with
  | _ n ih =>
    rcases bs with _ | ⟨b, _ | ⟨b', bs⟩⟩
    · cases as <;> simp [compareRows, stopIf, aOutsideB, defaultResult, Ahead, InRows]
    · cases as <;> simp [compareRows, stopIf, aOutsideB, defaultResult, not_ahead_last hb]
    obtain ⟨hltb, htb⟩ := hb.tail
    have hbb := hltb b' mem_cons_self
    have hfirst := hlead b b' bs rfl
    have hab : a.1 < b'.1 := hfirst.elim (·.trans_lt hbb) (·.2)
    -- what `b` covers now is ahead of `a`
    have hcur : (∀ p, Ahead (b :: b' :: bs) p → a.1 ≤ p.y → Ahead (a :: as) p) → ∀ x,
        covers b.2 x = true → Ahead (a :: as) ⟨x, max a.1 b.1⟩ := fun h x hx =>
      h _ ((ahead_cons hb).mpr (.inl ⟨le_max_right .., max_lt hab hbb, hx⟩)) (le_max_left ..)
    rcases as with _ | ⟨a', as⟩
    · refine iff_of_false (by simp [compareRows, stopIf, bOutsideA]) fun h => ?_
      by_cases hne : b.2 = []
      · rw [hne] at htb
        obtain ⟨x, hx⟩ := exists_covers htb.tail.2.cur htb.changes.1
        refine not_ahead_last ha (h ⟨x, b'.1⟩ (.cons hb ⟨by simp, ?_⟩) hab.le)
        exact Canonical.inRows_of_mem htb mem_cons_self hx
      · obtain ⟨x, hx⟩ := exists_covers htb.cur hne
        exact not_ahead_last ha (hcur h x hx)
    obtain ⟨hlta, hta⟩ := ha.tail
    have haa := hlta a' mem_cons_self
    have hout : ¬ (decide (b.1 < a.1) && !aHad && decide (b.2 ≠ [])) = true := by
      simp only [Bool.and_eq_true, decide_eq_true_eq, Bool.not_eq_true']
      rintro ⟨⟨hlt, hhad⟩, hne⟩
      exact hne ((hfirst.resolve_left hlt.not_ge).1 hhad)
    simp only [length_cons] at hn
    rw [compareRows]
    simp only [stopIf, aOutsideB, bOutsideA, ite_self, orElse_eq_orElse, orElse_eq_or, none_or]
    rw [if_neg hout, none_or]
    have hcmp := compareSegments_contains hta.cur htb.cur
    -- the walk goes on if the current row of `a` covers that of `b`
    by_cases hsub : b.1 < a'.1 → ∀ x, covers b.2 x = true → covers a.2 x = true
    · have hseg : (if b'.1 > a.1 ∧ b.1 < a'.1 then compareSegments .contains a.2 b.2 else none)
          = none := by
        split_ifs with hover
        · exact (hcmp.resolve_right fun h => h.2 (hsub hover.2)).1
        · rfl
      have hnil : b.1 < a'.1 → a.2 = [] → b.2 = [] := by
        intro hlt hnil
        by_contra hne
        obtain ⟨x, hx⟩ := exists_covers htb.cur hne
        have hx := hsub hlt x hx
        rw [hnil] at hx
        exact Bool.false_ne_true hx
      have hsplit : (∀ p, Ahead (b :: b' :: bs) p → a.1 ≤ p.y → Ahead (a :: a' :: as) p) ↔
          ∀ p, Ahead (b :: b' :: bs) p → a.1 ≤ p.y → a'.1 ≤ p.y ∨ b'.1 ≤ p.y →
            Ahead (a :: a' :: as) p := by
        refine forall₃_congr fun p hp hle => ⟨fun h _ => h, fun h => ?_⟩
        by_cases hor : a'.1 ≤ p.y ∨ b'.1 ≤ p.y
        · exact h hor
        · have hin := ((ahead_cons hb).mp hp).resolve_right fun hp => hor (.inr (hp.1 b' rfl))
          exact (ahead_cons ha).mpr (.inl ⟨hle, by omega, hsub (by omega) _ hin.2.2⟩)
      rw [hseg, hsplit]
      split_ifs with hlt hgt
      · rw [ih _ (by simp only [length_cons]; omega) hta hb ?_ rfl]
        · exact forall₂_congr fun p hp => ⟨fun h _ hor => (h (by omega)).cons ha,
            fun h hle => (h (haa.le.trans hle) (.inl hle)).tail ha hle⟩
        · rintro _ _ _ ⟨⟩
          rcases le_or_gt a'.1 b.1 with hle | hgt
          · exact .inl hle
          · exact .inr ⟨fun hhad => hnil hgt (by simpa using hhad), hlt⟩
      · rw [ih _ (by simp only [length_cons]; omega) ha htb ?_ rfl]
        · exact forall_congr' fun p => ⟨fun h hp hle hor => h (hp.tail hb (by omega)) hle,
            fun h hp hle => h (hp.cons hb) hle (.inr (hp.1 b' rfl))⟩
        · rintro _ _ _ ⟨⟩
          exact .inl hab.le
      · rw [ih _ (by simp only [length_cons]; omega) hta htb ?_ rfl]
        · exact forall_congr' fun p => ⟨fun h hp _ hor =>
            (h (hp.tail hb (by omega)) (by omega)).cons ha,
            fun h hp hle => (h (hp.cons hb) (by omega) (.inl hle)).tail ha hle⟩
        · rintro _ _ _ ⟨⟩
          exact .inl (not_lt.mp hgt)
    · refine iff_of_false (fun h => hsub fun hlt => ?_) fun h => hsub fun hlt x hx => ?_
      · rw [if_pos ⟨hab, hlt⟩] at h
        refine (hcmp.resolve_right fun hseg => ?_).2
        rw [hseg.1] at h
        exact Bool.false_ne_true h
      · rcases (ahead_cons ha).mp (hcur h x hx) with hin | hp
        · exact hin.2.2
        · exact absurd (hp.1 a' rfl) (max_lt haa hlt).not_ge

end

theorem ahead_iff (h : Canonical [] rs) : Ahead rs p ↔ InRows rs p := by
  refine ⟨And.right, fun hp => ⟨fun r hr => ?_, hp⟩⟩
  cases rs with
  | nil => cases hr
  | cons r rs =>
    cases hr
    by_contra hlt
    rw [InRows, valueAt_of_lt _ (forall_lt_of_row (not_le.mp hlt) h)] at hp
    exact Bool.false_ne_true hp

/-- **Containment** of the points. -/
theorem compareShapes_contains_iff (ha : Canonical [] as) (hb : Canonical [] bs) :
    compareShapes .contains (ofRows as) (ofRows bs) = true ↔ ∀ p, InRows bs p → InRows as p := by
  rw [compareShapes, rows_ofRows ha.closed, rows_ofRows hb.closed]
  rcases bs with _ | ⟨b, _ | ⟨b', bs⟩⟩
  · rcases as with _ | ⟨a, _ | ⟨a', as⟩⟩ <;>
      simp [compareRows, stopIf, aOutsideB, defaultResult, InRows]
  · exact absurd hb.closed hb.changes.1
  -- the first row of `b` has a point
  obtain ⟨x, hx⟩ := exists_covers hb.tail.2.cur hb.changes.1
  have hp := Canonical.inRows_of_mem hb mem_cons_self hx
  rcases as with _ | ⟨a, as⟩
  · exact iff_of_false (by simp [compareRows, stopIf, bOutsideA])
      fun h => Bool.false_ne_true (h _ hp)
  by_cases hab : a.1 ≤ b.1
  · rw [compareRows_contains_iff ha hb fun _ _ _ heq => .inl ?_]
    · refine forall_congr' fun p => ?_
      rw [ahead_iff ha, ahead_iff hb]
      exact ⟨fun h hp => h hp (hab.trans (((ahead_iff hb).mpr hp).1 b rfl)), fun h hp _ => h hp⟩
    · cases heq
      exact hab
  · refine iff_of_false ?_ fun h => hab (((ahead_iff ha).mpr (h _ hp)).1 a rfl)
    rcases as with _ | ⟨a', as⟩ <;> rw [compareRows] <;>
      simp [stopIf, aOutsideB, bOutsideA, not_le.mp hab, hb.changes.1]

/-! ## Regions -/

/-- `r` is the region of the rows `rs`, with coordinates from `o` on. -/
structure Represents (o : IntPoint) (r : Region) (rs : List Row) : Prop where
  canonical : Canonical [] rs
  shape : r.shape = ofRows rs
  inRange : InRange o rs
  boxed : BoxedOrEmpty o r.bounds
  tight : Tight r.bounds (InRows rs)

theorem Represents.contains_iff {r : Region} (h : Represents o r rs) (p : IntPoint) :
    r.contains p = true ↔ InRows rs p := by
  rw [contains, h.shape, rows_ofRows h.canonical.closed]
  cases hb : r.bounds.contains p with
  | true => simpa using rowsContain_iff h.canonical
  | false =>
    refine ⟨nofun, fun hp => ?_⟩
    rw [h.tight.inside p hp] at hb
    cases hb

theorem Represents.rects_iff {r : Region} (h : Represents o r rs) (p : IntPoint) :
    (∃ R ∈ r.rects, R.contains p = true) ↔ InRows rs p := by
  rw [rects, h.shape, rows_ofRows h.canonical.closed]
  exact rectsFrom_iff h.canonical h.inRange p

theorem Represents.rects_apart {r : Region} (h : Represents o r rs) : r.rects.Pairwise Apart := by
  rw [rects, h.shape, rows_ofRows h.canonical.closed]
  exact rectsFrom_apart h.canonical h.inRange

theorem Represents.of_bounds {r : Region} (h : Canonical [] rs) (hs : r.shape = ofRows rs)
    (hrge : InRange o rs) (hb : r.bounds = (ofRows rs).bounds) : Represents o r rs :=
  ⟨h, hs, hrge, hb ▸ (bounds_tight h hrge).2, hb ▸ (bounds_tight h hrge).1⟩

theorem Represents.empty : Represents o {} [] := .of_bounds Canonical.nil rfl (by simp [InRange]) rfl

/-- The sides of a rectangle lie from `o` on, so that neither they nor their differences
overflow. -/
def FitsInt (o : IntPoint) (r : IntRect) : Prop :=
  Near o.x r.x ∧ Near o.x (r.x + r.width) ∧ Near o.y r.y ∧ Near o.y (r.y + r.height)

instance (o : IntPoint) (r : IntRect) : Decidable (FitsInt o r) :=
  inferInstanceAs (Decidable (_ ∧ _))

theorem Represents.ofRect {r : IntRect} (hw : 0 < r.width) (hh : 0 < r.height)
    (hr : FitsInt o r) : Represents o (ofRect r) [(r.y, [r.x, r.maxX]), (r.maxY, [])] := by
  obtain ⟨hx, hmx, hy, hmy⟩ := hr
  have hmaxX : r.maxX = r.x + r.width := hmx.convert
  have hmaxY : r.maxY = r.y + r.height := hmy.convert
  have hltx : r.x < r.maxX := by omega
  have hlty : r.y < r.maxY := by omega
  refine .of_bounds ⟨Edges.nil, by simp [hlty], by simp [Edges.nil, Edges.pair hltx],
    by simp [Changes], rfl⟩ rfl ?_ ?_
  · simp only [InRange, mem_cons, not_mem_nil, or_false, forall_eq_or_imp, forall_eq,
      false_imp_iff, implies_true, and_true]
    exact ⟨⟨hy, hx, hmaxX ▸ hmx⟩, hmaxY ▸ hmy⟩
  · have hmin : r.x < intMax := hltx.trans_le (hmaxX ▸ hmx.2.2.1)
    have hmax : intMin < r.maxX := (hx.1.trans hx.2.1).trans_lt hltx
    have hsubx : int.convert (r.maxX - r.x) = r.width := by
      rw [convert_sub (hmaxX ▸ hmx) hx]
      omega
    have hsuby : int.convert (r.maxY - r.y) = r.height := by
      rw [convert_sub (hmaxY ▸ hmy) hy]
      omega
    simp [Shape.bounds, ofRows, spansFrom, boundsLoop, hmin, hmax, hsubx, hsuby, Region.ofRect]

theorem inRange_of_value {op : Operation} {rs1 rs2 : List Row} (h : Canonical [] rs)
    (h1 : InRange o rs1) (h2 : InRange o rs2) (hy : ∀ r ∈ rs, Near o.y r.1)
    (hv : ∀ z, valueAt [] rs z = mergeEdges op (valueAt [] rs1 z) (valueAt [] rs2 z) 0) :
    InRange o rs := by
  have hval : ∀ (ss : List Row) z, InRange o ss → ∀ e ∈ valueAt [] ss z, Near o.x e := by
    intro ss z hss e he
    rcases Scanline.valueAt_mem [] ss z with hd | ⟨s, hs, -, hd⟩
    · rw [hd] at he
      cases he
    · exact (hss s hs).2 e (hd ▸ he)
  refine fun r hr => ⟨hy r hr, fun e he => ?_⟩
  rw [← Canonical.valueAt_mem h hr, hv] at he
  rcases mergeEdges_mem op _ _ 0 e he with he | he
  · exact hval rs1 r.1 h1 e he
  · exact hval rs2 r.1 h2 e he

/-- **The scanline operation.** The result holds a point exactly when the operation holds there. -/
theorem shapeOperation_spec (op : Operation) (ha : Represents o a as) (hb : Represents o b bs) :
    ∃ rs, shapeOperation op a.shape b.shape = ofRows rs ∧ Canonical [] rs ∧ InRange o rs ∧
      ∀ p, InRows rs p ↔ op.holds (decide (InRows as p)) (decide (InRows bs p)) = true := by
  obtain ⟨rs, hrs, hcan, hy, hv⟩ := shapeOperation_ofRows op ha.canonical hb.canonical ha.inRange
    hb.inRange
  rw [ha.shape, hb.shape]
  refine ⟨rs, hrs, hcan, inRange_of_value hcan ha.inRange hb.inRange hy hv, fun p => ?_⟩
  rw [decide_inRows, decide_inRows, ← mergeEdges_covers op (ha.canonical.valueAt_edges _)
    (hb.canonical.valueAt_edges _), ← hv]
  rfl

theorem length_spansFrom (k : Nat) (rs : List Row) : (spansFrom k rs).length = rs.length := by
  induction rs generalizing k with
  | nil => rfl
  | cons r rs ih => simp [spansFrom, ih]

/-- A region whose shape is one rectangle holds every point of its bounds. -/
theorem Represents.inRows_of_isRect {r : Region} (h : Represents o r rs) (hrc : r.isRect = true)
    (hp : r.bounds.contains p = true) :
    InRows rs p := by
  have hbne := h.boxed.isEmpty_of_contains hp
  have hne : rs ≠ [] := by
    rintro rfl
    rw [h.tight.empty_iff.mpr fun _ hq => Bool.false_ne_true hq] at hbne
    exact Bool.false_ne_true hbne.symm
  obtain ⟨fst, last, bef, qs, ts, -, rfl, -, hbe⟩ := Canonical.ends h.canonical hne
  simp only [Region.isRect, Shape.isRect, h.shape, ofRows, length_spansFrom, Bool.and_eq_true,
    decide_eq_true_eq, length_append, length_cons, length_nil,
    flatMap_append, flatMap_cons, flatMap_nil] at hrc
  obtain rfl : qs = [] := length_eq_zero_iff.mp (by omega)
  have hls : last.2 = [] := h.canonical.closed
  -- the only row is a single interval
  obtain ⟨a, b, hrow⟩ : ∃ a b, bef.2 = [a, b] := by
    rcases (h.canonical.edges bef (by simp)).cases with hnil | ⟨a, b, fs, hfs, -⟩
    · exact absurd hnil hbe
    · rw [hfs] at hrc
      simp only [length_cons] at hrc
      have : fs = [] := length_eq_zero_iff.mp (by omega)
      exact ⟨a, b, by rw [hfs, this]⟩
  have hi : ∀ q : IntPoint, InRows ([] ++ [bef, last]) q ↔
      (a ≤ q.x ∧ q.x < b) ∧ bef.1 ≤ q.y ∧ q.y < last.1 := by
    intro q
    have hedg := h.canonical.edges bef (by simp)
    rw [hrow] at hedg
    simp only [InRows, nil_append, valueAt_cons, valueAt_nil, hrow, hls]
    split_ifs with h1 h2
    · simp only [covers_nil, Bool.false_eq_true, false_iff]
      omega
    · rw [covers_pair_iff hedg, covers_nil]
      simp only [Bool.false_eq_true, or_false]
      omega
    · simp only [covers_nil, Bool.false_eq_true, false_iff]
      omega
  obtain ⟨q1, hq1, hx1⟩ := h.tight.left hbne
  obtain ⟨q2, hq2, hx2⟩ := h.tight.right hbne
  obtain ⟨q3, hq3, hy3⟩ := h.tight.top hbne
  obtain ⟨q4, hq4, hy4⟩ := h.tight.bottom hbne
  rw [hi] at hq1 hq2 hq3 hq4 ⊢
  rw [IntRect.contains_iff] at hp
  omega

section

variable (ha : Represents o a as) (hb : Represents o b bs)

include ha hb

/-- Regions whose boxes do not intersect have no point in common. -/
theorem Represents.apart (hd : (!a.bounds.intersects b.bounds) = true) {p : IntPoint}
    (hp : InRows as p) : ¬ InRows bs p := by
  intro hq
  rw [intersects_of_contains ha.boxed hb.boxed (ha.tight.inside p hp) (hb.tight.inside p hq)] at hd
  cases hd

theorem Represents.unite :
    ∃ rs, Represents o (a.unite b) rs ∧ ∀ p, InRows rs p ↔ InRows as p ∨ InRows bs p := by
  have hwth : (∀ p, InRows bs p → InRows as p) → ∀ p, InRows as p ↔ InRows as p ∨ InRows bs p :=
    fun hs p => ⟨.inl, fun hp => hp.elim id (hs p)⟩
  unfold Region.unite
  split_ifs with hemp hra hrb hcon
  · -- `b` holds no point
    exact ⟨as, ha, hwth fun p hp => (hb.tight.empty_iff.mp hemp p hp).elim⟩
  · rw [Bool.and_eq_true] at hra
    refine ⟨as, ha, hwth fun p hp => ha.inRows_of_isRect hra.1 ?_⟩
    exact contains_of_containsRect hra.2 (hb.tight.inside p hp)
  · rw [Bool.and_eq_true] at hrb
    refine ⟨bs, hb, fun p => ⟨.inr, fun hp => hp.elim (fun hp => ?_) id⟩⟩
    refine hb.inRows_of_isRect hrb.1 ?_
    exact contains_of_containsRect hrb.2 (ha.tight.inside p hp)
  · -- `unite` relies on the comparison of the two shapes
    refine ⟨as, ha, hwth fun p hp => ?_⟩
    simp only [Bool.and_eq_true, containsRegion, ha.shape, hb.shape] at hcon
    split_ifs at hcon with hbox
    · exact hcon.2.elim
    · exact (compareShapes_contains_iff ha.canonical hb.canonical).mp hcon.2 p hp
  · obtain ⟨rs, hrs, hcan, hrge, hp⟩ := shapeOperation_spec .union ha hb
    have hp' : ∀ p, InRows rs p ↔ InRows as p ∨ InRows bs p := fun p => by
      rw [hp p]
      simp [Operation.holds]
    refine ⟨rs, ⟨hcan, hrs, hrge, ?_, ?_⟩, hp'⟩
    · exact ha.boxed.unite hb.boxed
    · have := ha.tight.unite hb.tight ha.boxed hb.boxed
      rwa [← funext fun p => propext (hp' p)] at this

theorem Represents.intersect :
    ∃ rs, Represents o (a.intersect b) rs ∧ ∀ p, InRows rs p ↔ InRows as p ∧ InRows bs p := by
  unfold Region.intersect
  split_ifs with hemp hd
  · have hno := ha.tight.empty_iff.mp hemp
    exact ⟨as, ha, fun p => ⟨fun hp => (hno p hp).elim, And.left⟩⟩
  · exact ⟨[], Represents.empty, fun p => ⟨nofun, fun hp => (ha.apart hb hd hp.1 hp.2).elim⟩⟩
  · obtain ⟨rs, hrs, hcan, hrge, hp⟩ := shapeOperation_spec .intersect ha hb
    exact ⟨rs, .of_bounds hcan hrs hrge (congrArg Shape.bounds hrs),
      fun p => by rw [hp p]; simp [Operation.holds]⟩

theorem Represents.subtract :
    ∃ rs, Represents o (a.subtract b) rs ∧ ∀ p, InRows rs p ↔ InRows as p ∧ ¬ InRows bs p := by
  unfold Region.subtract
  split_ifs with hemp hbe hd
  · have hno := ha.tight.empty_iff.mp hemp
    exact ⟨as, ha, fun p => ⟨fun hp => (hno p hp).elim, And.left⟩⟩
  · have hno := hb.tight.empty_iff.mp hbe
    exact ⟨as, ha, fun p => ⟨fun hp => ⟨hp, hno p⟩, And.left⟩⟩
  · exact ⟨as, ha, fun p => ⟨fun hp => ⟨hp, ha.apart hb hd hp⟩, And.left⟩⟩
  · obtain ⟨rs, hrs, hcan, hrge, hp⟩ := shapeOperation_spec .subtract ha hb
    exact ⟨rs, .of_bounds hcan hrs hrge (congrArg Shape.bounds hrs),
      fun p => by rw [hp p]; simp [Operation.holds]⟩

end

/-- Regions built from non-empty rectangles whose sides lie so close that differences fit an `int`.
-/
inductive Built (o : IntPoint) : Region → Prop
  | empty : Built o {}
  | rect (r : IntRect) (hw : 0 < r.width) (hh : 0 < r.height) (hr : FitsInt o r) :
      Built o (Region.ofRect r)
  | unite {a b : Region} (ha : Built o a) (hb : Built o b) : Built o (a.unite b)
  | intersect {a b : Region} (ha : Built o a) (hb : Built o b) : Built o (a.intersect b)
  | subtract {a b : Region} (ha : Built o a) (hb : Built o b) : Built o (a.subtract b)

/-- Every run of operations keeps the representation. -/
theorem Built.represents {r : Region} (h : Built o r) : ∃ rs, Represents o r rs := by
  induction h with
  | empty => exact ⟨[], Represents.empty⟩
  | rect r hw hh hr => exact ⟨_, Represents.ofRect hw hh hr⟩
  | unite _ _ iha ihb =>
    obtain ⟨as, ha⟩ := iha
    obtain ⟨bs, hb⟩ := ihb
    obtain ⟨rs, hrs, -⟩ := ha.unite hb
    exact ⟨rs, hrs⟩
  | intersect _ _ iha ihb =>
    obtain ⟨as, ha⟩ := iha
    obtain ⟨bs, hb⟩ := ihb
    obtain ⟨rs, hrs, -⟩ := ha.intersect hb
    exact ⟨rs, hrs⟩
  | subtract _ _ iha ihb =>
    obtain ⟨as, ha⟩ := iha
    obtain ⟨bs, hb⟩ := ihb
    obtain ⟨rs, hrs, -⟩ := ha.subtract hb
    exact ⟨rs, hrs⟩

/-- **Region algebra.** On regions built from rectangles, `unite`, `intersect` and
`subtract` are union, intersection and difference of point sets; `rects` is a
partition of the points, and `bounds` their tight bounding box. -/
theorem region_algebra {a b : Region} (ha : Built o a) (hb : Built o b) :
    (∀ p, (a.unite b).contains p = (a.contains p || b.contains p)) ∧
    (∀ p, (a.intersect b).contains p = (a.contains p && b.contains p)) ∧
    (∀ p, (a.subtract b).contains p = (a.contains p && !b.contains p)) ∧
    a.rects.Pairwise Apart ∧
    (∀ p, a.contains p = true ↔ ∃ R ∈ a.rects, R.contains p = true) ∧
    Tight a.bounds (fun p => a.contains p = true) := by
  obtain ⟨as, ha⟩ := ha.represents
  obtain ⟨bs, hb⟩ := hb.represents
  refine ⟨fun p => ?_, fun p => ?_, fun p => ?_, ha.rects_apart, fun p => ?_, ?_⟩
  · obtain ⟨rs, hrs, hp⟩ := ha.unite hb
    rw [Bool.eq_iff_iff, Bool.or_eq_true, hrs.contains_iff, ha.contains_iff, hb.contains_iff]
    exact hp p
  · obtain ⟨rs, hrs, hp⟩ := ha.intersect hb
    rw [Bool.eq_iff_iff, Bool.and_eq_true, hrs.contains_iff, ha.contains_iff, hb.contains_iff]
    exact hp p
  · obtain ⟨rs, hrs, hp⟩ := ha.subtract hb
    rw [Bool.eq_iff_iff, Bool.and_eq_true, Bool.not_eq_true', ← Bool.not_eq_true,
      hrs.contains_iff, ha.contains_iff, hb.contains_iff]
    exact hp p
  · rw [ha.contains_iff, ha.rects_iff]
  · rw [funext fun p => propext (ha.contains_iff p)]
    exact ha.tight

/-- Two overlapping squares. -/
theorem region_algebra_squares :
    (∀ p, ((ofRect ⟨0, 0, 2, 2⟩).unite (ofRect ⟨1, 1, 2, 2⟩)).contains p =
      ((ofRect ⟨0, 0, 2, 2⟩).contains p || (ofRect ⟨1, 1, 2, 2⟩).contains p)) ∧
    Tight (ofRect ⟨0, 0, 2, 2⟩).bounds (fun p => (ofRect ⟨0, 0, 2, 2⟩).contains p = true) := by
  have h := region_algebra (o := ⟨0, 0⟩)
    (Built.rect ⟨0, 0, 2, 2⟩ (by decide) (by decide) (by decide))
    (Built.rect ⟨1, 1, 2, 2⟩ (by decide) (by decide) (by decide))
  exact ⟨h.1, h.2.2.2.2.2⟩

end Region

end WebKit.Graphics
