import Mathlib.Data.List.Nodup
import WebKit.Bmalloc.SmallPages

/-!
# Counts of lines and pages

The objects of a page stand one after another, and a line has those that start in it
(`lineObjects`). `PageCounts` is what the counts have to be for the objects in use. 
-/

namespace WebKit.Bmalloc

open List Function

/-! ## The objects of a line -/

section

variable {size : Nat}

theorem divideRoundingUp_spec (numerator : Nat) {size : Nat} (hsize : 0 < size) :
    (divideRoundingUp numerator size).1 * size =
      numerator + if (divideRoundingUp numerator size).2 ≠ 0 then
        size - (divideRoundingUp numerator size).2 else 0 := by
  have hdiv := Nat.div_add_mod numerator size
  have hlt := Nat.mod_lt numerator hsize
  rw [Nat.mul_comm] at hdiv
  unfold divideRoundingUp
  dsimp only
  split
  case isTrue h =>
    rw [Nat.add_mul, Nat.one_mul]
    omega
  case isFalse h => omega

theorem startOffset_lt (hsize : 0 < size) (i : Nat) : startOffset size i < size := by
  cases i with
  | zero => exact hsize
  | succ i =>
    rw [startOffset]
    split
    · omega
    · exact hsize

/-- Where the objects of a line begin. -/
def lineStart (size lineNumber : Nat) : Nat := lineNumber * lineSize + startOffset size lineNumber

variable {i : Nat}

section

variable (hsize : 0 < size) (hmax : size ≤ lineSize)

include hsize hmax

theorem lineStart_succ (hi : i + 1 < lineCount) :
    lineStart size (i + 1) = lineStart size i + objectCount size i * size := by
  have hs := startOffset_lt hsize i
  have hsp := divideRoundingUp_spec (lineSize - startOffset size i) hsize
  have hnx : startOffset size (i + 1) =
      if (divideRoundingUp (lineSize - startOffset size i) size).2 ≠ 0 then
        size - (divideRoundingUp (lineSize - startOffset size i) size).2 else 0 := rfl
  unfold lineStart objectCount
  rw [if_pos hi, hsp, Nat.add_mul]
  omega

theorem lineStart_last :
    lineStart size (lineCount - 1) + objectCount size (lineCount - 1) * size ≤ vmPageSize := by
  have hs := startOffset_lt hsize (lineCount - 1)
  have hdiv := Nat.div_mul_le_self (lineSize - startOffset size (lineCount - 1)) size
  unfold lineStart objectCount vmPageSize
  rw [if_neg (by decide)]
  unfold lineSize lineCount at *
  omega

theorem objectCount_pos (hi : i < usableLines size) : 0 < objectCount size i := by
  have hs := startOffset_lt hsize i
  by_cases hls : i + 1 < lineCount
  · have hsp := divideRoundingUp_spec (lineSize - startOffset size i) hsize
    refine Nat.pos_iff_ne_zero.mpr fun hz => ?_
    rw [objectCount, if_pos hls] at hz
    rw [hz] at hsp
    omega
  · unfold usableLines at hi
    split at hi
    · omega
    case isFalse hne =>
      have heq : i = lineCount - 1 := by omega
      rw [heq]
      exact Nat.pos_iff_ne_zero.mpr hne

end

theorem usableLines_le (size : Nat) : usableLines size ≤ lineCount := by
  unfold usableLines
  split
  · exact Nat.sub_le _ _
  · exact Nat.le_refl _

theorem le_usableLines (size : Nat) : lineCount - 1 ≤ usableLines size := by
  unfold usableLines
  split
  · exact Nat.le_refl _
  · exact Nat.sub_le _ _

theorem dvd_lineStart (hsize : 0 < size) (hmax : size ≤ lineSize) (hi : i < lineCount) :
    size ∣ lineStart size i := by
  induction i with
  | zero => exact ⟨0, by simp [lineStart, startOffset]⟩
  | succ i ih =>
    rw [lineStart_succ hsize hmax hi]
    exact Nat.dvd_add (ih (by omega)) (Nat.dvd_mul_left _ _)

theorem line_lt_usableLines (hsize : 0 < size) (hmax : size ≤ lineSize) {o : Nat}
    (hdvd : size ∣ o) (hft : o + size ≤ vmPageSize) : o / lineSize < usableLines size := by
  have hfst := le_usableLines size
  refine Nat.lt_of_not_le fun hln => ?_
  have hls : objectCount size (lineCount - 1) = 0 := by
    unfold usableLines at hln
    split at hln
    case isTrue h => exact h
    case isFalse =>
      unfold vmPageSize lineSize lineCount at *
      omega
  rw [objectCount, if_neg (by decide), Nat.div_eq_zero_iff] at hls
  have hs := startOffset_lt hsize (lineCount - 1)
  have hdvd' : size ∣ lineStart size (lineCount - 1) :=
    dvd_lineStart hsize hmax (Nat.sub_lt (Nat.succ_pos _) Nat.one_pos)
  obtain ⟨d, hd⟩ := Nat.dvd_sub hdvd' hdvd
  have hle : lineStart size (lineCount - 1) ≤ o := by
    -- both are multiples of the size, and less than one object apart
    cases d with
    | zero => omega
    | succ d =>
      rw [Nat.mul_succ] at hd
      unfold lineStart lineSize lineCount at *
      omega
  unfold lineStart vmPageSize lineSize lineCount at *
  omega

/-- The offsets of the objects that start in a line. -/
def lineObjects (size lineNumber : Nat) : List Nat :=
  (List.range (objectCount size lineNumber)).map fun k => lineStart size lineNumber + k * size

theorem objectCount_bounds (hsize : 0 < size) (hmax : size ≤ lineSize) (hi : i < lineCount) :
    startOffset size i + objectCount size i * size < lineSize + size ∧
      lineStart size i + objectCount size i * size ≤ vmPageSize := by
  by_cases hls : i + 1 < lineCount
  · have hnx := lineStart_succ hsize hmax hls
    have hs := startOffset_lt hsize (i + 1)
    unfold vmPageSize lineStart lineSize lineCount at *
    omega
  · obtain rfl : i = lineCount - 1 := by omega
    have he := lineStart_last hsize hmax
    unfold vmPageSize lineStart lineSize lineCount at *
    omega

theorem mem_lineObjects (hsize : 0 < size) (hmax : size ≤ lineSize) {o : Nat} (hi : i < lineCount)
    (ho : o ∈ lineObjects size i) :
    o / lineSize = i ∧ size ∣ o ∧ o + size ≤ vmPageSize := by
  obtain ⟨k, hk, rfl⟩ := mem_map.mp ho
  have hle : (k + 1) * size ≤ objectCount size i * size :=
    Nat.mul_le_mul_right size (mem_range.mp hk)
  rw [Nat.add_mul, Nat.one_mul] at hle
  obtain ⟨hln, hpg⟩ := objectCount_bounds hsize hmax hi
  refine ⟨?_, Nat.dvd_add (dvd_lineStart hsize hmax hi) (Nat.dvd_mul_left _ _), by omega⟩
  unfold lineStart lineSize at *
  omega

theorem nodup_lineObjects (hsize : 0 < size) (i : Nat) : (lineObjects size i).Nodup := by
  refine List.Nodup.map ?_ nodup_range
  intro k k' h
  exact Nat.eq_of_mul_eq_mul_right hsize (Nat.add_left_cancel h)

theorem length_lineObjects (size i : Nat) : (lineObjects size i).length = objectCount size i := by
  rw [lineObjects, length_map, length_range]

end

/-! ## The counts of a page -/

theorem countP_flip {l : List Nat} (hl : l.Nodup) {i : Nat} (hi : i ∈ l) {p q : Nat → Bool}
    (hoth : ∀ j ≠ i, q j = p j) (hp : p i = false) (hq : q i = true) :
    l.countP q = l.countP p + 1 := by
  have hpr := perm_cons_erase hi
  have hsm : (l.erase i).countP q = (l.erase i).countP p := by
    refine countP_congr fun j hj => ?_
    rw [hoth j (hl.mem_erase_iff.mp hj).1]
  rw [hpr.countP_eq q, hpr.countP_eq p, countP_cons, countP_cons, hsm, hp, hq]
  rfl

/-- The counts of a page and of its lines are those of the objects that are in use. -/
structure PageCounts (size : Nat) (lineRef : Nat → Nat) (pageRef : Nat) (offsets : List Nat) :
    Prop where
  lineRef_eq : ∀ i, lineRef i = offsets.countP fun o => o / lineSize = i
  pageRef_eq : pageRef = (List.range lineCount).countP fun i => lineRef i ≠ 0
  nodup : offsets.Nodup
  dvd : ∀ o ∈ offsets, size ∣ o
  fits : ∀ o ∈ offsets, o + size ≤ vmPageSize

namespace PageCounts

variable {size : Nat} {lineRef : Nat → Nat} {pageRef : Nat} {offsets : List Nat}

theorem empty (size : Nat) : PageCounts size (fun _ => 0) 0 [] :=
  ⟨fun _ => rfl, rfl, nodup_nil, forall_mem_nil _, forall_mem_nil _⟩

theorem perm {offsets' : List Nat} (h : PageCounts size lineRef pageRef offsets)
    (hpr : offsets.Perm offsets') : PageCounts size lineRef pageRef offsets' where
  lineRef_eq i := (h.lineRef_eq i).trans (hpr.countP_eq _)
  pageRef_eq := h.pageRef_eq
  nodup := hpr.nodup_iff.mp h.nodup
  dvd o ho := h.dvd o (hpr.mem_iff.mpr ho)
  fits o ho := h.fits o (hpr.mem_iff.mpr ho)

variable {o : Nat}

theorem line_lt (h : PageCounts size lineRef pageRef offsets) (hsize : 0 < size)
    (ho : o ∈ offsets) :
    o / lineSize < lineCount := by
  have := h.fits o ho
  unfold vmPageSize lineSize lineCount at *
  omega

theorem lineRef_pos (h : PageCounts size lineRef pageRef offsets) (ho : o ∈ offsets) :
    0 < lineRef (o / lineSize) := by
  rw [h.lineRef_eq]
  exact countP_pos_iff.mpr ⟨o, ho, by simp⟩

section

variable (h : PageCounts size lineRef 0 offsets) (hsize : 0 < size)

include h hsize

theorem offsets_eq_nil : offsets = [] := by
  refine eq_nil_iff_forall_not_mem.mpr fun o ho => ?_
  have hno := countP_eq_zero.mp h.pageRef_eq.symm (o / lineSize)
    (mem_range.mpr (h.line_lt hsize ho))
  have hp := h.lineRef_pos ho
  simp at hno
  omega

theorem lineRef_eq_zero (i : Nat) : lineRef i = 0 := by
  rw [h.lineRef_eq, h.offsets_eq_nil hsize]
  rfl

theorem of_empty {size' : Nat} : PageCounts size' lineRef 0 offsets := by
  obtain rfl := h.offsets_eq_nil hsize
  exact ⟨h.lineRef_eq, h.pageRef_eq, nodup_nil, forall_mem_nil _, forall_mem_nil _⟩

end

section

variable (h : PageCounts size lineRef pageRef offsets) (hsize : 0 < size)

include h hsize

theorem pageRef_ne_zero (ho : o ∈ offsets) : pageRef ≠ 0 := by
  rintro rfl
  rw [h.offsets_eq_nil hsize] at ho
  cases ho

theorem lt_usableLines (hmax : size ≤ lineSize) {i : Nat} (hi : lineRef i ≠ 0) :
    i < usableLines size := by
  rw [h.lineRef_eq] at hi
  obtain ⟨o, ho, hln⟩ := countP_pos_iff.mp (Nat.pos_iff_ne_zero.mpr hi)
  rw [← of_decide_eq_true hln]
  exact line_lt_usableLines hsize hmax (h.dvd o ho) (h.fits o ho)

theorem pageRef_eq_usableLines (hmax : size ≤ lineSize) :
    pageRef = usableLines size ↔ ∀ i < usableLines size, lineRef i ≠ 0 := by
  obtain ⟨k, hk⟩ := Nat.exists_eq_add_of_le (usableLines_le size)
  have hrest : (List.range' (usableLines size) k).countP (fun i => lineRef i ≠ 0) = 0 := by
    refine countP_eq_zero.mpr fun i hi hne => ?_
    have hlt := h.lt_usableLines hsize hmax (of_decide_eq_true hne)
    exact absurd (mem_range'_1.mp hi).1 (Nat.not_le.mpr hlt)
  have heq : pageRef = (List.range (usableLines size)).countP fun i => lineRef i ≠ 0 := by
    rw [h.pageRef_eq, hk, range_eq_range', ← range'_append_1, countP_append,
      Nat.zero_add, hrest, range_eq_range']
    rfl
  rw [heq]
  constructor
  · intro ha i hi
    have hl : (List.range (usableLines size)).countP (fun i => lineRef i ≠ 0) =
        (List.range (usableLines size)).length := ha.trans length_range.symm
    exact of_decide_eq_true (countP_eq_length.mp hl i (mem_range.mpr hi))
  · intro ha
    refine (countP_eq_length.mpr fun i hi => ?_).trans length_range
    exact decide_eq_true (ha i (mem_range.mp hi))

theorem ref (hmax : size ≤ lineSize) {i : Nat} (hi : i < usableLines size) (hfr : lineRef i = 0) :
    PageCounts size (update lineRef i (objectCount size i)) (pageRef + 1)
      (offsets ++ lineObjects size i) := by
  have hln : i < lineCount := Nat.lt_of_lt_of_le hi (usableLines_le size)
  have hp := objectCount_pos hsize hmax hi
  have hm : ∀ o ∈ lineObjects size i, o / lineSize = i ∧ size ∣ o ∧ o + size ≤ vmPageSize :=
    fun o ho => mem_lineObjects hsize hmax hln ho
  have hnn : ∀ o ∈ offsets, o / lineSize ≠ i := by
    intro o ho heq
    have := h.lineRef_pos ho
    rw [heq] at this
    omega
  refine ⟨?_, ?_, ?_, ?_, ?_⟩
  · intro j
    rw [countP_append, ← h.lineRef_eq]
    by_cases hj : j = i
    · subst hj
      have ha : (lineObjects size j).countP (fun o => o / lineSize = j) =
          (lineObjects size j).length :=
        countP_eq_length.mpr fun o ho => by simpa using (hm o ho).1
      rw [update_self, hfr, ha, length_lineObjects, Nat.zero_add]
    · have hno : (lineObjects size i).countP (fun o => o / lineSize = j) = 0 :=
        countP_eq_zero.mpr fun o ho => by
          rw [(hm o ho).1]
          simpa using fun h => hj h.symm
      rw [update_of_ne hj, hno, Nat.add_zero]
  · rw [h.pageRef_eq]
    refine (countP_flip nodup_range (mem_range.mpr hln) ?_ ?_ ?_).symm
    · intro j hj
      rw [update_of_ne hj]
    · simp [hfr]
    · simp
      omega
  · rw [nodup_append]
    refine ⟨h.nodup, nodup_lineObjects hsize i, ?_⟩
    intro o ho o' ho' heq
    exact hnn o ho (heq ▸ (hm o' ho').1)
  · exact forall_mem_append.mpr ⟨h.dvd, fun o ho => (hm o ho).2.1⟩
  · exact forall_mem_append.mpr ⟨h.fits, fun o ho => (hm o ho).2.2⟩

end

theorem free (h : PageCounts size lineRef pageRef (o :: offsets)) (hsize : 0 < size) :
    PageCounts size
      (update lineRef (o / lineSize) (lineRef (o / lineSize) - 1))
      (if lineRef (o / lineSize) - 1 = 0 then pageRef - 1 else pageRef) offsets := by
  have hp := h.lineRef_pos mem_cons_self
  have hln := h.line_lt hsize mem_cons_self
  refine ⟨?_, ?_, (nodup_cons.mp h.nodup).2,
    (forall_mem_cons.mp h.dvd).2,
    (forall_mem_cons.mp h.fits).2⟩
  · intro i
    have heq := h.lineRef_eq i
    by_cases hi : i = o / lineSize
    · rw [hi] at heq ⊢
      rw [update_self, heq]
      simp
    · have hne : ¬ o / lineSize = i := fun h => hi h.symm
      rw [update_of_ne hi, heq]
      simp [hne]
  · by_cases hls : lineRef (o / lineSize) - 1 = 0
    · have hfl := countP_flip (p := fun i => update lineRef (o / lineSize)
          (lineRef (o / lineSize) - 1) i ≠ 0) (q := fun i => lineRef i ≠ 0)
        nodup_range (mem_range.mpr hln)
        (fun i hi => by rw [update_of_ne hi]) (by simpa using hls)
        (by simpa using Nat.pos_iff_ne_zero.mp hp)
      rw [if_pos hls, h.pageRef_eq, hfl, Nat.add_sub_cancel]
    · rw [if_neg hls, h.pageRef_eq]
      refine countP_congr fun i _ => ?_
      by_cases hi : i = o / lineSize
      · rw [hi, update_self]
        simp
        omega
      · rw [update_of_ne hi]

end PageCounts

/-! ## The scan of a page -/

/-- The offsets of the objects of a range. -/
def BumpRange.offsets (r : BumpRange) : List Nat :=
  (List.range r.objectCount).map fun k => r.begin + k * r.size

theorem offsets_beginRange (page : PageId) (size i : Nat) :
    (Scan.beginRange page size i).offsets = lineObjects size i := rfl

theorem offsets_extendRange {r : BumpRange} {i : Nat}
    (h : r.begin + r.objectCount * r.size = lineStart r.size i) :
    (Scan.extendRange r i).offsets = r.offsets ++ lineObjects r.size i := by
  unfold BumpRange.offsets lineObjects Scan.extendRange
  rw [range_add, map_append, map_map]
  refine congrArg _ (map_congr_left fun k _ => ?_)
  show r.begin + (r.objectCount + k) * r.size = _
  rw [Nat.add_mul, ← Nat.add_assoc, h]

namespace Scan

variable {page : PageId} {size : Nat}

/-- The range of the inner loop ends where the objects of the next line begin. -/
def EndsAt (page : PageId) (size lineNumber : Nat) (r : BumpRange) : Prop :=
  r.page = page ∧ r.size = size ∧
    (lineNumber < lineCount → r.begin + r.objectCount * size = lineStart size lineNumber)

/-- The offsets of the ranges, with the range of the inner loop. -/
def offsets (s : Scan) (current : Option BumpRange) : List Nat :=
  s.ranges.flatMap BumpRange.offsets ++ current.elim [] BumpRange.offsets

theorem offsets_push (s : Scan) (r : BumpRange) : (s.push r).offsets none = s.offsets (some r) := by
  simp [offsets, push]

theorem endsAt_beginRange (hsize : 0 < size) (hmax : size ≤ lineSize) (i : Nat) :
    EndsAt page size (i + 1) (beginRange page size i) :=
  ⟨rfl, rfl, fun hi => (lineStart_succ hsize hmax hi).symm⟩

theorem endsAt_extendRange (hsize : 0 < size) (hmax : size ≤ lineSize) {i : Nat} {r : BumpRange}
    (hi : i < lineCount) (h : EndsAt page size i r) :
    EndsAt page size (i + 1) (extendRange r i) := by
  obtain ⟨hpg, hrs, he⟩ := h
  refine ⟨hpg, hrs, fun hi' => ?_⟩
  show r.begin + (r.objectCount + objectCount r.size i) * size = _
  rw [lineStart_succ hsize hmax hi', ← he hi, hrs, Nat.add_mul, Nat.add_assoc]

variable {current : Option BumpRange} {s : Scan} {l : List Nat}

/-- **The scan.** It takes all objects of the lines into use that it puts into ranges. -/
theorem counts_lines (hsize : 0 < size) (hmax : size ≤ lineSize) {ots : List Nat} (k : Nat)
    {i : Nat} (hk : i + k ≤ usableLines size) (hc : ∀ r ∈ current, EndsAt page size i r)
    (hrgs : ∀ r ∈ s.ranges, r.page = page ∧ r.size = size)
    (h : PageCounts size s.lineRef s.pageRef (ots ++ s.offsets current)) :
    PageCounts size (lines page size (List.range' i k) current s).lineRef
        (lines page size (List.range' i k) current s).pageRef
        (ots ++ (lines page size (List.range' i k) current s).offsets none) ∧
      ∀ r ∈ (lines page size (List.range' i k) current s).ranges,
        r.page = page ∧ r.size = size := by
  induction k generalizing i current s with
  | zero =>
    cases current with
    | none => exact ⟨h, hrgs⟩
    | some r =>
      refine ⟨(s.offsets_push r).symm ▸ h, fun r' hr' => ?_⟩
      rcases mem_append.mp hr' with hr' | hr'
      · exact hrgs r' hr'
      · obtain rfl := mem_singleton.mp hr'
        exact ⟨(hc r' rfl).1, (hc r' rfl).2.1⟩
  | succ k ih =>
    have hi : i < usableLines size := by omega
    have hln : i < lineCount := Nat.lt_of_lt_of_le hi (usableLines_le size)
    rw [range'_succ]
    cases current with
    | none =>
      rw [lines]
      split
      · exact ih (by omega) nofun hrgs h
      case isFalse hfr =>
        split
        · exact ⟨h, hrgs⟩
        have hnx := h.ref hsize hmax hi (not_not.mp hfr)
        refine ih (by omega) ?_ hrgs ?_
        · intro r hr
          exact Option.some.inj hr ▸ endsAt_beginRange hsize hmax i
        · simpa [offsets, ref, offsets_beginRange] using hnx
    | some r =>
      obtain ⟨hpg, hrs, he⟩ := hc r rfl
      rw [lines]
      split
      · refine ih (by omega) nofun ?_ ((s.offsets_push r).symm ▸ h)
        exact forall_mem_append.mpr ⟨hrgs, forall_mem_singleton.mpr ⟨hpg, hrs⟩⟩
      case isFalse hfr =>
        have hnx := h.ref hsize hmax hi (not_not.mp hfr)
        have hext := offsets_extendRange (r := r) (i := i) (hrs ▸ he hln)
        rw [hrs] at hext
        refine ih (by omega) ?_ hrgs ?_
        · intro r' hr'
          exact Option.some.inj hr' ▸ endsAt_extendRange hsize hmax hln ⟨hpg, hrs, he⟩
        · simpa [offsets, ref, hext] using hnx

theorem lineRef_ref_ne_zero {i j count : Nat} (hcount : 0 < count) (h : j = i ∨ s.lineRef j ≠ 0) :
    (s.ref i count).lineRef j ≠ 0 := by
  show update s.lineRef i count j ≠ 0
  by_cases hj : j = i
  · rw [hj, update_self]
    exact Nat.pos_iff_ne_zero.mp hcount
  · rw [update_of_ne hj]
    exact h.resolve_left hj

theorem lineRef_lines_ne_zero (hl : ∀ j ∈ l, 0 < objectCount size j) {j : Nat}
    (h : s.lineRef j ≠ 0) :
    (lines page size l current s).lineRef j ≠ 0 := by
  fun_induction lines page size l current s with
  | case1 | case2 | case4 => exact h
  | case3 _ _ _ _ ih | case6 _ _ _ _ _ ih => exact ih (forall_mem_cons.mp hl).2 h
  | case5 _ _ _ _ _ ih | case7 _ _ _ _ _ ih =>
    obtain ⟨hi, hrest⟩ := forall_mem_cons.mp hl
    exact ih hrest (lineRef_ref_ne_zero hi (.inr h))

theorem filled_lines (hl : ∀ j ∈ l, 0 < objectCount size j) (current : Option BumpRange)
    (h : s.overflow = false) :
    ((lines page size l current s).overflow = false →
        ∀ j ∈ l, (lines page size l current s).lineRef j ≠ 0) ∧
      ((lines page size l current s).overflow = true →
        ∃ j ∈ l, (lines page size l current s).lineRef j = 0) := by
  have hno : ∀ {s : Scan} {p : Prop}, s.overflow = false → s.overflow = true → p := fun h h' =>
    absurd (h.symm.trans h') Bool.false_ne_true
  -- the scan of the rest leaves this line in use
  have hnx : ∀ {i rest} {s : Scan}, s.lineRef i ≠ 0 →
      ((s.overflow = false → ∀ j ∈ rest, s.lineRef j ≠ 0) ∧
        (s.overflow = true → ∃ j ∈ rest, s.lineRef j = 0)) →
      (s.overflow = false → ∀ j ∈ i :: rest, s.lineRef j ≠ 0) ∧
        (s.overflow = true → ∃ j ∈ i :: rest, s.lineRef j = 0) := fun hi h =>
    ⟨fun hs => forall_mem_cons.mpr ⟨hi, h.1 hs⟩,
      fun hs => (h.2 hs).imp fun _ hj => hj.imp_left (mem_cons_of_mem _)⟩
  fun_induction lines page size l current s with
  | case1 | case2 => exact ⟨nofun, hno h⟩
  | case3 _ _ _ hi ih | case6 _ _ _ _ hi ih =>
    have hrest := (forall_mem_cons.mp hl).2
    exact hnx (lineRef_lines_ne_zero hrest hi) (ih hrest h)
  | case4 i rest s hi => exact ⟨nofun, fun _ => ⟨i, mem_cons_self, not_not.mp hi⟩⟩
  | case5 _ _ _ _ _ ih | case7 _ _ _ _ _ ih =>
    obtain ⟨hi, hrest⟩ := forall_mem_cons.mp hl
    exact hnx (lineRef_lines_ne_zero hrest (lineRef_ref_ne_zero hi (.inl rfl))) (ih hrest h)

theorem length_ranges_lines (page : PageId) (size : Nat) (l : List Nat)
    (current : Option BumpRange) (s : Scan) :
    s.ranges.length + current.toList.length ≤ (lines page size l current s).ranges.length := by
  fun_induction lines page size l current s with
  | case1 | case4 => exact Nat.le_refl _
  | case2 => simp [push]
  | case3 _ _ _ _ ih | case7 _ _ _ _ _ ih => exact ih
  | case5 _ _ _ _ _ ih => exact Nat.le_trans (Nat.le_succ _) ih
  | case6 _ _ _ _ _ ih => simpa [push] using ih

theorem objectCount_ranges_lines (hl : ∀ j ∈ l, 0 < objectCount size j)
    (hc : ∀ r ∈ current, r.objectCount ≠ 0) (hrgs : ∀ r ∈ s.ranges, r.objectCount ≠ 0) :
    ∀ r ∈ (lines page size l current s).ranges, r.objectCount ≠ 0 := by
  have hps : ∀ {s : Scan} {r : BumpRange}, (∀ r' ∈ s.ranges, r'.objectCount ≠ 0) →
      r.objectCount ≠ 0 → ∀ r' ∈ (s.push r).ranges, r'.objectCount ≠ 0 := fun hs hr =>
    forall_mem_append.mpr ⟨hs, forall_mem_singleton.mpr hr⟩
  fun_induction lines page size l current s with
  | case1 | case4 => exact hrgs
  | case2 r => exact hps hrgs (hc r rfl)
  | case3 _ _ _ _ ih => exact ih (forall_mem_cons.mp hl).2 hc hrgs
  | case5 _ _ _ _ _ ih =>
    obtain ⟨hi, hrest⟩ := forall_mem_cons.mp hl
    refine ih hrest (fun r hr => ?_) hrgs
    exact Option.some.inj hr ▸ Nat.pos_iff_ne_zero.mp hi
  | case6 _ _ r _ _ ih => exact ih (forall_mem_cons.mp hl).2 nofun (hps hrgs (hc r rfl))
  | case7 _ _ r _ _ ih =>
    refine ih (forall_mem_cons.mp hl).2 (fun r' hr' => ?_) hrgs
    cases hr'
    exact fun hz => hc r rfl (Nat.eq_zero_of_add_eq_zero_right hz)

theorem ranges_lines_ne_nil (hs : s.ranges = []) {j : Nat} (hj : j ∈ l) (hfr : s.lineRef j = 0) :
    (lines page size l none s).ranges ≠ [] := by
  induction l with
  | nil => cases hj
  | cons i rest ih =>
    rw [lines]
    split
    case isTrue hi =>
      exact ih ((mem_cons.mp hj).resolve_left (fun h => hi (h ▸ hfr)))
    case isFalse hi =>
      rw [if_neg (by simp [cacheSize, hs, bumpRangeCacheCapacity])]
      have hl := length_ranges_lines page size rest (some (beginRange page size i))
        (s.ref i (objectCount size i))
      intro hnil
      rw [hnil] at hl
      cases hl

end Scan

end WebKit.Bmalloc
