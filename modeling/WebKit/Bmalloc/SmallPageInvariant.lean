import WebKit.Bmalloc.SmallPageCounts

/-!
# Pages and objects of the small heap

Every step keeps that the counts are those of the objects in use (`Heap.Inv.step`). A list may have
entries of pages that were promoted since, but an entry of a page in use in its size class has a
free line, and is the only one.
-/

namespace WebKit.Bmalloc

open List Function BumpRange

theorem objectSize_pos (c : Nat) : 0 < objectSize c := Nat.succ_mul_pos c (by decide)

theorem objectSize_le {c : Nat} (h : c < sizeClassCount) : objectSize c ≤ lineSize := by
  unfold objectSize sizeClassCount lineSize at *
  omega

/-! ## Objects of a page -/

/-- The offsets of the objects in a page. -/
def offsetsOn (page : PageId) (objects : List Object) : List Nat :=
  objects.filterMap fun o => if o.page = page then some o.offset else none

theorem offsetsOn_append (page : PageId) (l l' : List Object) :
    offsetsOn page (l ++ l') = offsetsOn page l ++ offsetsOn page l' := filterMap_append

variable {l : List Object} {page : PageId}

theorem offsetsOn_perm {l' : List Object} (h : l.Perm l') (page : PageId) :
    (offsetsOn page l).Perm (offsetsOn page l') := h.filterMap _

theorem offsetsOn_cons_self (o : Object) (l : List Object) :
    offsetsOn o.page (o :: l) = o.offset :: offsetsOn o.page l := by
  simp [offsetsOn]

variable {o : Object}

theorem offsetsOn_cons_of_ne (h : o.page ≠ page) (l : List Object) :
    offsetsOn page (o :: l) = offsetsOn page l := by
  simp [offsetsOn, h]

theorem mem_offsetsOn {x : Nat} (h : (⟨page, x⟩ : Object) ∈ l) : x ∈ offsetsOn page l :=
  mem_filterMap.mpr ⟨_, h, if_pos rfl⟩

theorem offsetsOn_range (r : BumpRange) : offsetsOn r.page r.objects = r.offsets := by
  simp [offsetsOn, objects, offsets, filterMap_map]

theorem offsetsOn_range_of_ne {r : BumpRange} (h : r.page ≠ page) :
    offsetsOn page r.objects = [] := by
  simp [offsetsOn, objects, filterMap_map, h]

variable {rgs : List BumpRange}

theorem offsetsOn_ranges (h : ∀ r ∈ rgs, r.page = page) :
    offsetsOn page (rgs.flatMap objects) = rgs.flatMap offsets := by
  induction rgs with
  | nil => rfl
  | cons r rest ih =>
    have hr : r.page = page := h r mem_cons_self
    rw [flatMap_cons, flatMap_cons, offsetsOn_append,
      ih (forall_mem_cons.mp h).2, ← hr, offsetsOn_range]

theorem offsetsOn_ranges_of_ne (h : ∀ r ∈ rgs, r.page ≠ page) :
    offsetsOn page (rgs.flatMap objects) = [] := by
  induction rgs with
  | nil => rfl
  | cons r rest ih =>
    rw [flatMap_cons, offsetsOn_append,
      ih (forall_mem_cons.mp h).2,
      offsetsOn_range_of_ne (h r mem_cons_self)]
    rfl

theorem nodup_of_offsetsOn (h : ∀ page, (offsetsOn page l).Nodup) : l.Nodup := by
  induction l with
  | nil => exact nodup_nil
  | cons o rest ih =>
    have hsf := h o.page
    rw [offsetsOn_cons_self] at hsf
    obtain ⟨hn, hrest⟩ := nodup_cons.mp hsf
    refine nodup_cons.mpr ⟨fun ho => hn (mem_offsetsOn ho), ih fun page => ?_⟩
    by_cases hpg : o.page = page
    · exact hpg ▸ hrest
    · have := h page
      rwa [offsetsOn_cons_of_ne hpg] at this

/-! ## The invariant -/

namespace Heap

/-- All objects in use: those that were handed out and those of the ranges. -/
def objects (h : Heap) : List Object := h.live ++ h.ranges.flatMap BumpRange.objects

/-- The pages without objects. -/
def pool (h : Heap) : List PageId := h.smallPages ++ (h.vmPages ++ h.releasing)

/-- A line of a page can hold an object and is free. -/
def HasFreeLine (h : Heap) (page : PageId) : Prop :=
  ∃ i < usableLines (objectSize (h.pageClass page)), h.lineRef page i = 0

structure Inv (h : Heap) : Prop where
  class_lt : ∀ page, h.pageClass page < sizeClassCount
  counts : ∀ page, PageCounts (objectSize (h.pageClass page)) (h.lineRef page) (h.pageRef page)
    (offsetsOn page h.objects)
  sizes : ∀ r ∈ h.ranges, r.objectCount ≠ 0 → r.size = objectSize (h.pageClass r.page)
  pool_nodup : h.pool.Nodup
  pool_known : ∀ page ∈ h.pool, page ∈ h.pages
  pool_empty : ∀ page ∈ h.pool, h.pageRef page = 0
  unknown_empty : ∀ page, page ∉ h.pages → h.pageRef page = 0
  -- an entry of a list that was not promoted has a free line, and is the only one of its page
  listed : ∀ page ∈ h.smallPagesWithFreeLines (h.pageClass page), h.pageRef page ≠ 0 →
    h.HasFreeLine page ∧ (h.smallPagesWithFreeLines (h.pageClass page)).count page = 1

section

variable {h h' : Heap} {page : PageId} {c : Nat}

theorem inv_initial : Heap.initial.Inv where
  class_lt _ := Nat.zero_lt_succ 31
  counts _ := PageCounts.empty _
  sizes := nofun
  pool_nodup := nodup_nil
  pool_known := nofun
  pool_empty := nofun
  unknown_empty _ _ := rfl
  listed := nofun

/-! ## The scavenger -/

theorem Inv.of_pool (hinv : h.Inv) {smallPages vmPages releasing pages : List PageId}
    (hnd : (smallPages ++ (vmPages ++ releasing)).Nodup)
    (hknw : ∀ page ∈ smallPages ++ (vmPages ++ releasing), page ∈ pages)
    (hemp : ∀ page ∈ smallPages ++ (vmPages ++ releasing), h.pageRef page = 0)
    (hpgs : ∀ page ∈ h.pages, page ∈ pages) :
    Inv { h with
      smallPages := smallPages, vmPages := vmPages, releasing := releasing, pages := pages } where
  class_lt := hinv.class_lt
  counts := hinv.counts
  sizes := hinv.sizes
  pool_nodup := hnd
  pool_known := hknw
  pool_empty := hemp
  unknown_empty page hp := hinv.unknown_empty page (fun hm => hp (hpgs page hm))
  listed := hinv.listed

variable {fresh : List PageId}

theorem Inv.grow (hinv : h.Inv) (hgr : h.grow fresh = some h') : h'.Inv := by
  revert hgr
  fun_cases Heap.grow h fresh <;> rintro ⟨⟩
  case case1 hfre =>
  obtain ⟨_, hnd, hnew⟩ := hfre
  have hpr : (h.smallPages ++ (fresh ++ h.vmPages ++ h.releasing)).Perm (fresh ++ h.pool) := by
    rw [append_assoc]
    exact perm_append_comm_assoc _ _ _
  refine hinv.of_pool (hpr.nodup_iff.mpr ?_) ?_ ?_ (fun p hp => mem_append_right _ hp)
  · rw [nodup_append]
    refine ⟨hnd, hinv.pool_nodup, ?_⟩
    intro p hp q hq heq
    exact hnew p hp (heq ▸ hinv.pool_known q hq)
  · intro p hp
    exact mem_append.mpr ((mem_append.mp (hpr.mem_iff.mp hp)).imp_right (hinv.pool_known p))
  · intro p hp
    exact (mem_append.mp (hpr.mem_iff.mp hp)).elim (fun hp => hinv.unknown_empty p (hnew p hp))
      (hinv.pool_empty p)

theorem Inv.of_pool_perm (hinv : h.Inv) {smallPages vmPages releasing : List PageId}
    (hpr : (smallPages ++ (vmPages ++ releasing)).Perm h.pool) :
    Inv { h with smallPages := smallPages, vmPages := vmPages, releasing := releasing } :=
  hinv.of_pool (hpr.nodup_iff.mpr hinv.pool_nodup)
    (fun p hp => hinv.pool_known p (hpr.mem_iff.mp hp))
    (fun p hp => hinv.pool_empty p (hpr.mem_iff.mp hp)) (fun _ hp => hp)

theorem Inv.scavengeBegin (hinv : h.Inv) (hst : h.step .scavengeBegin = some h') : h'.Inv := by
  dsimp only [Heap.step] at hst
  split at hst <;> cases hst
  case h_2 page rest hpgs =>
    refine hinv.of_pool_perm ?_
    rw [pool, hpgs, ← append_assoc, ← append_assoc]
    exact perm_middle

theorem Inv.scavengeEnd (hinv : h.Inv) (hst : h.step (.scavengeEnd page) = some h') : h'.Inv := by
  dsimp only [Heap.step] at hst
  split at hst <;> cases hst
  case isTrue hm =>
    have hvm := List.perm_middle.symm.trans ((perm_cons_erase hm).symm.append_left h.vmPages)
    exact hinv.of_pool_perm (hvm.append_left h.smallPages)

/-! ## Handing out objects -/

theorem objects_tail {r : BumpRange} (hr : r.objectCount ≠ 0) :
    r.objects = ⟨r.page, r.begin⟩ :: BumpRange.objects
      { r with begin := r.begin + r.size, objectCount := r.objectCount - 1 } := by
  obtain ⟨n, hn⟩ := Nat.exists_eq_succ_of_ne_zero hr
  unfold BumpRange.objects
  rw [hn, range_succ_eq_map, map_cons, map_map, Nat.succ_sub_one]
  congr 1
  · rw [Nat.zero_mul, Nat.add_zero]
  · refine map_congr_left fun k _ => ?_
    show (⟨r.page, r.begin + (k + 1) * r.size⟩ : Object) = ⟨r.page, r.begin + r.size + k * r.size⟩
    rw [Nat.add_mul, Nat.one_mul, Nat.add_comm (k * r.size), Nat.add_assoc]

theorem perm_flatMap_set {i : Nat} {r r' : BumpRange}
    (hi : rgs[i]? = some r) (hr : r.objects = o :: r'.objects) :
    (rgs.flatMap BumpRange.objects).Perm (o :: (rgs.set i r').flatMap BumpRange.objects) := by
  induction rgs generalizing i with
  | nil => cases hi
  | cons r₀ rest ih =>
    cases i with
    | zero =>
      cases hi
      rw [flatMap_cons, hr]
      exact List.Perm.refl _
    | succ i =>
      exact ((ih hi).append_left _).trans perm_middle

theorem Inv.of_objects_perm (hinv : h.Inv) {ranges : List BumpRange} {live : List Object}
    (hpr : h.objects.Perm (live ++ ranges.flatMap BumpRange.objects))
    (hsz : ∀ r ∈ ranges, r.objectCount ≠ 0 → r.size = objectSize (h.pageClass r.page)) :
    Inv { h with ranges := ranges, live := live } where
  class_lt := hinv.class_lt
  counts page := (hinv.counts page).perm (offsetsOn_perm hpr page)
  sizes := hsz
  pool_nodup := hinv.pool_nodup
  pool_known := hinv.pool_known
  pool_empty := hinv.pool_empty
  unknown_empty := hinv.unknown_empty
  listed := hinv.listed

theorem Inv.handOut {rng : Nat} (hinv : h.Inv) (hst : h.handOut rng = some h') : h'.Inv := by
  revert hst
  fun_cases Heap.handOut h rng <;> rintro ⟨⟩
  case case3 r hr hc =>
    refine hinv.of_objects_perm ?_ ?_
    · have hpr := perm_flatMap_set hr (objects_tail hc)
      exact (hpr.append_left h.live).trans perm_middle
    · intro r' hr' hc'
      rcases mem_or_eq_of_mem_set hr' with hr' | rfl
      · exact hinv.sizes r' hr' hc'
      · exact hinv.sizes r (mem_of_getElem? hr) hc

/-! ## Frees -/

def pageRefAfterFree (h : Heap) (o : Object) : Nat :=
  if h.lineRef o.page o.line - 1 = 0 then h.pageRef o.page - 1 else h.pageRef o.page

/-- The heap after a free, with the lists of pages that the free leads to. -/
def freed (h : Heap) (o : Object) (lists : Nat → List PageId) (smallPages : List PageId) : Heap :=
  { h with
    live := h.live.erase o
    lineRef := Function.update h.lineRef o.page
      (Function.update (h.lineRef o.page) o.line (h.lineRef o.page o.line - 1))
    pageRef := Function.update h.pageRef o.page (h.pageRefAfterFree o)
    smallPagesWithFreeLines := lists
    smallPages := smallPages }

/-- The list of the page's size class, with the page. -/
def listsWith (h : Heap) (page : PageId) : Nat → List PageId :=
  Function.update h.smallPagesWithFreeLines (h.pageClass page)
    (page :: h.smallPagesWithFreeLines (h.pageClass page))

theorem step_free (hst : h.step (.free o) = some h') :
    o ∈ h.live ∧
      ((h.lineRef o.page o.line - 1 ≠ 0 ∧
          h' = h.freed o h.smallPagesWithFreeLines h.smallPages) ∨
        (h.lineRef o.page o.line - 1 = 0 ∧ h.pageRef o.page = lineCount ∧
          h' = h.freed o (h.listsWith o.page) h.smallPages) ∨
        (h.lineRef o.page o.line - 1 = 0 ∧ h.pageRef o.page = 1 ∧
          h' = h.freed o h.smallPagesWithFreeLines (o.page :: h.smallPages)) ∨
        (h.lineRef o.page o.line - 1 = 0 ∧ h.pageRef o.page ≠ lineCount ∧ h.pageRef o.page ≠ 1 ∧
          h' = h.freed o h.smallPagesWithFreeLines h.smallPages)) := by
  unfold step at hst
  dsimp only at hst
  split at hst
  case isFalse => cases hst
  case isTrue ho =>
    refine ⟨ho, ?_⟩
    cases hst
    have hc : update h.lineRef o.page (update (h.lineRef o.page) o.line
        (h.lineRef o.page o.line - 1)) o.page o.line = h.lineRef o.page o.line - 1 := by
      rw [update_self, update_self]
    unfold derefSmallLine derefLine freed pageRefAfterFree
    by_cases hln : h.lineRef o.page o.line - 1 = 0
    · dsimp only
      rw [if_pos (hc.trans hln), if_pos hln]
      unfold deallocateSmallLine
      dsimp only
      split
      case isTrue hfl => exact .inr (.inl ⟨hln, hfl, rfl⟩)
      case isFalse hfl =>
        split
        case isTrue hone => exact .inr (.inr (.inl ⟨hln, hone, rfl⟩))
        case isFalse hone => exact .inr (.inr (.inr ⟨hln, hfl, hone, rfl⟩))
    · dsimp only
      rw [if_neg (fun heq => hln (hc.symm.trans heq)), if_neg hln, update_eq_self]
      exact .inl ⟨hln, rfl⟩

section

variable {o : Object} {lists : Nat → List PageId} {smallPages : List PageId}

theorem freed_pageRef_of_ne (hp : page ≠ o.page) :
    (h.freed o lists smallPages).pageRef page = h.pageRef page := update_of_ne hp _ _

theorem freed_pageRef_self :
    (h.freed o lists smallPages).pageRef o.page = h.pageRefAfterFree o := update_self _ _ _

theorem freed_lineRef_of_ne {i : Nat} (hp : page ≠ o.page ∨ i ≠ o.line) :
    (h.freed o lists smallPages).lineRef page i = h.lineRef page i := by
  show update h.lineRef o.page _ page i = _
  by_cases hpg : page = o.page
  · subst hpg
    rw [update_self, update_of_ne (hp.resolve_left (fun hne => hne rfl))]
  · rw [update_of_ne hpg]

theorem freed_lineRef_self :
    (h.freed o lists smallPages).lineRef o.page o.line = h.lineRef o.page o.line - 1 := by
  show update h.lineRef o.page _ o.page o.line = _
  rw [update_self, update_self]

theorem HasFreeLine.freed (hfr : h.HasFreeLine page) :
    (h.freed o lists smallPages).HasFreeLine page := by
  obtain ⟨i, hi, hz⟩ := hfr
  refine ⟨i, hi, ?_⟩
  by_cases hne : page ≠ o.page ∨ i ≠ o.line
  · rwa [freed_lineRef_of_ne hne]
  · obtain ⟨rfl, rfl⟩ := not_or.mp hne |>.imp not_not.mp not_not.mp
    rw [freed_lineRef_self, hz]

theorem hasFreeLine_of_freed (hfr : (h.freed o lists smallPages).HasFreeLine page)
    (hne : page ≠ o.page ∨ h.lineRef o.page o.line - 1 ≠ 0) : h.HasFreeLine page := by
  obtain ⟨i, hi, hz⟩ := hfr
  refine ⟨i, hi, ?_⟩
  by_cases hln : page ≠ o.page ∨ i ≠ o.line
  · rwa [freed_lineRef_of_ne hln] at hz
  · obtain ⟨rfl, rfl⟩ := not_or.mp hln |>.imp not_not.mp not_not.mp
    rw [freed_lineRef_self] at hz
    exact absurd hz (hne.resolve_left (fun hne => hne rfl))

theorem mem_offsetsOn_live (ho : o ∈ h.live) : o.offset ∈ offsetsOn o.page h.objects :=
  mem_offsetsOn (mem_append_left _ ho)

section

variable (hinv : h.Inv)

include hinv

theorem Inv.pageRef_ne_zero (ho : o ∈ h.live) : h.pageRef o.page ≠ 0 :=
  (hinv.counts o.page).pageRef_ne_zero (objectSize_pos _) (mem_offsetsOn_live ho)

theorem hasFreeLine_freed (ho : o ∈ h.live) (hln : h.lineRef o.page o.line - 1 = 0) :
    (h.freed o lists smallPages).HasFreeLine o.page := by
  have hcts := hinv.counts o.page
  have hm := mem_offsetsOn_live ho
  refine ⟨o.line, ?_, freed_lineRef_self.trans hln⟩
  exact line_lt_usableLines (objectSize_pos _) (objectSize_le (hinv.class_lt _))
    (hcts.dvd _ hm) (hcts.fits _ hm)

theorem Inv.not_hasFreeLine :
    ¬ h.HasFreeLine page ↔ h.pageRef page = usableLines (objectSize (h.pageClass page)) := by
  rw [(hinv.counts page).pageRef_eq_usableLines (objectSize_pos _)
    (objectSize_le (hinv.class_lt _))]
  unfold HasFreeLine
  simp

theorem Inv.not_listed (hfl : ¬ h.HasFreeLine page) (hne : h.pageRef page ≠ 0) :
    page ∉ h.smallPagesWithFreeLines (h.pageClass page) :=
  fun hm => hfl (hinv.listed page hm hne).1

theorem Inv.counts_freed (ho : o ∈ h.live) (page : PageId) :
    PageCounts (objectSize (h.pageClass page)) ((h.freed o lists smallPages).lineRef page)
      ((h.freed o lists smallPages).pageRef page)
      (offsetsOn page (h.freed o lists smallPages).objects) := by
  have hpr : h.objects.Perm (o :: (h.live.erase o ++ h.ranges.flatMap BumpRange.objects)) :=
    (perm_cons_erase ho).append_right _
  have hcts := (hinv.counts page).perm (offsetsOn_perm hpr page)
  unfold freed
  dsimp only
  by_cases hpg : o.page = page
  · subst hpg
    rw [offsetsOn_cons_self] at hcts
    rw [update_self, update_self]
    exact hcts.free (objectSize_pos _)
  · rw [offsetsOn_cons_of_ne hpg] at hcts
    rw [update_of_ne (fun heq => hpg heq.symm), update_of_ne (fun heq => hpg heq.symm)]
    exact hcts

theorem Inv.freed (ho : o ∈ h.live) (hpl : smallPages = h.smallPages ∨ smallPages = o.page ::
      h.smallPages ∧ h.pageRefAfterFree o = 0) (hoth : ∀ c, ∀ page ≠ o.page, (lists c).count
      page = (h.smallPagesWithFreeLines c).count page)
    (hsf : o.page ∈ lists (h.pageClass o.page) → h.pageRefAfterFree o ≠ 0 → (h.freed o lists
      smallPages).HasFreeLine o.page ∧ (lists (h.pageClass o.page)).count o.page = 1) :
    (h.freed o lists smallPages).Inv where
  class_lt := hinv.class_lt
  counts := hinv.counts_freed ho
  sizes := hinv.sizes
  pool_nodup := by
    rcases hpl with rfl | ⟨rfl, _⟩
    · exact hinv.pool_nodup
    · refine nodup_cons.mpr ⟨fun hm => ?_, hinv.pool_nodup⟩
      exact hinv.pageRef_ne_zero ho (hinv.pool_empty _ hm)
  pool_known := by
    intro p hp
    rcases hpl with rfl | ⟨rfl, _⟩
    · exact hinv.pool_known p hp
    · rcases mem_cons.mp hp with rfl | hp
      · exact not_not.mp fun hunk =>
          hinv.pageRef_ne_zero ho (hinv.unknown_empty _ hunk)
      · exact hinv.pool_known p hp
  pool_empty := by
    intro p hp
    have hemp : ∀ q ∈ h.pool, (h.freed o lists smallPages).pageRef q = 0 := by
      intro q hq
      have hz := hinv.pool_empty q hq
      rw [freed_pageRef_of_ne (fun heq => hinv.pageRef_ne_zero ho (heq ▸ hz)), hz]
    rcases hpl with rfl | ⟨rfl, hls⟩
    · exact hemp p hp
    · rcases mem_cons.mp hp with rfl | hp
      · rw [freed_pageRef_self, hls]
      · exact hemp p hp
  unknown_empty := by
    intro p hp
    have hz := hinv.unknown_empty p hp
    rw [freed_pageRef_of_ne (fun heq => hinv.pageRef_ne_zero ho (heq ▸ hz)), hz]
  listed := by
    intro p hp hne
    by_cases hpg : p = o.page
    · subst hpg
      rw [freed_pageRef_self] at hne
      exact hsf hp hne
    rw [freed_pageRef_of_ne hpg] at hne
    have hc := hoth (h.pageClass p) p hpg
    have hm : p ∈ h.smallPagesWithFreeLines (h.pageClass p) := by
      rw [← count_pos_iff, ← hc]
      exact count_pos_iff.mpr hp
    obtain ⟨hfr, hone⟩ := hinv.listed p hm hne
    exact ⟨hfr.freed, hc.trans hone⟩

theorem Inv.freed_same (ho : o ∈ h.live) (hpl : smallPages = h.smallPages ∨ smallPages = o.page
      :: h.smallPages ∧ h.pageRefAfterFree o = 0) :
    (h.freed o h.smallPagesWithFreeLines smallPages).Inv := by
  refine hinv.freed ho hpl (fun _ _ _ => rfl) fun hm _ => ?_
  obtain ⟨hfr, hone⟩ := hinv.listed _ hm (hinv.pageRef_ne_zero ho)
  exact ⟨hfr.freed, hone⟩

end

theorem count_update_cons_of_ne {q : PageId} (hq : q ≠ page) (c c' : Nat) :
    (update lists c (page :: lists c) c').count q = (lists c').count q := by
  by_cases hc : c' = c
  · rw [hc, update_self, count_cons_of_ne (fun heq => hq heq.symm)]
  · rw [update_of_ne hc]

theorem count_listsWith_of_ne (hp : page ≠ o.page) (c : Nat) :
    (h.listsWith o.page c).count page = (h.smallPagesWithFreeLines c).count page :=
  count_update_cons_of_ne hp _ c

theorem listsWith_self :
    h.listsWith o.page (h.pageClass o.page) =
      o.page :: h.smallPagesWithFreeLines (h.pageClass o.page) := update_self _ _ _

theorem Inv.not_hasFreeLine_of_full (hinv : h.Inv) (hfl : h.pageRef page = lineCount) :
    ¬ h.HasFreeLine page := by
  rintro ⟨i, hi, hz⟩
  have hc := (hinv.counts page).pageRef_eq
  rw [hfl] at hc
  have hl : (List.range lineCount).countP (fun i => h.lineRef page i ≠ 0) =
      (List.range lineCount).length := hc.symm.trans length_range.symm
  have hlt := Nat.lt_of_lt_of_le hi (usableLines_le _)
  exact of_decide_eq_true (countP_eq_length.mp hl i (mem_range.mpr hlt)) hz

theorem Inv.free (hinv : h.Inv) (hst : h.step (.free o) = some h') : h'.Inv := by
  obtain ⟨ho, hcs⟩ := step_free hst
  rcases hcs with ⟨_, rfl⟩ | ⟨hln, hfl, rfl⟩ | ⟨hln, hone, rfl⟩ | ⟨_, _, _, rfl⟩
  · exact hinv.freed_same ho (.inl rfl)
  · -- the first line of the page that becomes free: it was in no list
    refine hinv.freed ho (.inl rfl) (fun c p hp => count_listsWith_of_ne hp c) fun _ _ => ?_
    refine ⟨hasFreeLine_freed hinv ho hln, ?_⟩
    have hn := hinv.not_listed (hinv.not_hasFreeLine_of_full hfl) (hinv.pageRef_ne_zero ho)
    rw [listsWith_self, count_cons_self, count_eq_zero_of_not_mem hn]
  · refine hinv.freed_same ho (.inr ⟨rfl, ?_⟩)
    rw [pageRefAfterFree, if_pos hln, hone]
  · exact hinv.freed_same ho (.inl rfl)

end

/-! ## A page for the ranges -/

theorem popPage_some {l rest : List PageId} (hpop : h.popPage c l = some (page, rest)) :
    ∃ dropped, l = dropped ++ page :: rest ∧
      (∀ q ∈ dropped, h.pageRef q = 0 ∨ h.pageClass q ≠ c) ∧
      h.pageRef page ≠ 0 ∧ h.pageClass page = c := by
  fun_induction popPage h c l with
  | case1 => cases hpop
  | case2 q tail hin ih =>
    obtain ⟨dropped, rfl, hdrp, hpg⟩ := ih hpop
    exact ⟨q :: dropped, rfl, forall_mem_cons.mpr ⟨hin, hdrp⟩, hpg⟩
  | case3 q tail hvld =>
    cases hpop
    obtain ⟨href, hcla⟩ := not_or.mp hvld
    exact ⟨[], rfl, forall_mem_nil _, href, not_not.mp hcla⟩

theorem popPage_none {l : List PageId} (hpop : h.popPage c l = none) :
    ∀ q ∈ l, h.pageRef q = 0 ∨ h.pageClass q ≠ c := by
  fun_induction popPage h c l with
  | case1 => exact forall_mem_nil _
  | case2 q tail hin ih => exact forall_mem_cons.mpr ⟨hin, ih hpop⟩
  | case3 => cases hpop

/-- No page is lost: every page in use with a free line is in the list of its size class. -/
def NotLost (h : Heap) : Prop :=
  ∀ page, h.pageRef page ≠ 0 → h.HasFreeLine page →
    page ∈ h.smallPagesWithFreeLines (h.pageClass page)

/-- A page that was taken for a call of `allocateSmallBumpRanges`. -/
structure Taken (h : Heap) (page : PageId) (c : Nat) : Prop where
  pageClass : h.pageClass page = c
  known : page ∈ h.pages
  not_pool : page ∉ h.pool
  not_listed : page ∉ h.smallPagesWithFreeLines c
  hasFreeLine : h.HasFreeLine page

section

variable (hinv : h.Inv)

include hinv

theorem Inv.setFreeLines {list : List PageId} (hlist : ∀ q ∈ list, h.pageRef q ≠ 0 →
    h.pageClass q = c → list.count q = (h.smallPagesWithFreeLines c).count q) :
    (h.setFreeLines c list).Inv := by
  refine ⟨hinv.class_lt, hinv.counts, hinv.sizes, hinv.pool_nodup, hinv.pool_known,
    hinv.pool_empty, hinv.unknown_empty, ?_⟩
  intro q hq hqr
  change q ∈ update h.smallPagesWithFreeLines c list (h.pageClass q) at hq
  show h.HasFreeLine q ∧ (update h.smallPagesWithFreeLines c list (h.pageClass q)).count q = 1
  by_cases hqc : h.pageClass q = c
  · rw [hqc, update_self] at hq ⊢
    have hcnt := hlist q hq hqr hqc
    rw [hcnt, ← hqc]
    refine hinv.listed q ?_ hqr
    rw [hqc, ← count_pos_iff, ← hcnt]
    exact count_pos_iff.mpr hq
  · rw [update_of_ne hqc] at hq ⊢
    exact hinv.listed q hq hqr

theorem taken_of_popPage {rest : List PageId}
    (hpop : h.popPage c (h.smallPagesWithFreeLines c) = some (page, rest)) :
    (h.setFreeLines c rest).Inv ∧ (h.setFreeLines c rest).Taken page c ∧
      (h.NotLost → ∀ q ≠ page, h.pageRef q ≠ 0 → h.HasFreeLine q →
        q ∈ (h.setFreeLines c rest).smallPagesWithFreeLines (h.pageClass q)) := by
  obtain ⟨dropped, hls, hdrp, href, rfl⟩ := popPage_some hpop
  have hm : page ∈ h.smallPagesWithFreeLines (h.pageClass page) := by
    rw [hls]
    exact mem_append_right _ mem_cons_self
  obtain ⟨hfr, hone⟩ := hinv.listed page hm href
  have hn : page ∉ rest := by
    rw [hls, count_append, count_cons_self] at hone
    exact count_eq_zero.mp (by omega)
  -- another page of the class that is in use has all its entries in the rest
  have hcnt : ∀ q ≠ page, h.pageRef q ≠ 0 → h.pageClass q = h.pageClass page →
      rest.count q = (h.smallPagesWithFreeLines (h.pageClass page)).count q := by
    intro q hq hqr hqc
    have hz : dropped.count q = 0 := by
      refine count_eq_zero.mpr fun hqm => ?_
      exact (hdrp q hqm).elim hqr (fun hne => hne hqc)
    rw [hls, count_append, count_cons_of_ne (fun heq => hq heq.symm), hz, Nat.zero_add]
  have hsf : (h.setFreeLines (h.pageClass page) rest).smallPagesWithFreeLines
      (h.pageClass page) = rest := update_self _ _ _
  refine ⟨hinv.setFreeLines fun q hq => hcnt q fun heq => hn (heq ▸ hq), ?_, ?_⟩
  · refine ⟨rfl, ?_, fun hp => href (hinv.pool_empty page hp), ?_, hfr⟩
    · exact not_not.mp fun hunk => href (hinv.unknown_empty page hunk)
    · rwa [hsf]
  · intro hnl q hq hqr hqf
    have hqm := hnl q hqr hqf
    by_cases hqc : h.pageClass q = h.pageClass page
    · rw [hqc] at hqm ⊢
      rw [hsf, ← count_pos_iff, hcnt q hq hqr hqc]
      exact count_pos_iff.mpr hqm
    · exact (congrArg (q ∈ ·) (update_of_ne hqc rest h.smallPagesWithFreeLines)).mpr hqm

theorem allocateEmptyPage_spec (halc : h.allocateEmptyPage fresh = some (page, h')) :
    h'.Inv ∧ page ∉ h'.pool ∧ page ∈ h'.pages ∧ h.pageRef page = 0 ∧
      ∃ smallPages vmPages pages,
        h' = { h with smallPages := smallPages, vmPages := vmPages, pages := pages } := by
  -- the first page of the pool is taken
  have htk : ∀ {h₀ : Heap} {smallPages vmPages : List PageId}, h₀.Inv →
      (page :: (smallPages ++ (vmPages ++ h₀.releasing))).Perm h₀.pool →
      Inv { h₀ with smallPages := smallPages, vmPages := vmPages } ∧
        page ∉ smallPages ++ (vmPages ++ h₀.releasing) ∧ page ∈ h₀.pages ∧ h₀.pageRef page = 0 := by
    intro h₀ smallPages vmPages hinv₀ hpr
    obtain ⟨hn, hnd⟩ := nodup_cons.mp (hpr.nodup_iff.mpr hinv₀.pool_nodup)
    have hpg : page ∈ h₀.pool := hpr.mem_iff.mp mem_cons_self
    have hrest : ∀ q ∈ smallPages ++ (vmPages ++ h₀.releasing), q ∈ h₀.pool :=
      fun q hq => hpr.mem_iff.mp (mem_cons_of_mem _ hq)
    exact ⟨hinv₀.of_pool hnd (fun q hq => hinv₀.pool_known q (hrest q hq))
      (fun q hq => hinv₀.pool_empty q (hrest q hq)) (fun _ hq => hq), hn,
      hinv₀.pool_known page hpg, hinv₀.pool_empty page hpg⟩
  revert halc
  fun_cases Heap.allocateEmptyPage h fresh
  case case1 p rest hsml =>
    rintro ⟨⟩
    have hpr : (page :: (rest ++ (h.vmPages ++ h.releasing))).Perm h.pool := by
      rw [pool, hsml]
      exact List.Perm.refl _
    obtain ⟨hinv', hn, hknw, href⟩ := htk hinv hpr
    exact ⟨hinv', hn, hknw, href, rest, h.vmPages, h.pages, rfl⟩
  case case2 hsml =>
    have hpl : ∀ h₀ : Heap, h₀.smallPages = [] → ∀ rest, h₀.vmPages = page :: rest →
        (page :: (h₀.smallPages ++ (rest ++ h₀.releasing))).Perm h₀.pool := by
      intro h₀ hnil rest hvm
      rw [pool, hvm, hnil]
      exact List.Perm.refl _
    fun_cases Heap.allocateVMPage h fresh
    case case1 p rest hvm =>
      rintro ⟨⟩
      obtain ⟨hinv', hn, hknw, href⟩ := htk hinv (hpl h hsml rest hvm)
      exact ⟨hinv', hn, hknw, href, h.smallPages, rest, h.pages, rfl⟩
    case case2 =>
      intro halc
      obtain ⟨h₀, hgr, halc⟩ := Option.bind_eq_some_iff.mp halc
      have hinv₀ := hinv.grow hgr
      obtain ⟨-, ⟨⟩⟩ := Option.ite_none_right_eq_some.mp hgr
      split at halc <;> cases halc
      case h_1 rest hvm₀ =>
        have hpr := hpl
          { h with vmPages := fresh ++ h.vmPages, pages := fresh ++ h.pages } hsml rest hvm₀
        obtain ⟨hinv', hn, hknw, href⟩ := htk hinv₀ hpr
        exact ⟨hinv', hn, hknw, href, h.smallPages, rest, _, rfl⟩

theorem Inv.setClass (hemp : h.pageRef page = 0) (hc : c < sizeClassCount)
    (hls : page ∉ h.smallPagesWithFreeLines c) :
    Inv { h with pageClass := update h.pageClass page c } where
  class_lt q := by
    show update h.pageClass page c q < sizeClassCount
    by_cases hq : q = page
    · rwa [hq, update_self]
    · rw [update_of_ne hq]
      exact hinv.class_lt q
  counts q := by
    by_cases hq : q = page
    · subst hq
      have hcts := hinv.counts q
      rw [hemp] at hcts
      show PageCounts _ _ (h.pageRef q) _
      rw [hemp]
      exact hcts.of_empty (objectSize_pos _)
    · show PageCounts (objectSize (update h.pageClass page c q)) _ _ _
      rw [update_of_ne hq]
      exact hinv.counts q
  sizes r hr hcnt := by
    have hob : r.begin ∈ offsetsOn r.page h.objects := by
      refine mem_offsetsOn (mem_append_right _ (mem_flatMap.mpr ⟨r, hr, ?_⟩))
      rw [objects_tail hcnt]
      exact mem_cons_self
    have hne : r.page ≠ page := by
      rintro rfl
      exact (hinv.counts r.page).pageRef_ne_zero (objectSize_pos _) hob hemp
    show r.size = objectSize (update h.pageClass page c r.page)
    rw [update_of_ne hne]
    exact hinv.sizes r hr hcnt
  pool_nodup := hinv.pool_nodup
  pool_known := hinv.pool_known
  pool_empty := hinv.pool_empty
  unknown_empty := hinv.unknown_empty
  listed q hq hqr := by
    have hne : q ≠ page := fun heq => hqr (heq ▸ hemp)
    have hcla : update h.pageClass page c q = h.pageClass q := update_of_ne hne _ _
    unfold HasFreeLine
    dsimp only at hq ⊢
    rw [hcla] at hq ⊢
    exact hinv.listed q hq hqr

theorem Inv.drained : (h.setFreeLines c []).Inv := hinv.setFreeLines (forall_mem_nil _)

theorem taken_of_empty (hc : c < sizeClassCount)
    (hpop : h.popPage c (h.smallPagesWithFreeLines c) = none)
    (halc : (h.setFreeLines c []).allocateEmptyPage fresh = some (page, h')) :
    Inv { h' with pageClass := update h'.pageClass page c } ∧
      Taken { h' with pageClass := update h'.pageClass page c } page c ∧
      (h.NotLost → ∀ q ≠ page, h'.pageRef q ≠ 0 →
        HasFreeLine { h' with pageClass := update h'.pageClass page c } q →
        q ∈ h'.smallPagesWithFreeLines (update h'.pageClass page c q)) := by
  have hsf : (h.setFreeLines c []).smallPagesWithFreeLines c = [] := update_self _ _ _
  have hoth : ∀ c' ≠ c, (h.setFreeLines c []).smallPagesWithFreeLines c' =
      h.smallPagesWithFreeLines c' := fun c' hc' => update_of_ne hc' _ _
  obtain ⟨hinv', hpl, hknw, href, smallPages, vps, pages, rfl⟩ :=
    allocateEmptyPage_spec hinv.drained halc
  have hnotList : page ∉ (h.setFreeLines c []).smallPagesWithFreeLines c := by
    rw [hsf]
    exact not_mem_nil
  refine ⟨hinv'.setClass href hc hnotList, ?_, ?_⟩
  · refine ⟨update_self _ _ _, hknw, hpl, hnotList, ?_⟩
    have hcts := hinv.counts page
    have hpageRef : h.pageRef page = 0 := href
    rw [hpageRef] at hcts
    exact ⟨0, Nat.lt_of_lt_of_le (by decide) (le_usableLines _),
      hcts.lineRef_eq_zero (objectSize_pos _) 0⟩
  · intro hnl q hq hqr hqf
    have hcla : update (h.setFreeLines c []).pageClass page c q = h.pageClass q :=
      update_of_ne hq _ _
    have hqf' : h.HasFreeLine q := by
      unfold HasFreeLine at hqf ⊢
      dsimp only at hqf
      rwa [hcla] at hqf
    have hqm := hnl q hqr hqf'
    have hqc : h.pageClass q ≠ c := by
      rintro rfl
      exact (popPage_none hpop q hqm).elim hqr (fun hne => hne rfl)
    show q ∈ (h.setFreeLines c []).smallPagesWithFreeLines _
    rwa [hcla, hoth _ hqc]

theorem allocateSmallPage_spec (hc : c < sizeClassCount)
    (halc : h.allocateSmallPage c fresh = some (page, h')) :
    h'.ranges = h.ranges ∧ h'.Inv ∧ h'.Taken page c ∧
      (h.NotLost → ∀ q ≠ page, h'.pageRef q ≠ 0 → h'.HasFreeLine q →
        q ∈ h'.smallPagesWithFreeLines (h'.pageClass q)) := by
  unfold allocateSmallPage at halc
  split at halc
  case h_1 p rest hpop =>
    cases halc
    exact ⟨rfl, taken_of_popPage hinv hpop⟩
  case h_2 hpop =>
    obtain ⟨⟨p, h₁⟩, hemp, halc⟩ := Option.bind_eq_some_iff.mp halc
    cases halc
    refine ⟨?_, taken_of_empty hinv hc hpop hemp⟩
    obtain ⟨_, _, _, _, _, _, _, rfl⟩ := allocateEmptyPage_spec hinv.drained hemp
    rfl

end

/-! ## The ranges -/

/-- What the scan of a page with a free line does. -/
structure ScanSpec (h : Heap) (page : PageId) (c : Nat) (s : Scan) : Prop where
  counts : PageCounts (objectSize c) s.lineRef s.pageRef
    (offsetsOn page h.objects ++ s.ranges.flatMap BumpRange.offsets)
  ranges_page : ∀ r ∈ s.ranges, r.page = page ∧ r.size = objectSize c
  ranges_pos : ∀ r ∈ s.ranges, r.objectCount ≠ 0
  ranges_ne_nil : s.ranges ≠ []
  filled : s.overflow = false → ∀ i < usableLines (objectSize c), s.lineRef i ≠ 0
  overflow : s.overflow = true → ∃ i < usableLines (objectSize c), s.lineRef i = 0

theorem scan_spec (hinv : h.Inv) (htkn : h.Taken page c) (hc : c < sizeClassCount) :
    h.ScanSpec page c (h.scan page c) := by
  have hsz := objectSize_pos c
  have hmax := objectSize_le hc
  have hcla := htkn.pageClass
  have hcts := hinv.counts page
  rw [hcla] at hcts
  have hp : ∀ i ∈ List.range (usableLines (objectSize c)), 0 < objectCount (objectSize c) i :=
    fun i hi => objectCount_pos hsz hmax (mem_range.mp hi)
  have hsc : PageCounts (objectSize c) (h.scan page c).lineRef (h.scan page c).pageRef
        (offsetsOn page h.objects ++ (h.scan page c).offsets none) ∧
      ∀ r ∈ (h.scan page c).ranges, r.page = page ∧ r.size = objectSize c := by
    unfold scan
    rw [range_eq_range']
    refine Scan.counts_lines hsz hmax _ (Nat.le_of_eq (Nat.zero_add _)) (by simp)
      (forall_mem_nil _) ?_
    simpa [Scan.offsets] using hcts
  have hfl : ((h.scan page c).overflow = false →
        ∀ i ∈ List.range (usableLines (objectSize c)), (h.scan page c).lineRef i ≠ 0) ∧
      ((h.scan page c).overflow = true →
        ∃ i ∈ List.range (usableLines (objectSize c)), (h.scan page c).lineRef i = 0) :=
    Scan.filled_lines hp none rfl
  obtain ⟨i, hi, hz⟩ := htkn.hasFreeLine
  rw [hcla] at hi
  refine ⟨?_, hsc.2, ?_, ?_, ?_, ?_⟩
  · have hof : (h.scan page c).offsets none = (h.scan page c).ranges.flatMap offsets := append_nil _
    rw [← hof]
    exact hsc.1
  · exact Scan.objectCount_ranges_lines hp (by simp) (forall_mem_nil _)
  · exact Scan.ranges_lines_ne_nil rfl (mem_range.mpr hi) hz
  · exact fun hno j hj => hfl.1 hno j (mem_range.mpr hj)
  · intro hyes
    obtain ⟨j, hj, hfr⟩ := hfl.2 hyes
    exact ⟨j, mem_range.mp hj, hfr⟩

section

variable {s : Scan}

def listsAfterScan (h : Heap) (page : PageId) (c : Nat) (s : Scan) : Nat → List PageId :=
  if s.overflow then
    Function.update h.smallPagesWithFreeLines c (page :: h.smallPagesWithFreeLines c)
  else h.smallPagesWithFreeLines

theorem withScan_eq : h.withScan page c s = { h with
    lineRef := update h.lineRef page s.lineRef
    pageRef := update h.pageRef page s.pageRef
    ranges := h.ranges ++ s.ranges
    smallPagesWithFreeLines := h.listsAfterScan page c s } := by
  unfold withScan listsAfterScan
  split
  · rfl
  · rfl

variable {q : PageId}

theorem count_listsAfterScan_of_ne (hq : q ≠ page) (c' : Nat) :
    (h.listsAfterScan page c s c').count q = (h.smallPagesWithFreeLines c').count q := by
  unfold listsAfterScan
  split
  · exact count_update_cons_of_ne hq c c'
  · rfl

theorem mem_listsAfterScan_of_ne (hq : q ≠ page) (c' : Nat) :
    q ∈ h.listsAfterScan page c s c' ↔ q ∈ h.smallPagesWithFreeLines c' := by
  rw [← count_pos_iff, count_listsAfterScan_of_ne hq, count_pos_iff]

theorem count_listsAfterScan_self (hn : page ∉ h.smallPagesWithFreeLines c) :
    (h.listsAfterScan page c s c).count page = if s.overflow then 1 else 0 := by
  unfold listsAfterScan
  split
  · rw [update_self, count_cons_self, count_eq_zero_of_not_mem hn]
  · exact count_eq_zero_of_not_mem hn

theorem withScan_pageRef_of_ne (hq : q ≠ page) : (h.withScan page c s).pageRef q = h.pageRef q := by
  rw [withScan_eq]
  exact update_of_ne hq _ _

theorem withScan_lists :
    (h.withScan page c s).smallPagesWithFreeLines = h.listsAfterScan page c s := by
  rw [withScan_eq]

theorem withScan_pageClass : (h.withScan page c s).pageClass = h.pageClass := by rw [withScan_eq]

theorem withScan_ranges : (h.withScan page c s).ranges = h.ranges ++ s.ranges := by
  rw [withScan_eq]

theorem hasFreeLine_withScan_of_ne (hq : q ≠ page) :
    (h.withScan page c s).HasFreeLine q ↔ h.HasFreeLine q := by
  simp only [HasFreeLine, withScan_eq, update_of_ne hq]

theorem hasFreeLine_withScan_self (htkn : h.Taken page c) (hs : h.ScanSpec page c s) :
    (h.withScan page c s).HasFreeLine page ↔ s.overflow = true := by
  simp only [HasFreeLine, withScan_eq, update_self, htkn.pageClass]
  refine ⟨?_, hs.overflow⟩
  rintro ⟨i, hi, hz⟩
  cases hov : s.overflow with
  | true => rfl
  | false => exact absurd hz (hs.filled hov i hi)

theorem Inv.withScan (hinv : h.Inv) (htkn : h.Taken page c) (hs : h.ScanSpec page c s) :
    (h.withScan page c s).Inv := by
  have hfrs := hasFreeLine_withScan_self htkn hs
  have hfro := fun q (hq : q ≠ page) => hasFreeLine_withScan_of_ne (h := h) (c := c) (s := s) hq
  rw [withScan_eq] at hfrs ⊢
  simp only [withScan_eq] at hfro
  refine ⟨hinv.class_lt, fun q => ?_, fun r hr hc => ?_, hinv.pool_nodup, hinv.pool_known,
    fun q hq => ?_, fun q hq => ?_, fun q hq hqr => ?_⟩
  · unfold objects
    dsimp only
    rw [flatMap_append, ← append_assoc, offsetsOn_append]
    by_cases hq : q = page
    · subst hq
      rw [update_self, update_self, htkn.pageClass,
        offsetsOn_ranges (fun r hr => (hs.ranges_page r hr).1)]
      exact hs.counts
    · rw [update_of_ne hq, update_of_ne hq, offsetsOn_ranges_of_ne
        (fun r hr heq => hq (heq.symm.trans (hs.ranges_page r hr).1)), append_nil]
      exact hinv.counts q
  · rcases mem_append.mp hr with hr | hr
    · exact hinv.sizes r hr hc
    · obtain ⟨hpg, hsz⟩ := hs.ranges_page r hr
      rw [hpg, htkn.pageClass, hsz]
  · have hne : q ≠ page := fun heq => htkn.not_pool (heq ▸ hq)
    exact (update_of_ne hne _ _).trans (hinv.pool_empty q hq)
  · have hne : q ≠ page := fun heq => hq (heq ▸ htkn.known)
    exact (update_of_ne hne _ _).trans (hinv.unknown_empty q hq)
  · dsimp only at hq hqr ⊢
    by_cases hpg : q = page
    · subst hpg
      have hc := count_listsAfterScan_self (s := s) htkn.not_listed
      rw [htkn.pageClass] at hq ⊢
      have hov : s.overflow = true := by
        refine Bool.not_eq_false _ |>.mp fun hno => ?_
        rw [hno] at hc
        exact count_eq_zero.mp hc hq
      rw [hov] at hc
      exact ⟨hfrs.mpr hov, hc⟩
    · rw [update_of_ne hpg] at hqr
      rw [hfro q hpg, count_listsAfterScan_of_ne hpg]
      exact hinv.listed q ((mem_listsAfterScan_of_ne hpg _).mp hq) hqr

end

/-- What a call of `allocateSmallBumpRanges` does. -/
theorem allocateSmallBumpRanges_spec (hinv : h.Inv) (hc : c < sizeClassCount)
    (halc : h.allocateSmallBumpRanges c fresh = some h') :
    ∃ page h₁, h.allocateSmallPage c fresh = some (page, h₁) ∧ h₁.Inv ∧ h₁.Taken page c ∧
      h₁.ScanSpec page c (h₁.scan page c) ∧ h' = h₁.withScan page c (h₁.scan page c) := by
  obtain ⟨⟨page, h₁⟩, hpg, halc⟩ := Option.bind_eq_some_iff.mp halc
  obtain ⟨_, hinv₁, htkn, _⟩ := allocateSmallPage_spec hinv hc hpg
  exact ⟨page, h₁, hpg, hinv₁, htkn, scan_spec hinv₁ htkn hc, (Option.some.inj halc).symm⟩

theorem step_allocate (hst : h.step (.allocate c fresh) = some h') :
    c < sizeClassCount ∧ h.allocateSmallBumpRanges c fresh = some h' :=
  Option.ite_none_right_eq_some.mp hst

/-- **One step.** Every step keeps the invariant. -/
theorem Inv.step {e : Event} (hinv : h.Inv) (hst : h.step e = some h') : h'.Inv := by
  cases e with
  | allocate c fresh =>
    obtain ⟨hc, halc⟩ := step_allocate hst
    obtain ⟨page, h₁, _, hinv₁, htkn, hs, rfl⟩ := allocateSmallBumpRanges_spec hinv hc halc
    exact hinv₁.withScan htkn hs
  | handOut rng => exact hinv.handOut hst
  | free o => exact hinv.free hst
  | grow fresh => exact hinv.grow hst
  | scavengeBegin => exact hinv.scavengeBegin hst
  | scavengeEnd page => exact hinv.scavengeEnd hst

end

end Heap

end WebKit.Bmalloc
