import WebKit.Bmalloc.SmallPageInvariant

/-!
# Runs of the small heap

Over every run the counts are those of the objects in use, and no two objects or ranges overlap.  A
page whose last line is too short for an object is never counted as full, and gets lost
(`LosesPage`). All other pages with a free line are in their list.
-/

namespace WebKit.Bmalloc

open List

namespace Heap

variable {h h' : Heap}

/-! ## Pages are not lost -/

/-- The free takes the last object of a line of a page that is full but for an unusable last line.
-/
def LosesPage (h : Heap) (o : Object) : Prop :=
  usableLines (objectSize (h.pageClass o.page)) < lineCount ∧
    h.pageRef o.page = usableLines (objectSize (h.pageClass o.page)) ∧
    h.lineRef o.page o.line = 1

/-- The condition on a step under which no page is lost. -/
def KeepsPages (h : Heap) : Event → Prop
  | .free o => ¬ h.LosesPage o
  | _ => True

section

variable {o : Object}

theorem notLost_freed (hi : h.Inv) (hnl : h.NotLost) (ho : o ∈ h.live) (sps : List PageId)
    (hsf : h.HasFreeLine o.page ∨ h.pageRefAfterFree o = 0 ∨ h.lineRef o.page o.line - 1 ≠ 0) :
    (h.freed o h.smallPagesWithFreeLines sps).NotLost := by
  intro page href hfr
  by_cases hpg : page = o.page
  · subst hpg
    rw [freed_pageRef_self] at href
    rcases hsf with hsf | hsf | hsf
    · exact hnl _ (hi.pageRef_ne_zero ho) hsf
    · exact absurd hsf href
    · exact hnl _ (hi.pageRef_ne_zero ho) (hasFreeLine_of_freed hfr (.inr hsf))
  · rw [freed_pageRef_of_ne hpg] at href
    exact hnl page href (hasFreeLine_of_freed hfr (.inl hpg))

theorem notLost_freed_listsWith (hnl : h.NotLost) :
    (h.freed o (h.listsWith o.page) h.smallPages).NotLost := by
  intro page href hfr
  show page ∈ h.listsWith o.page (h.pageClass page)
  by_cases hpg : page = o.page
  · rw [hpg, listsWith_self]
    exact mem_cons_self
  · rw [freed_pageRef_of_ne hpg] at href
    rw [← count_pos_iff, count_listsWith_of_ne hpg, count_pos_iff]
    exact hnl page href (hasFreeLine_of_freed hfr (.inl hpg))

/-- **Frees.** A free loses no page unless the page was full and is not taken for full. -/
theorem notLost_free_iff (hi : h.Inv) (hnl : h.NotLost)
    (hst : h.step (.free o) = some h') : h'.NotLost ↔ ¬ h.LosesPage o := by
  obtain ⟨ho, hcs⟩ := step_free hst
  have hp : 0 < h.lineRef o.page o.line := (hi.counts o.page).lineRef_pos (mem_offsetsOn_live ho)
  rcases hcs with ⟨hln, rfl⟩ | ⟨hln, hfl, rfl⟩ | ⟨hln, hone, rfl⟩ | ⟨hln, hfl, hone, rfl⟩
  · refine iff_of_true (notLost_freed hi hnl ho _ (.inr (.inr hln))) ?_
    rintro ⟨_, _, hls⟩
    omega
  · refine iff_of_true (notLost_freed_listsWith hnl) ?_
    rintro ⟨hsht, heq, _⟩
    omega
  · have hz : h.pageRefAfterFree o = 0 := by rw [pageRefAfterFree, if_pos hln, hone]
    refine iff_of_true (notLost_freed hi hnl ho _ (.inr (.inl hz))) ?_
    rintro ⟨_, heq, _⟩
    have := le_usableLines (objectSize (h.pageClass o.page))
    unfold lineCount at this
    omega
  · constructor
    · rintro haft ⟨_, heq, _⟩
      have hno : ¬ h.HasFreeLine o.page := hi.not_hasFreeLine.mpr heq
      have hne := hi.pageRef_ne_zero ho
      refine hi.not_listed hno hne (haft o.page ?_ (hasFreeLine_freed hi ho hln))
      rw [freed_pageRef_self, pageRefAfterFree, if_pos hln]
      omega
    · intro hkps
      refine notLost_freed hi hnl ho _ (.inl (not_not.mp fun hno => ?_))
      have heq := hi.not_hasFreeLine.mp hno
      have hle := usableLines_le (objectSize (h.pageClass o.page))
      exact hkps ⟨by omega, heq, by omega⟩

end

theorem notLost_allocate (hi : h.Inv) (hnl : h.NotLost) {c : Nat} {fresh : List PageId}
    (hst : h.step (.allocate c fresh) = some h') : h'.NotLost := by
  obtain ⟨hc, halc⟩ := step_allocate hst
  obtain ⟨page, h₁, hpg, hi₁, htkn, hs, rfl⟩ := allocateSmallBumpRanges_spec hi hc halc
  have hots := (allocateSmallPage_spec hi hc hpg).2.2.2 hnl
  intro q href hfr
  rw [withScan_lists, withScan_pageClass]
  by_cases hq : q = page
  · subst hq
    have hov := (hasFreeLine_withScan_self htkn hs).mp hfr
    have hcnt := count_listsAfterScan_self (s := h₁.scan q c) htkn.not_listed
    rw [hov] at hcnt
    rw [htkn.pageClass]
    exact count_pos_iff.mp (hcnt ▸ Nat.one_pos)
  · rw [mem_listsAfterScan_of_ne hq]
    rw [withScan_pageRef_of_ne hq] at href
    exact hots q hq href ((hasFreeLine_withScan_of_ne hq).mp hfr)

theorem notLost_of_same (hnl : h.NotLost) (hln : h'.lineRef = h.lineRef)
    (hpg : h'.pageRef = h.pageRef) (hcla : h'.pageClass = h.pageClass)
    (hls : h'.smallPagesWithFreeLines = h.smallPagesWithFreeLines) : h'.NotLost := by
  unfold NotLost HasFreeLine
  rw [hln, hpg, hcla, hls]
  exact hnl

/-- **One step.** The condition is exact. -/
theorem notLost_step_iff (hi : h.Inv) (hnl : h.NotLost) {e : Event}
    (hst : h.step e = some h') : h'.NotLost ↔ h.KeepsPages e := by
  cases e with
  | allocate c fresh => exact iff_of_true (notLost_allocate hi hnl hst) trivial
  | free o => exact notLost_free_iff hi hnl hst
  | handOut rng =>
    revert hst
    change h.handOut rng = _ → _
    fun_cases handOut h rng <;> rintro ⟨⟩
    exact iff_of_true (notLost_of_same hnl rfl rfl rfl rfl) trivial
  | grow fresh =>
    obtain ⟨_, hst⟩ := Option.ite_none_right_eq_some.mp hst
    cases hst
    exact iff_of_true (notLost_of_same hnl rfl rfl rfl rfl) trivial
  | scavengeBegin | scavengeEnd page =>
    dsimp only [step] at hst
    split at hst <;> cases hst
    exact iff_of_true (notLost_of_same hnl rfl rfl rfl rfl) trivial

end Heap

/-! ## Bytes -/

/-- A byte of the memory of a range. -/
def BumpRange.Covers (r : BumpRange) (page : PageId) (x : Nat) : Prop :=
  r.page = page ∧ r.begin ≤ x ∧ x < r.begin + r.objectCount * r.size

variable {r : BumpRange} {page : PageId}

theorem BumpRange.Covers.mem_objects {x : Nat} (h : r.Covers page x) (hdvd : r.size ∣ r.begin) :
    (⟨page, x / r.size * r.size⟩ : Object) ∈ r.objects := by
  obtain ⟨rfl, hbeg, he⟩ := h
  obtain ⟨d, hd⟩ := hdvd
  have hsz : 0 < r.size := by
    refine Nat.pos_iff_ne_zero.mpr fun hz => ?_
    rw [hz] at he
    omega
  have hlow : d ≤ x / r.size := by
    rw [Nat.le_div_iff_mul_le hsz, Nat.mul_comm, ← hd]
    exact hbeg
  have hhg : x / r.size < d + r.objectCount := by
    rw [Nat.div_lt_iff_lt_mul hsz, Nat.add_mul, Nat.mul_comm d, ← hd]
    exact he
  refine mem_map.mpr ⟨x / r.size - d, mem_range.mpr (by omega), ?_⟩
  congr 1
  rw [hd, Nat.mul_comm r.size d, ← Nat.add_mul]
  congr 1
  omega

namespace Heap

variable {h h' : Heap}

/-- The live objects and the ranges, each as a range. -/
def blocks (h : Heap) : List BumpRange :=
  h.live.map (fun o => ⟨o.page, o.offset, 1, objectSize (h.pageClass o.page)⟩) ++ h.ranges

theorem objects_blocks (h : Heap) : h.blocks.flatMap BumpRange.objects = h.objects := by
  unfold blocks objects
  rw [flatMap_append, flatMap_map]
  congr 1
  simp [BumpRange.objects]

theorem Inv.block (hi : h.Inv) (hr : r ∈ h.blocks) (hc : r.objectCount ≠ 0) :
    r.size = objectSize (h.pageClass r.page) ∧ r.size ∣ r.begin := by
  have hsz : r.size = objectSize (h.pageClass r.page) := by
    rcases mem_append.mp hr with hr | hr
    · obtain ⟨o, _, rfl⟩ := mem_map.mp hr
      rfl
    · exact hi.sizes r hr hc
  have hm : r.begin ∈ offsetsOn r.page h.objects := by
    refine mem_offsetsOn (h.objects_blocks ▸ mem_flatMap.mpr ⟨r, hr, ?_⟩)
    rw [objects_tail hc]
    exact mem_cons_self
  exact ⟨hsz, hsz ▸ (hi.counts r.page).dvd _ hm⟩

theorem Inv.covers (hi : h.Inv) (hr : r ∈ h.blocks) {x : Nat} (hx : r.Covers page x) :
    (⟨page, x / objectSize (h.pageClass page) * objectSize (h.pageClass page)⟩ : Object) ∈
      r.objects := by
  have hc : r.objectCount ≠ 0 := by
    intro hz
    obtain ⟨_, hbeg, he⟩ := hx
    rw [hz] at he
    omega
  obtain ⟨hsz, hdvd⟩ := hi.block hr hc
  have hm := hx.mem_objects hdvd
  rwa [hsz, hx.1] at hm

theorem Inv.disjoint (hi : h.Inv) :
    h.blocks.Pairwise fun r r' => ∀ page x, ¬ (r.Covers page x ∧ r'.Covers page x) := by
  have hnd : (h.blocks.flatMap BumpRange.objects).Nodup := by
    rw [objects_blocks]
    exact nodup_of_offsetsOn fun page => (hi.counts page).nodup
  refine (nodup_flatMap.mp hnd).2.imp_of_mem ?_
  rintro r r' hr hr' hdsj page x ⟨hx, hx'⟩
  exact hdsj (hi.covers hr hx) (hi.covers hr' hx')

theorem Inv.inPage (hi : h.Inv) (hr : r ∈ h.blocks) {x : Nat}
    (hx : r.Covers page x) : x < vmPageSize := by
  have hm := mem_flatMap.mpr ⟨r, hr, hi.covers hr hx⟩
  rw [objects_blocks] at hm
  have hft := (hi.counts page).fits _ (mem_offsetsOn hm)
  have hlt := Nat.lt_div_mul_add (a := x) (objectSize_pos (h.pageClass page))
  omega

/-! ## The claim about runs -/

/-- The counts are exact, objects and ranges are disjoint, and no page is lost. -/
structure Exact (h : Heap) : Prop where
  lineRef_eq : ∀ page i, h.lineRef page i = h.objects.countP fun o => o.page = page ∧ o.line = i
  pageRef_eq : ∀ page, h.pageRef page = (List.range lineCount).countP fun i => h.lineRef page i ≠ 0
  disjoint : h.blocks.Pairwise fun r r' => ∀ page x, ¬ (r.Covers page x ∧ r'.Covers page x)
  inPage : ∀ r ∈ h.blocks, ∀ page x, r.Covers page x → x < vmPageSize
  -- every call from here makes a range with an object
  makesRange : ∀ sizeClass fresh h', h.step (.allocate sizeClass fresh) = some h' →
    ∃ ranges, h'.ranges = h.ranges ++ ranges ∧ ranges ≠ [] ∧ ∀ r ∈ ranges, r.objectCount ≠ 0
  notLost : h.NotLost

theorem countP_offsetsOn (page : PageId) (i : Nat) (l : List Object) :
    (offsetsOn page l).countP (fun x => x / lineSize = i) =
      l.countP fun o => o.page = page ∧ o.line = i := by
  induction l with
  | nil => rfl
  | cons o rest ih =>
    by_cases hpg : o.page = page
    · subst hpg
      rw [offsetsOn_cons_self, countP_cons, countP_cons, ih]
      simp [Object.line]
    · rw [offsetsOn_cons_of_ne hpg, countP_cons, ih]
      simp [hpg]

theorem Inv.exact_iff (hi : h.Inv) : h.Exact ↔ h.NotLost := by
  refine ⟨Exact.notLost, fun hnl => ⟨?_, ?_, hi.disjoint, ?_, ?_, hnl⟩⟩
  · intro page i
    rw [(hi.counts page).lineRef_eq, countP_offsetsOn]
  · exact fun page => (hi.counts page).pageRef_eq
  · exact fun r hr page x hx => hi.inPage hr hx
  · intro c fresh h' hst
    obtain ⟨hc, halc⟩ := step_allocate hst
    obtain ⟨page, h₁, hpg, _, _, hs, rfl⟩ := allocateSmallBumpRanges_spec hi hc halc
    refine ⟨_, ?_, hs.ranges_ne_nil, hs.ranges_pos⟩
    rw [withScan_ranges, (allocateSmallPage_spec hi hc hpg).1]

open Heap

/-- **Exact counts.** A run keeps counts, ranges and lists right exactly as long as no free takes
the last object of a line of a page that is full but for an unusable last line. -/
theorem smallPages_exact (events : List Event) :
    Runs.AllStates step Exact initial events ↔
      Runs.AllSteps step KeepsPages initial events := by
  refine Runs.allStates_iff_allSteps (fun _ _ _ hinv hstep => hinv.step hstep) ?_ inv_initial ?_
  · intro h e h' hinv hexa hstep
    rw [(hinv.step hstep).exact_iff]
    exact notLost_step_iff hinv hexa.notLost hstep
  · exact inv_initial.exact_iff.mpr fun page href => absurd rfl href

/-- Objects of 248 bytes: all 15 usable lines are in use, and then the second becomes free. -/
theorem page_of_248_lost : ∃ h,
    Runs.run step initial
      [.allocate 30 [0], .handOut 0, .handOut 0, .handOut 0, .free ⟨0, 496⟩] = some h ∧
    h.pageRef 0 = 14 ∧ h.lineRef 0 1 = 0 ∧ h.smallPagesWithFreeLines 30 = [] ∧ ¬ h.Exact := by
  refine ⟨_, rfl, rfl, rfl, rfl, fun hexa => ?_⟩
  exact not_mem_nil (hexa.notLost 0 (by decide) ⟨1, by decide, rfl⟩)

end Heap

end WebKit.Bmalloc
