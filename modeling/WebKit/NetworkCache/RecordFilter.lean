import WebKit.NetworkCache.Storage

/-!
# The contents filter of the network cache

`mayContain` must be true of every key that has a record. The filter of a synchronization gets the
files that the traversal meets and the hashes that are added while it is in progress, so that a
record is missed that was pending or being written when `synchronize` was called.
-/

namespace WebKit.NetworkCache.Storage

open List Option

open Wtf (BloomFilter)

namespace State

variable {Content : Type} {s s' : State Content}

/-- A record of the key is pending, being written, or completely written. -/
def Present (s : State Content) (key : Key) : Prop :=
  (∃ r ∈ s.pendingWriteOperations, r.key = key) ∨
    (∃ w ∈ s.activeWriteOperations, w.record.key = key) ∨
      ∃ r, s.disk.lookup (recordPathForKey key) = some (.complete r) ∧ r.key = key

def NoFalseNegatives (s : State Content) : Prop := ∀ key, s.Present key → s.mayContain key = true

/-- The event calls `synchronize`, and a synchronization begins. -/
def beginsSynchronization (s : State Content) : Event Content → Bool
  | .synchronize => !s.synchronizationInProgress && !s.shrinkInProgress
  | .finishShrink => !s.synchronizationInProgress
  | _ => false

/-- A synchronization only begins when no write is pending or active. -/
def BeginsQuietly (s : State Content) (e : Event Content) : Prop :=
  s.beginsSynchronization e = true →
    s.pendingWriteOperations = [] ∧ s.activeWriteOperations = []

instance (s : State Content) (e : Event Content) : Decidable (s.BeginsQuietly e) :=
  inferInstanceAs (Decidable (_ → _))

/-! ## The invariant -/

/-- The file gets into the new filter. -/
def Covered (added : List HashType) (y : Synchronization) (path : Path) : Prop :=
  path.hash ∈ added ∨
    ∀ paths, y.unvisited = some paths → path ∈ paths ∨ y.recordFilter.mayContain path.hash = true

structure FilterInv (s : State Content) : Prop where
  found : ∀ f, s.recordFilter = some f → ∀ r ∈ s.records, f.mayContain r.key.hash = true
  foundFile : ∀ f, s.recordFilter = some f → ∀ path r,
    s.disk.lookup path = some (.complete r) → f.mayContain path.hash = true
  inProgress : s.synchronizationInProgress = s.synchronization.isSome
  added : ∀ y, s.synchronization = some y → ∀ r ∈ s.records,
    r.key.hash ∈ s.recordFilterHashesAddedDuringSynchronization
  covered : ∀ y, s.synchronization = some y → ∀ path r,
    s.disk.lookup path = some (.complete r) →
      Covered s.recordFilterHashesAddedDuringSynchronization y path

theorem FilterInv.noFalseNegatives (h : s.FilterInv) : s.NoFalseNegatives := by
  intro key hk
  unfold mayContain
  split
  · rfl
  next f hf =>
    rcases hk with ⟨r, hr, rfl⟩ | ⟨w, hw, rfl⟩ | ⟨r, hr, rfl⟩
    · exact h.found f hf r (mem_append_left _ hr)
    · exact h.found f hf w.record (mem_append_right _ (mem_map_of_mem hw))
    · exact h.foundFile f hf (recordPathForKey r.key) r hr

/-- The filter and its synchronization. -/
def filtering (s : State Content) :=
  (s.recordFilter, s.synchronizationInProgress, s.recordFilterHashesAddedDuringSynchronization,
    s.synchronization)

theorem FilterInv.mono (h : s.FilterInv) (hsm : s'.filtering = s.filtering)
    (hrec : ∀ r ∈ s'.records, r ∈ s.records)
    (hds : ∀ path r, s'.disk.lookup path = some (.complete r) →
      s.disk.lookup path = some (.complete r) ∨ ∃ w ∈ s.records, recordPathForKey w.key = path) :
    s'.FilterInv := by
  simp only [filtering, Prod.mk.injEq] at hsm
  obtain ⟨hflt, hipr, ha, hsy⟩ := hsm
  refine ⟨fun f hf r hr => ?_, fun f hf path r hr => ?_, ?_, fun y hy r hr => ?_,
    fun y hy path r hr => ?_⟩
  · rw [hflt] at hf
    exact h.found f hf r (hrec r hr)
  · rw [hflt] at hf
    rcases hds path r hr with hr' | ⟨w, hw, rfl⟩
    · exact h.foundFile f hf path r hr'
    · exact h.found f hf w hw
  · rw [hipr, hsy]
    exact h.inProgress
  · rw [hsy] at hy
    rw [ha]
    exact h.added y hy r (hrec r hr)
  · rw [hsy] at hy
    rw [ha]
    rcases hds path r hr with hr' | ⟨w, hw, rfl⟩
    · exact h.covered y hy path r hr'
    · exact .inl (h.added y hy w hw)

theorem FilterInv.same (h : s.FilterInv) (heq : (s'.filtering, s'.records, s'.disk) =
    (s.filtering, s.records, s.disk)) : s'.FilterInv := by
  simp only [Prod.mk.injEq] at heq
  obtain ⟨hsm, hrec, hds⟩ := heq
  exact h.mono hsm (fun _ hr => hrec ▸ hr) fun _ _ hr => .inl (hds ▸ hr)

theorem MovesReads.filterInv (hmvs : MovesReads s s') (h : s.FilterInv) : s'.FilterInv := by
  obtain ⟨pend, act, timer, rfl⟩ := hmvs.state
  exact h.same rfl

/-! ## The operations -/

theorem FilterInv.addToRecordFilter (h : s.FilterInv) (hsm : s'.filtering = s.filtering) (key : Key)
    (hds : s'.disk = s.disk) (hrc : ∀ r ∈ s'.records, r ∈ s.records ∨ r.key = key) :
    (s'.addToRecordFilter key).FilterInv := by
  simp only [filtering, Prod.mk.injEq] at hsm
  obtain ⟨hflt, hipr, ha, hsy⟩ := hsm
  have hmn : ∀ y, s.synchronization = some y →
      (s'.addToRecordFilter key).recordFilterHashesAddedDuringSynchronization =
        s.recordFilterHashesAddedDuringSynchronization ++ [key.hash] := by
    intro y hy
    show (if s'.synchronizationInProgress then _ else _) = _
    rw [hipr, h.inProgress, hy, ha]
    rfl
  refine ⟨fun f hf r hr => ?_, fun f hf path r hr => ?_, hipr.trans (h.inProgress.trans ?_),
    fun y hy r hr => ?_, fun y hy path r hr => ?_⟩
  · obtain ⟨f', hf', rfl⟩ := map_eq_some_iff.mp hf
    rcases hrc r hr with hr' | rfl
    · exact BloomFilter.mayContain_add _ (h.found f' (hflt ▸ hf') r hr')
    · exact BloomFilter.mayContain_add_self (by decide) _ _
  · obtain ⟨f', hf', rfl⟩ := map_eq_some_iff.mp hf
    exact BloomFilter.mayContain_add _ (h.foundFile f' (hflt ▸ hf') path r (hds ▸ hr))
  · exact congrArg isSome hsy.symm
  · have hy' : s.synchronization = some y := hsy.symm.trans hy
    rw [hmn y hy']
    rcases hrc r hr with hr' | rfl
    · exact mem_append_left _ (h.added y hy' r hr')
    · exact mem_append_right _ mem_cons_self
  · have hy' : s.synchronization = some y := hsy.symm.trans hy
    rw [hmn y hy']
    exact (h.covered y hy' path r (hds ▸ hr)).imp_left (mem_append_left _)

theorem FilterInv.deleteFile (h : s.FilterInv) (path : Path) : (s.deleteFile path).FilterInv := by
  refine ⟨h.found, fun f hf p r hr => h.foundFile f hf p r (lookup_deleteFile hr).2, ?_,
    fun y hy r hr => ?_, fun y hy p r hr => ?_⟩
  · exact h.inProgress.trans (isSome_map ..).symm
  · obtain ⟨y', hy', _⟩ := map_eq_some_iff.mp hy
    exact h.added y' hy' r hr
  · obtain ⟨y', hy', rfl⟩ := map_eq_some_iff.mp hy
    obtain ⟨hne, hr'⟩ := lookup_deleteFile hr
    refine (h.covered y' hy' p r hr').imp_right fun hcv paths hpth => ?_
    obtain ⟨paths', hpth', rfl⟩ := map_eq_some_iff.mp hpth
    exact (hcv paths' hpth').imp_left (mem_erase_of_ne hne).mpr

theorem FilterInv.putFile (h : s.FilterInv) (path : Path) (file : File Content)
    (hfl : ∀ r, file = .complete r → ∃ w ∈ s.records, recordPathForKey w.key = path) :
    (s.putFile path file).FilterInv := by
  refine h.mono rfl (fun _ hr => hr) fun p r hr => ?_
  rw [lookup_putFile] at hr
  split at hr
  next hp =>
    rw [hp]
    exact .inr (hfl r (some.inj hr))
  · exact .inl hr

variable {w w' : WriteOperation Content} {i : Nat}

section

variable (h : s.FilterInv)

include h

theorem FilterInv.setWrite (hw : s.activeWriteOperations[i]? = some w)
    (hrcd : w'.record = w.record) :
    (s.setWrite i w').FilterInv := by
  refine h.mono rfl (fun r hr => ?_) fun _ _ hr => .inl hr
  rwa [records_setWrite hw hrcd] at hr

theorem FilterInv.synchronize
    (hqui : s.synchronizationInProgress = false → s.shrinkInProgress = false → s.records = []) :
    s.synchronize.FilterInv := by
  unfold State.synchronize
  split
  · exact h
  next hn =>
    have hid : s.synchronizationInProgress = false ∧ s.shrinkInProgress = false := by
      simpa using hn
    refine ⟨h.found, h.foundFile, rfl, fun y _ r hr => ?_, fun y hy path r _ => .inr ?_⟩
    · have hnil : s.records = [] := hqui hid.1 hid.2
      change r ∈ s.records at hr
      rw [hnil] at hr
      cases hr
    · intro paths hpth
      cases hy
      cases hpth

theorem FilterInv.shrinkIfNeeded (exceeds : Bool) : (s.shrinkIfNeeded exceeds).FilterInv := by
  unfold State.shrinkIfNeeded State.shrink
  split
  · split
    · exact h
    · exact h.same rfl
  · exact h

theorem FilterInv.dispatchPendingWriteOperations : s.dispatchPendingWriteOperations.FilterInv := by
  rcases s.dispatchPendingWriteOperations_cases with heq | ⟨rest, r, hpn, ha, heq⟩
  · rw [heq]
    exact h
  rw [heq]
  refine h.addToRecordFilter ?_ r.key rfl fun r' hr' => .inl ?_
  · rfl
  · -- the record is only moved
    simpa [records, hpn, ha] using hr'

theorem FilterInv.finishWriteOperation (hw : s.activeWriteOperations[i]? = some w)
    (hrcd : w'.record = w.record) (exceeds : Bool) :
    (s.finishWriteOperation i w' exceeds).FilterInv := by
  unfold State.finishWriteOperation
  split
  · exact h.setWrite hw hrcd
  refine FilterInv.shrinkIfNeeded (FilterInv.dispatchPendingWriteOperations ?_) exceeds
  refine h.mono rfl (fun r hr => ?_) fun _ _ hr => .inl hr
  refine (mem_append.mp hr).elim (mem_append_left _) fun hr => ?_
  obtain ⟨v, hv, rfl⟩ := mem_map.mp hr
  exact mem_append_right _ (mem_map_of_mem (mem_of_mem_eraseIdx hv))

theorem FilterInv.remove (key : Key) : (s.remove key).FilterInv := by
  unfold State.remove
  dsimp only
  split
  · exact h.same rfl
  · refine h.mono rfl (fun r hr => ?_) fun _ _ hr => .inl hr
    exact (mem_append.mp hr).elim
      (fun hr => mem_append_left _ (mem_of_mem_eraseP hr)) (mem_append_right _)

theorem FilterInv.store (key : Key) (cont : Content) : (s.store key cont).FilterInv := by
  unfold State.store
  dsimp only
  split
  · exact h.same rfl
  have hstd : (State.addToRecordFilter
      { s with
        clock := s.clock + 1
        lastStore := Function.update s.lastStore key (s.clock + 1)
        pendingWriteOperations := ⟨key, cont, s.clock + 1⟩ :: s.pendingWriteOperations }
      key).FilterInv := by
    refine h.addToRecordFilter ?_ key rfl fun r hr => ?_
    · rfl
    · rcases mem_cons.mp hr with rfl | hr
      · exact .inr rfl
      · exact .inl hr
  split
  · exact hstd.mono rfl (fun _ hr => hr) fun _ _ hr => .inl hr
  · exact hstd

theorem FilterInv.retrieve (key : Key) (prio : Fin 5) : (s.retrieve key prio).FilterInv := by
  have hsm : ∀ delivered posted reads, FilterInv
      { s with
        delivered := delivered
        posted := posted
        pendingReadOperationsByPriority := reads } := fun _ _ _ =>
    h.same rfl
  unfold State.retrieve
  split
  · exact hsm _ _ _
  split
  · exact hsm _ _ _
  split
  · exact hsm _ _ _
  · split
    · exact hsm _ _ _
    · exact (movesReads_dispatchPendingReadOperations _).filterInv (hsm _ _ _)

theorem FilterInv.finishReadOperation (i : Nat) (r : ReadOperation Content)
    (bodyMatches accepted : Bool) :
    (s.finishReadOperation i r bodyMatches accepted).FilterInv := by
  have hcm : ∀ req rec, (s.complete req rec).FilterInv := fun _ _ =>
    h.same rfl
  unfold State.finishReadOperation
  dsimp only
  split
  · exact (movesReads_forgetReadOperation s i).filterInv h
  · split
    · exact (movesReads_forgetReadOperation _ i).filterInv (hcm _ _)
    · exact (movesReads_forgetReadOperation _ i).filterInv ((hcm _ _).remove _)

end

/-! ## The traversal -/

variable {f : ContentsFilter}

theorem FilterInv.startSynchronization (h : s.FilterInv) {deleting : Option Path}
    (hy : s.synchronization = some ⟨none, deleting, f⟩) :
    FilterInv { s with synchronization := some ⟨some s.disk.keys, none, f⟩ } := by
  refine ⟨h.found, h.foundFile, h.inProgress.trans (by rw [hy]; rfl),
    fun _ _ r hr => h.added _ hy r hr, fun y' hy' path r hr => .inr fun paths hpth => .inl ?_⟩
  cases hy'
  cases hpth
  rw [← AList.mem_keys, ← AList.lookup_isSome]
  exact isSome_of_eq_some hr

theorem FilterInv.visit (h : s.FilterInv) {paths : List Path}
    (hy : s.synchronization = some ⟨some paths, none, f⟩) (path : Path) :
    (s.visit paths f path).FilterInv := by
  -- the other files are covered as before
  have hots : ∀ {p : Path} {r : Record Content}, s.disk.lookup p = some (.complete r) →
      p ≠ path → p.hash ∈ s.recordFilterHashesAddedDuringSynchronization ∨
        p ∈ paths.erase path ∨ f.mayContain p.hash = true := by
    intro p r hr hne
    refine (h.covered _ hy p r hr).imp_right fun hcv => ?_
    exact (hcv paths rfl).imp_left (mem_erase_of_ne hne).mpr
  have hipr : s.synchronizationInProgress = true := h.inProgress.trans (by rw [hy]; rfl)
  have ha := h.added _ hy
  unfold State.visit
  split
  case h_1 | h_2 =>
    refine ⟨h.found, h.foundFile, hipr, fun _ _ => ha, fun y' hy' p r hr => ?_⟩
    cases hy'
    by_cases hp : p = path
    · exact .inr fun _ _ => .inr (hp ▸ BloomFilter.mayContain_add_self (by decide) _ _)
    · refine (hots hr hp).imp_right fun hcv paths' hpth' => ?_
      cases hpth'
      exact hcv.imp_right (BloomFilter.mayContain_add _)
  case h_3 hcm _ =>
    refine ⟨h.found, h.foundFile, hipr, fun _ _ => ha, fun y' hy' p r hr => ?_⟩
    cases hy'
    have hp : p ≠ path := by
      rintro rfl
      exact hcm r hr
    refine (hots hr hp).imp_right fun hcv paths' hpth' => ?_
    cases hpth'
    exact hcv

theorem FilterInv.deleteEmptyFile (h : s.FilterInv) {unvisited : Option (List Path)} {path : Path}
    (hy : s.synchronization = some ⟨unvisited, some path, f⟩) :
    ({ s with synchronization := some ⟨unvisited, none, f⟩ }.deleteFile path).FilterInv := by
  have hipr : s.synchronizationInProgress = true := h.inProgress.trans (by rw [hy]; rfl)
  have hi : FilterInv { s with synchronization := some ⟨unvisited, none, f⟩ } := by
    refine ⟨h.found, h.foundFile, hipr, fun _ _ => h.added _ hy, fun y' hy' p r hr => ?_⟩
    cases hy'
    exact h.covered _ hy p r hr
  exact hi.deleteFile path

theorem FilterInv.finishSynchronization (h : s.FilterInv) {y : Synchronization}
    (hy : s.synchronization = some y) (hvsd : y.unvisited = some []) :
    (s.finishSynchronization y).FilterInv := by
  refine ⟨fun f hf r hr => ?_, fun f hf path r hr => ?_, rfl, fun y' hy' => ?_, fun y' hy' => ?_⟩
  · cases hf
    exact BloomFilter.mayContain_foldl_add (by decide) _ _ (.inr (h.added y hy r hr))
  · cases hf
    refine BloomFilter.mayContain_foldl_add (by decide) _ _ ?_
    rcases h.covered y hy path r hr with ha | hcv
    · exact .inr ha
    · exact .inl ((hcv [] hvsd).resolve_left not_mem_nil)
  · cases hy'
  · cases hy'

/-! ## The runs -/

variable {e : Event Content}

theorem filterInv_writeStep (h : s.FilterInv) (hw : s.activeWriteOperations[i]? = some w)
    (hst : s.writeStep i w e = some s') : s'.FilterInv := by
  have hm : w.record ∈ s.records := mem_append_right _ (mem_map_of_mem (mem_of_getElem? hw))
  revert hst
  fun_cases writeStep s i w e <;> intro hst <;> first | cases hst | rw [← some.inj hst]
  · exact h.setWrite hw rfl
  · exact (h.deleteFile _).setWrite hw rfl
  · exact (h.putFile _ .empty (by simp)).setWrite hw rfl
  · exact h.setWrite hw rfl
  · have hr : (s.setWrite i { w with phase := .written }).records = s.records :=
      records_setWrite hw rfl
    apply FilterInv.putFile
    · exact h.setWrite hw rfl
    · exact fun r _ => ⟨w.record, hr ▸ hm, rfl⟩
  · exact h.setWrite hw rfl
  · refine h.finishWriteOperation hw ?_ _
    rfl
  · refine h.finishWriteOperation hw ?_ _
    rfl

theorem filterInv_step (h : s.FilterInv) (hqui : s.BeginsQuietly e) (hst : s.step e = some s') :
    s'.FilterInv := by
  revert hst
  fun_cases step s e <;> intro hst <;> try cases hst
  case case1.refl key content => exact h.store key content
  case case2.refl key => exact (h.remove key).same rfl
  case case3.refl key priority => exact h.retrieve key priority
  case case4.refl =>
    refine h.synchronize fun hsy hsh => ?_
    obtain ⟨hpn, ha⟩ := hqui (by simp [beginsSynchronization, hsy, hsh])
    simp [records, hpn, ha]
  case case5.refl exceeds => exact h.shrinkIfNeeded exceeds
  · apply FilterInv.dispatchPendingWriteOperations
    exact h.same rfl
  · exact h.same rfl
  · exact h.same rfl
  · exact h.finishReadOperation _ _ _ _
  case case15.refl hy hvsd => exact h.finishSynchronization hy hvsd.1
  · apply FilterInv.synchronize
    · exact h.same rfl
    · intro hsy _
      obtain ⟨hpn, ha⟩ := hqui (by simpa only [beginsSynchronization, Bool.not_eq_true'] using hsy)
      simp [records, hpn, ha]
  · exact h.same rfl
  · apply FilterInv.deleteFile
    exact h.same rfl
  · exact h.startSynchronization ‹_›
  · exact h.visit ‹_› _
  · exact h.deleteEmptyFile ‹_›
  · exact h.same rfl
  · split
    · apply FilterInv.deleteFile
      exact h.same rfl
    · exact h.same rfl
  all_goals
    obtain ⟨w, hw, hwri⟩ := bind_eq_some_iff.mp hst
    exact filterInv_writeStep h hw hwri

theorem filterInv_opened (cap : Nat) (files : OldFiles Content) : (opened cap files).FilterInv := by
  refine FilterInv.synchronize ⟨?_, ?_, rfl, ?_, ?_⟩ fun _ _ => rfl
  · exact nofun
  · exact nofun
  · exact nofun
  · exact nofun

open Runs

/-- **The contents filter.** If every synchronization begins when no write is pending or active,
`mayContain` is true at every moment of every key that has a record. -/
theorem recordFilter_noFalseNegatives (capacity : Nat) (files : OldFiles Content)
    (events : List (Event Content))
    (hquiet : AllSteps step BeginsQuietly (opened capacity files) events) :
    AllStates step NoFalseNegatives (opened capacity files) events :=
  (invariant_of_allSteps (fun _ _ _ h hc hstep => filterInv_step h hc hstep)
    (filterInv_opened capacity files) hquiet).mono fun _ h => h.noFalseNegatives

def noFiles : OldFiles Unit := ⟨∅, nofun⟩

/-- Two keys whose hashes are different in the filter. -/
def exampleKey (n : Fin 2) : Key := ⟨"", "", "", Vector.replicate 20 n.val⟩

/-- The first record exceeds the capacity, so the storage is shrunk. The second is stored after
that. -/
def quietRun : List (Event Unit) :=
  [.startSynchronization, .finishSynchronization,
    .store (exampleKey 0) (), .writeTimer, .startWrite 0 false, .deleteOldFile 0,
    .createFile 0 true, .writeFile 0 true, .finishWrite 0 true,
    .startShrink, .visitToShrink (recordPathForKey (exampleKey 0)) true, .finishShrink,
    .store (exampleKey 1) (), .startSynchronization, .finishSynchronization]

theorem recordFilter_finds_stored : (run step (opened 1 noFiles) quietRun).isSome ∧
    AllSteps step BeginsQuietly (opened 1 noFiles) quietRun ∧
      AllStates step NoFalseNegatives (opened 1 noFiles) quietRun := by
  have hqui : AllSteps step BeginsQuietly (opened 1 noFiles) quietRun := by decide +kernel
  exact ⟨by decide +kernel, hqui, recordFilter_noFalseNegatives 1 noFiles _ hqui⟩

/-! ## A record that is missed -/

/-- As before, but the second record is stored before the shrink has finished. -/
def missingRun : List (Event Unit) :=
  [.startSynchronization, .finishSynchronization,
    .store (exampleKey 0) (), .writeTimer, .startWrite 0 false, .deleteOldFile 0,
    .createFile 0 true, .writeFile 0 true, .finishWrite 0 true,
    .store (exampleKey 1) (),
    .startShrink, .visitToShrink (recordPathForKey (exampleKey 0)) true, .finishShrink,
    .startSynchronization, .finishSynchronization]

theorem missingRun_result : (run step (opened 1 noFiles) missingRun).map
    (fun s => (s.pendingWriteOperations.map (·.key), s.mayContain (exampleKey 1))) =
      some ([exampleKey 1], false) := by
  decide +kernel

theorem pending_record_missed : ∃ s, run step (opened 1 noFiles) missingRun = some s ∧
    ¬ s.NoFalseNegatives := by
  obtain ⟨s, hs, hres⟩ := Option.map_eq_some_iff.mp missingRun_result
  obtain ⟨hpend, hmay⟩ := Prod.mk.inj hres
  refine ⟨s, hs, fun h => ?_⟩
  have hmem : exampleKey 1 ∈ s.pendingWriteOperations.map (·.key) := by
    rw [hpend]
    exact List.mem_cons_self
  obtain ⟨r, hr, hkey⟩ := List.mem_map.mp hmem
  exact absurd (hmay.symm.trans (h _ (.inl ⟨r, hr, hkey⟩))) (by simp)

end State

end WebKit.NetworkCache.Storage
