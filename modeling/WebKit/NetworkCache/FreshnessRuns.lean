import WebKit.NetworkCache.Freshness

/-!
# Runs of the network cache without stale records

Each step that meets the condition keeps the invariant: the steps of an active write, those of the
reads, and the tasks that only delete files.
-/

namespace WebKit.NetworkCache.Storage

open List Function WriteOperation

namespace State

variable {Content : Type} {s s' : State Content}

/-! ## The steps of an active write -/

section

variable {i : Nat} {w : WriteOperation Content}

section

variable (h : s.FreshInv) (hw : s.activeWriteOperations[i]? = some w)

include h hw

theorem FreshInv.progress {w' : WriteOperation Content} (hrcd : w'.record = w.record)
    (hcnt : w'.activeCount = w'.callbacks) (hds : w'.phase ≠ .dispatched)
    (her : w'.Early ↔ w.Early) : (s.setWrite i w').FreshInv := by
  obtain ⟨rfl, ha⟩ := h.active_eq hw
  have hwri := h.write w (ha ▸ mem_cons_self)
  have hpr : Progresses s (s.setWrite 0 w') w w' := by
    refine ⟨hrcd, rfl, rfl, ha, ?_, rfl, rfl, rfl, rfl, fun _ hr => hr, rfl, rfl,
      fun _ _ hr => .inl hr, fun hw => .inl (her.mpr hw), hcnt,
      fun hphs => absurd hphs hds, fun hlate => ?_⟩
    · simp [setWrite, ha]
    · rw [hrcd]
      exact hwri.file fun hw => hlate (her.mpr hw)
  exact hpr.freshInv h

theorem FreshInv.startWrite (hphs : w.phase = .dispatched) (storesBlob : Bool) :
    (s.setWrite i { w with
      phase := .started
      activeCount := w.activeCount + 1 + (if storesBlob then 1 else 0)
      blobPosted := storesBlob }).FreshInv := by
  obtain ⟨hcnt, hbl, _⟩ := h.write w (mem_of_getElem? hw)
  refine h.progress hw rfl ?_ (by simp) (iff_of_true (.inr rfl) (.inl hphs))
  show w.activeCount + 1 + _ = _
  rw [hcnt]
  simp [callbacks, hphs, hbl hphs]

theorem FreshInv.deleteOldFile (hphs : w.phase = .started) :
    ((s.deleteFile (recordPathForKey w.record.key)).setWrite i
      { w with phase := .replacing }).FreshInv := by
  obtain ⟨rfl, ha⟩ := h.active_eq hw
  obtain ⟨hcnt, _, _⟩ := h.write w (ha ▸ mem_cons_self)
  have hno : ∀ r, (s.deleteFile (recordPathForKey w.record.key)).disk.lookup
      (recordPathForKey w.record.key) ≠ some (.complete r) :=
    fun r hr => (lookup_deleteFile hr).1 rfl
  have hpr : Progresses s ((s.deleteFile (recordPathForKey w.record.key)).setWrite 0
      { w with phase := .replacing }) w { w with phase := .replacing } := by
    refine ⟨rfl, rfl, rfl, ha, ?_, rfl, rfl, rfl, rfl, fun _ hr => hr, rfl, rfl,
      fun _ _ hr => .inl (lookup_deleteFile hr).2, fun _ => .inr hno, ?_, by simp,
      fun _ r hr => absurd hr (hno r)⟩
    · simp [setWrite, State.deleteFile, ha]
    · show w.activeCount = _
      rw [hcnt]
      simp [callbacks, hphs]
  exact hpr.freshInv h

end

variable {phase : WritePhase}

section

variable (h : s.FreshInv) (hw : s.activeWriteOperations[i]? = some w) (hlate : ¬ w.Early)
  (hcnt : w.callbacks = callbacks { w with phase := phase })

include h hw hlate hcnt

theorem FreshInv.putFile {file : File Content} (hds : phase ≠ .dispatched)
    (hfl : ∀ r, file = .complete r → r = w.record) :
    ((s.putFile (recordPathForKey w.record.key) file).setWrite i
      { w with phase := phase }).FreshInv := by
  obtain ⟨rfl, ha⟩ := h.active_eq hw
  have hwri := h.write w (ha ▸ mem_cons_self)
  have hpr : Progresses s ((s.putFile (recordPathForKey w.record.key) file).setWrite 0
      { w with phase := phase }) w { w with phase := phase } := by
    refine ⟨rfl, rfl, rfl, ha, ?_, rfl, rfl, rfl, rfl, fun _ hr => hr, rfl, rfl,
      fun path r hr => ?_, fun hw => absurd hw hlate, hwri.activeCount.trans hcnt,
      fun hphs => absurd hphs hds, fun _ r hr => ?_⟩
    · simp [setWrite, State.putFile, ha]
    · change (s.putFile _ file).disk.lookup path = _ at hr
      rw [lookup_putFile] at hr
      split at hr
      next hpt => exact .inr ⟨hpt, hfl r (Option.some.inj hr)⟩
      · exact .inl hr
    · change (s.putFile _ file).disk.lookup _ = _ at hr
      rw [lookup_putFile, if_pos rfl] at hr
      exact hfl r (Option.some.inj hr)
  exact hpr.freshInv h

theorem FreshInv.fail (hphs : phase ≠ .dispatched ∧ phase ≠ .started) :
    (s.setWrite i { w with phase := phase }).FreshInv :=
  h.progress hw rfl ((h.write w (mem_of_getElem? hw)).activeCount.trans hcnt) hphs.1
    (iff_of_false (fun her => her.elim hphs.1 hphs.2) hlate)

end

theorem freshInv_writeStep (h : s.FreshInv) (hw : s.activeWriteOperations[i]? = some w)
    {e : Event Content} (hst : s.writeStep i w e = some s') : s'.FreshInv := by
  have hwri := h.write w (mem_of_getElem? hw)
  revert hst
  fun_cases writeStep s i w e <;> intro hst <;> first | cases hst | rw [← Option.some.inj hst]
  · exact h.startWrite hw ‹_› _
  · exact h.deleteOldFile hw ‹_›
  · have hphs : w.phase = .replacing := ‹_›
    exact h.putFile hw (by simp [Early, hphs]) (by simp [callbacks, hphs]) (by simp) (by simp)
  · have hphs : w.phase = .replacing := ‹_›
    exact h.fail hw (by simp [Early, hphs]) (by simp [callbacks, hphs]) (by simp)
  · have hphs : w.phase = .created := ‹_›
    refine h.putFile hw (by simp [Early, hphs]) (by simp [callbacks, hphs]) (by simp) fun r hr => ?_
    split at hr
    · exact (File.complete.inj hr).symm
    · cases hr
  · have hphs : w.phase = .created := ‹_›
    exact h.fail hw (by simp [Early, hphs]) (by simp [callbacks, hphs]) (by simp)
  · have hpst : w.blobPosted = true := ‹_›
    refine h.finishWriteOperation hw ?_ ?_ ?_ (fun hphs => ?_) ?_ _
    · rfl
    · rfl
    · simp [callbacks, hpst]
    · exact absurd (hpst.symm.trans (hwri.blobPosted hphs)) (by simp)
    · exact .inl rfl
  · have hphs : w.phase = .written := ‹_›
    refine h.finishWriteOperation hw ?_ ?_ ?_ ?_ ?_ _
    · rfl
    · rfl
    · simp [callbacks, hphs, add_comm]
    · simp [hphs]
    · exact .inr ⟨hphs, rfl⟩

end

/-! ## Reads -/

theorem FreshInv.postRecord (h : s.FreshInv) {key : Key} {r : Record Content}
    (hcap : s.capacity ≠ 0) (hr : retrieveFromMemory s.records key = some r) :
    FreshInv { s with
      posted := s.posted ++ [⟨⟨key, s.lastStore key, s.lastRemove key, s.clock⟩, some r⟩] } := by
  refine ⟨?_, h.one, fun w hw => { h.write w hw with }, h.newest, h.file,
    fun r hr hrd => { h.read r hr hrd with }, h.result, fun d hd => ?_, h.delivered⟩
  · exact ⟨h.clock.lastStore, h.clock.lastRemove, h.clock.deletions, h.clock.reading⟩
  · rcases mem_append.mp hd with hd | hd
    · exact h.posted d hd
    rw [mem_singleton.mp hd]
    rintro r' ⟨⟩
    have hk := key_of_retrieveFromMemory hr
    have hc := h.newest hcap key r hr
    rw [Current, hk] at hc
    exact ⟨hk, hc⟩

theorem FreshInv.withReads (h : s.FreshInv) (pend : Fin 5 → List (ReadOperation Content))
    (act : List (ReadOperation Content))
    (hrdg : ∀ r, (∃ prio, r ∈ pend prio) ∨ r ∈ act → s.Reading r ∨
      (r.request.time ≤ s.clock ∧ (r.isRead = false → s.ReadInv r.request) ∧
        (r.isRead = true → Delivery.Fresh ⟨r.request, r.resultRecord⟩))) :
    FreshInv { s with
      pendingReadOperationsByPriority := pend
      activeReadOperations := act } := by
  refine ⟨⟨h.clock.lastStore, h.clock.lastRemove, h.clock.deletions, fun r hr => ?_⟩, h.one,
    fun w hw => { h.write w hw with }, h.newest, h.file, fun r hr hunr => ?_,
    fun r hr hrd => ?_, h.posted, h.delivered⟩
  · rcases hrdg r hr with hr | ⟨htm, _, _⟩
    · exact h.clock.reading r hr
    · exact htm
  · have hi : s.ReadInv r.request := by
      rcases hrdg r hr with hr | ⟨_, hi, _⟩
      · exact h.read r hr hunr
      · exact hi hunr
    exact { hi with }
  · rcases hrdg r hr with hr | ⟨_, _, hfre⟩
    · exact h.result r hr hrd
    · exact hfre hrd

theorem FreshInv.beginRead (h : s.FreshInv) {key : Key} {prio : Fin 5}
    (hc : s.capacity ≠ 0) (hno : retrieveFromMemory s.records key = none) :
    FreshInv { s with
      pendingReadOperationsByPriority :=
        update s.pendingReadOperationsByPriority prio
          (⟨⟨key, s.lastStore key, s.lastRemove key, s.clock⟩, false, none, false⟩ ::
            s.pendingReadOperationsByPriority prio) } := by
  have hgn : ∀ r ∈ s.records, r.key ≠ key := by
    intro r hr hk
    exact find?_eq_none.mp hno r hr (by simpa using hk)
  have hrp : ¬ s.Replaces key := by
    rintro (⟨r, hr, hk⟩ | ⟨w, hw, hk, _⟩)
    · exact hgn r (mem_append_left _ hr) hk
    · exact hgn w.record (mem_append_right _ (mem_map_of_mem hw)) hk
  have hnew : s.ReadInv ⟨key, s.lastStore key, s.lastRemove key, s.clock⟩ := by
    refine ⟨h.clock.lastStore key, h.clock.lastRemove key,
      fun r hr hk => absurd hk (hgn r hr), fun r hr hk => ?_⟩
    obtain rfl : r.key = key := hk
    rcases h.file hc r hr with hcur | ⟨d, hd, hdk⟩ | hrep
    · exact .inl hcur
    · exact .inr ⟨d, hd, hdk, h.clock.deletions d hd⟩
    · exact absurd hrep hrp
  refine h.withReads _ s.activeReadOperations fun r hr => ?_
  rcases hr with ⟨p, hp⟩ | hr
  · by_cases heq : p = prio
    · subst heq
      rw [update_self] at hp
      rcases mem_cons.mp hp with rfl | hp
      · exact .inr ⟨le_rfl, fun _ => hnew, fun _ => fresh_none _⟩
      · exact .inl (.inl ⟨p, hp⟩)
    · rw [update_of_ne heq] at hp
      exact .inl (.inl ⟨p, hp⟩)
  · exact .inl (.inr hr)

theorem FreshInv.retrieve (h : s.FreshInv) (key : Key) (prio : Fin 5) :
    (s.retrieve key prio).FreshInv := by
  unfold State.retrieve
  split
  · exact h.complete (fresh_none _)
  next hc =>
    split
    · exact h.complete (fresh_none _)
    have happ := retrieveFromMemory_append s.pendingWriteOperations
      (s.activeWriteOperations.map (·.record)) key
    split
    next r hpn =>
      rw [hpn] at happ
      exact h.postRecord hc happ
    next hpn =>
      rw [hpn, Option.none_or] at happ
      split
      next r ha => exact h.postRecord hc (happ.trans ha)
      next ha =>
        exact (movesReads_dispatchPendingReadOperations _).freshInv (h.beginRead hc (happ.trans ha))

variable {r : ReadOperation Content}

/-- The file is read, and no deletion is waiting that was queued before the retrieval. -/
theorem FreshInv.readFile (h : s.FreshInv) {i : Nat} (hr : s.activeReadOperations[i]? = some r)
    (hunr : r.isRead = false)
    (hdl : ∀ d ∈ s.deletions, d.key = r.request.key → r.request.time < d.number)
    (valid : Bool) :
    FreshInv { s with
      activeReadOperations := s.activeReadOperations.set i
        { r with isRead := true, resultRecord := s.readRecord r.request.key valid } } := by
  have hm : s.Reading r := .inr (mem_of_getElem? hr)
  obtain ⟨_, _, _, hfl⟩ := h.read r hm hunr
  have hfre : Delivery.Fresh ⟨r.request, s.readRecord r.request.key valid⟩ := by
    intro r' hr'
    simp only [readRecord] at hr'
    split at hr'
    next record hlku =>
      split at hr'
      next hvld =>
        obtain rfl := Option.some.inj hr'
        refine ⟨hvld.1, ?_⟩
        rcases hfl record hlku hvld.1 with hacc | ⟨d, hd, hdk, hle⟩
        · exact hacc
        · exact absurd (hdl d hd hdk) (not_lt.mpr hle)
      · exact nomatch hr'
    · exact nomatch hr'
  refine h.withReads s.pendingReadOperationsByPriority _ fun r' hr' => ?_
  rcases hr' with hr' | hr'
  · exact .inl (.inl hr')
  · rcases mem_or_eq_of_mem_set hr' with hr' | rfl
    · exact .inl (.inr hr')
    · exact .inr ⟨h.clock.reading r hm, nofun, fun _ => hfre⟩

theorem FreshInv.finishReadOperation (h : s.FreshInv) {i : Nat}
    (hr : s.activeReadOperations[i]? = some r) (hrd : r.isRead = true)
    (bodyMatches accepted : Bool) (hcl : accepted = true ∨ r.isCanceled = true ∨ s.mayContain
      r.request.key = false ∨ (∀ w ∈ s.pendingWriteOperations, w.key ≠ r.request.key) ∨
      s.RemovesAll r.request.key) :
    (s.finishReadOperation i r bodyMatches accepted).FreshInv := by
  have hfre : Delivery.Fresh ⟨r.request, if bodyMatches then r.resultRecord else none⟩ := by
    split
    · exact h.result r (.inr (mem_of_getElem? hr)) hrd
    · exact fresh_none _
  have hcm := h.complete hfre
  unfold State.finishReadOperation
  dsimp only
  split
  · exact (movesReads_forgetReadOperation s i).freshInv h
  next hcn =>
    split
    · exact (movesReads_forgetReadOperation _ i).freshInv hcm
    next hac =>
      refine (movesReads_forgetReadOperation _ i).freshInv (hcm.remove ?_)
      exact (hcl.resolve_left hac).resolve_left hcn

variable {d : Delivery Content}

theorem fresh_of_mem_canceled {operations : List (ReadOperation Content)}
    (hd : d ∈ canceled operations) : d.Fresh := by
  obtain ⟨r, _, rfl⟩ := mem_map.mp hd
  exact fresh_none _

theorem FreshInv.cancelAllReadOperations (h : s.FreshInv) : s.cancelAllReadOperations.FreshInv := by
  refine h.mono (fun r' hr' => ?_) (fun _ hd => hd) (fun d hd => ?_)
    ⟨rfl, rfl, rfl, rfl, rfl, rfl, rfl, fun _ _ hr => hr⟩
  · rcases hr' with ⟨p, hp⟩ | hr'
    · cases hp
    · obtain ⟨r, hr, rfl⟩ := mem_map.mp hr'
      exact ⟨r, .inr hr, rfl, rfl, rfl⟩
  · rcases mem_append.mp hd with hd | hd
    · exact (mem_append.mp hd).imp_right fresh_of_mem_canceled
    · obtain ⟨prio, _, hd⟩ := mem_flatMap.mp hd
      exact .inr (fresh_of_mem_canceled hd)

theorem FreshInv.deliver (h : s.FreshInv) {i : Nat} (hd : s.posted[i]? = some d) :
    FreshInv { s with posted := s.posted.eraseIdx i, delivered := s.delivered ++ [d] } := by
  refine h.mono (.of_subset fun _ hr => hr) (fun _ hd => mem_of_mem_eraseIdx hd)
    (fun d' hd' => ?_) ⟨rfl, rfl, rfl, rfl, rfl, rfl, rfl, fun _ _ hr => hr⟩
  rcases mem_append.mp hd' with hd' | hd'
  · exact .inl hd'
  · rw [mem_singleton.mp hd']
    exact .inr (h.posted d (mem_of_getElem? hd))

/-! ## Deletions -/

theorem FreshInv.runDeletion (h : s.FreshInv) {d : Deletion} {rest : List Deletion}
    (hd : s.deletions = d :: rest) :
    ({ s with deletions := rest }.deleteFile (recordPathForKey d.key)).FreshInv := by
  set s' := { s with deletions := rest }.deleteFile (recordPathForKey d.key)
  have hds : ∀ path r, s'.disk.lookup path = some (.complete r) →
      path ≠ recordPathForKey d.key ∧ s.disk.lookup path = some (.complete r) :=
    fun _ _ hr => lookup_deleteFile hr
  -- a deletion of a file that is still there is still waiting
  have hwtg : ∀ d' ∈ s.deletions, recordPathForKey d'.key ≠ recordPathForKey d.key → d' ∈ rest := by
    intro d' hd' hne
    rw [hd] at hd'
    rcases mem_cons.mp hd' with rfl | hd'
    · exact absurd rfl hne
    · exact hd'
  refine ⟨⟨h.clock.lastStore, h.clock.lastRemove, fun d' hd' => ?_, h.clock.reading⟩, h.one,
    fun w hw => ?_, h.newest, fun hc r hr => ?_, fun r hr hunr => ?_, h.result, h.posted,
    h.delivered⟩
  · exact h.clock.deletions d' (hd ▸ mem_cons_of_mem d hd')
  · exact (h.write w hw).of_disk fun path r hr => (hds path r hr).2
  · obtain ⟨hne, hr'⟩ := hds _ r hr
    rcases h.file hc r hr' with hcur | ⟨d', hd', hk⟩ | hrp
    · exact .inl hcur
    · exact .inr (.inl ⟨d', hwtg d' hd' (hk ▸ hne), hk⟩)
    · exact .inr (.inr hrp)
  · obtain ⟨hstr, hrem, hrec, hfl⟩ := h.read r hr hunr
    refine ⟨hstr, hrem, hrec, fun r' hr' hk => ?_⟩
    obtain ⟨hne, hr''⟩ := hds _ r' hr'
    rcases hfl r' hr'' hk with hacc | ⟨d', hd', hdk, hle⟩
    · exact .inl hacc
    · exact .inr ⟨d', hwtg d' hd' (hdk ▸ hne), hdk, hle⟩

/-! ## The runs -/

/-- Every step that leaves nothing behind keeps the invariant. -/
theorem freshInv_step (h : s.FreshInv) {e : Event Content} (hcl : s.LeavesNothing e)
    (hst : s.step e = some s') : s'.FreshInv := by
  have hqui : ∀ flt added progress synchronization shrinkInProgress shrinking timer,
      FreshInv { s with
        recordFilter := flt
        recordFilterHashesAddedDuringSynchronization := added
        synchronizationInProgress := progress
        synchronization := synchronization
        shrinkInProgress := shrinkInProgress
        shrinking := shrinking
        writeOperationDispatchTimer := timer } := fun _ _ _ _ _ _ _ =>
    h.same
  revert hst
  fun_cases step s e <;> intro hst <;> try cases hst
  · exact h.store _ _
  · exact h.callRemove hcl
  · exact h.retrieve _ _
  · exact h.synchronize
  · exact h.shrinkIfNeeded _
  · exact FreshInv.dispatchPendingWriteOperations (hqui ..)
  · exact h.cancelAllReadOperations
  · exact h.deliver ‹_›
  case case12.refl hr hrd => exact h.finishReadOperation hr hrd _ _ (hcl _ hr)
  · exact hqui ..
  · exact FreshInv.synchronize (hqui ..)
  case case21.refl hr hunr => exact h.readFile hr (by simpa using hunr) (hcl _ hr) _
  · exact h.runDeletion ‹_›
  · exact hqui ..
  · unfold State.visit
    split <;> exact hqui ..
  · exact FreshInv.deleteFile (hqui ..) _
  · exact hqui ..
  · split
    · exact FreshInv.deleteFile (hqui ..) _
    · exact hqui ..
  all_goals
    obtain ⟨w, hw, hwri⟩ := Option.bind_eq_some_iff.mp hst
    exact freshInv_writeStep h hw hwri

theorem freshInv_opened (cap : Nat) (files : OldFiles Content) : (opened cap files).FreshInv := by
  refine FreshInv.synchronize ⟨⟨fun _ => le_refl 0, fun _ => le_refl 0, ?_, ?_⟩,
    Nat.zero_le _, ?_, ?_, fun _ r hr => .inl ?_, ?_, ?_, ?_, ?_⟩
  · exact forall_mem_nil _
  · rintro r (⟨_, hr⟩ | hr) <;> cases hr
  · exact forall_mem_nil _
  · exact nofun
  · exact ⟨Nat.zero_le _, Nat.zero_le _⟩
  · rintro r (⟨_, hr⟩ | hr) <;> cases hr
  · rintro r (⟨_, hr⟩ | hr) <;> cases hr
  · exact forall_mem_nil _
  · exact forall_mem_nil _

open Runs

/-- **No stale records.** If every removal leaves nothing of its key in memory, and no file is read
while a deletion is waiting that was queued before the retrieval, then no completion handler ever
gets a record that is older than the last store before its retrieval, or that was removed before
it. -/
theorem retrieve_neverStale (capacity : Nat) (files : OldFiles Content)
    (events : List (Event Content))
    (hclean : AllSteps step LeavesNothing (opened capacity files) events) :
    AllStates step NeverStale (opened capacity files) events :=
  (invariant_of_allSteps (fun _ _ _ h hc hstep => freshInv_step h hc hstep)
    (freshInv_opened capacity files) hclean).mono fun _ h => h.delivered

def lowest : Fin 5 := ⟨0, by decide⟩

def removedKey : Key := exampleKey ⟨0, Nat.two_pos⟩

/-- A record is stored, retrieved, and removed before it is written. -/
def freshRun : List (Event Unit) :=
  [.store removedKey (), .retrieve removedKey lowest, .deliver 0, .remove removedKey,
    .retrieve removedKey lowest, .runDeletion, .readFile 0 false, .finishRead 0 true true]

theorem removed_record_not_retrieved : (run step (opened 1 noFiles) freshRun).map
      (fun s => s.delivered.map fun d => d.record.map (·.number)) = some [some 1, none] ∧
    AllSteps step LeavesNothing (opened 1 noFiles) freshRun ∧
      AllStates step NeverStale (opened 1 noFiles) freshRun := by
  have hclean : AllSteps step LeavesNothing (opened 1 noFiles) freshRun := by
    refine fun s₁ h₁ => ⟨trivial, fun s₂ h₂ => ⟨trivial, fun s₃ h₃ => ⟨trivial, fun s₄ h₄ =>
      ⟨?_, fun s₅ h₅ => ⟨trivial, fun s₆ h₆ => ⟨trivial, fun s₇ _ => ⟨?_, fun s₈ _ =>
        ⟨fun _ _ => .inl rfl, trivial⟩⟩⟩⟩⟩⟩⟩⟩
    all_goals cases h₁; cases h₂; cases h₃
    · exact ⟨by decide, forall_mem_nil _⟩
    · cases h₄; cases h₅; cases h₆
      exact fun _ _ => forall_mem_nil _
  exact ⟨by decide +kernel, hclean, retrieve_neverStale 1 noFiles _ hclean⟩

/-! ## A record that was removed -/

/-- The record is removed while it is being written. -/
def staleRun : List (Event Unit) :=
  [.store removedKey (), .writeTimer, .remove removedKey, .retrieve removedKey lowest, .deliver 0]

theorem staleRun_result : (run step (opened 1 noFiles) staleRun).map
    (fun s => s.delivered.map fun d => (d.record.map (·.number), d.request.lastRemove)) =
      some [(some 1, 2)] := by
  decide +kernel

theorem removed_record_retrieved : ∃ s, run step (opened 1 noFiles) staleRun = some s ∧
    ¬ s.NeverStale := by
  obtain ⟨s, hs, hres⟩ := Option.map_eq_some_iff.mp staleRun_result
  refine ⟨s, hs, fun h => ?_⟩
  have hmem : (some 1, 2) ∈
      s.delivered.map fun d => (d.record.map (·.number), d.request.lastRemove) := by
    rw [hres]
    exact mem_cons_self
  obtain ⟨d, hd, heq⟩ := mem_map.mp hmem
  obtain ⟨hnum, hrem⟩ := Prod.mk.inj heq
  obtain ⟨r, hr, hone⟩ := Option.map_eq_some_iff.mp hnum
  have hacc := (h d hd r hr).2.2
  rw [hrem, hone] at hacc
  exact absurd hacc (by decide)

end State

end WebKit.NetworkCache.Storage
