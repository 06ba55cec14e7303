import WebKit.NetworkCache.RecordFilter

/-!
# The network cache returns no stale records

A completion handler must not get a record that is older than the last store before the retrieval,
or that was removed before it. Lookups ask the pending writes, the active write and the disk in
turn, so it is enough that what each finds first is current: the newest record in memory, and the
file, unless a deletion of it is waiting or a write is going to replace it.

Removals break this in three ways. `remove` drops the newest pending write of the key only, and
never the active one; it does nothing if the filter misses the key; and the file may be read
before the deletion runs.
-/

namespace WebKit.NetworkCache.Storage

open List Function State

variable {Content : Type}

/-- The record is not older than the last store before the retrieval, and was not removed. -/
def Request.Accepts (q : Request) (r : Record Content) : Prop :=
  q.lastStore ≤ r.number ∧ q.lastRemove ≤ r.number

/-- Nothing, or a record that is not stale. -/
def Delivery.Fresh (d : Delivery Content) : Prop :=
  ∀ r, d.record = some r → r.key = d.request.key ∧ d.request.Accepts r

theorem fresh_none (q : Request) : (⟨q, none⟩ : Delivery Content).Fresh := nofun

/-- The old file is not deleted yet. -/
def WriteOperation.Early (w : WriteOperation Content) : Prop :=
  w.phase = .dispatched ∨ w.phase = .started

/-- The tasks on the main thread that are going to call `finishWriteOperation`. -/
def WriteOperation.callbacks (w : WriteOperation Content) : Nat :=
  (if w.phase = .dispatched ∨ w.phase = .finished then 0 else 1) + (if w.blobPosted then 1 else 0)

namespace State

variable {s s' : State Content}

def NeverStale (s : State Content) : Prop := ∀ d ∈ s.delivered, d.Fresh

/-! ## Removals that leave nothing behind -/

/-- At most one write of the key is pending, and none is active. -/
def RemovesAll (s : State Content) (key : Key) : Prop :=
  s.pendingWriteOperations.countP (fun r => r.key = key) ≤ 1 ∧
    ∀ w ∈ s.activeWriteOperations, w.record.key ≠ key

def LeavesNothing (s : State Content) : Event Content → Prop
  | .remove key => if s.mayContain key then s.RemovesAll key else ¬ s.Present key
  -- a read that fails removes the key, too
  | .finishRead i _ accepted => ∀ r, s.activeReadOperations[i]? = some r →
      accepted = true ∨ r.isCanceled = true ∨ s.mayContain r.request.key = false ∨
        (∀ w ∈ s.pendingWriteOperations, w.key ≠ r.request.key) ∨ s.RemovesAll r.request.key
  -- no deletion is waiting that was queued before the retrieval
  | .readFile i _ => ∀ r, s.activeReadOperations[i]? = some r →
      ∀ d ∈ s.deletions, d.key = r.request.key → r.request.time < d.number
  | _ => True

/-! ## The invariant -/

def Current (s : State Content) (r : Record Content) : Prop :=
  s.lastStore r.key ≤ r.number ∧ s.lastRemove r.key ≤ r.number

/-- A record of the key is going to replace the file. -/
def Replaces (s : State Content) (key : Key) : Prop :=
  (∃ r ∈ s.pendingWriteOperations, r.key = key) ∨
    ∃ w ∈ s.activeWriteOperations, w.record.key = key ∧ w.Early

/-- The numbers were given before. -/
structure ClockInv (s : State Content) : Prop where
  lastStore : ∀ key, s.lastStore key ≤ s.clock
  lastRemove : ∀ key, s.lastRemove key ≤ s.clock
  deletions : ∀ d ∈ s.deletions, d.number ≤ s.clock
  reading : ∀ r, s.Reading r → r.request.time ≤ s.clock

/-- What is known of an active write. -/
structure WriteInv (s : State Content) (w : WriteOperation Content) : Prop where
  activeCount : w.activeCount = w.callbacks
  blobPosted : w.phase = .dispatched → w.blobPosted = false
  file : ¬ w.Early → ∀ r,
    s.disk.lookup (recordPathForKey w.record.key) = some (.complete r) → r = w.record

/-- What is known of a read before the file is read. -/
structure ReadInv (s : State Content) (q : Request) : Prop where
  lastStore : q.lastStore ≤ q.time
  lastRemove : q.lastRemove ≤ q.time
  records : ∀ r ∈ s.records, r.key = q.key → q.time < r.number
  file : ∀ r, s.disk.lookup (recordPathForKey q.key) = some (.complete r) → r.key = q.key →
    q.Accepts r ∨ ∃ d ∈ s.deletions, d.key = q.key ∧ d.number ≤ q.time

structure FreshInv (s : State Content) : Prop where
  clock : s.ClockInv
  one : s.activeWriteOperations.length ≤ 1
  write : ∀ w ∈ s.activeWriteOperations, s.WriteInv w
  newest : s.capacity ≠ 0 → ∀ key r, retrieveFromMemory s.records key = some r → s.Current r
  file : s.capacity ≠ 0 → ∀ r, s.disk.lookup (recordPathForKey r.key) = some (.complete r) →
    s.Current r ∨ (∃ d ∈ s.deletions, d.key = r.key) ∨ s.Replaces r.key
  read : ∀ r, s.Reading r → r.isRead = false → s.ReadInv r.request
  result : ∀ r, s.Reading r → r.isRead = true → Delivery.Fresh ⟨r.request, r.resultRecord⟩
  posted : ∀ d ∈ s.posted, d.Fresh
  delivered : ∀ d ∈ s.delivered, d.Fresh

/-! ## Steps that change nothing in memory -/

/-- The read operations are the same, apart from those that are finished or canceled. -/
def SameReads (s s' : State Content) : Prop :=
  ∀ r', s'.Reading r' → ∃ r, s.Reading r ∧ r.request = r'.request ∧ r.isRead = r'.isRead ∧
    r.resultRecord = r'.resultRecord

theorem SameReads.of_subset (h : ∀ r, s'.Reading r → s.Reading r) : SameReads s s' :=
  fun r hr => ⟨r, h r hr, rfl, rfl, rfl⟩

/-- The writes, the deletions and the history are the same, and no file is new. -/
structure SameWrites (s s' : State Content) : Prop where
  capacity : s'.capacity = s.capacity
  pending : s'.pendingWriteOperations = s.pendingWriteOperations
  active : s'.activeWriteOperations = s.activeWriteOperations
  deletions : s'.deletions = s.deletions
  clock : s'.clock = s.clock
  lastStore : s'.lastStore = s.lastStore
  lastRemove : s'.lastRemove = s.lastRemove
  disk : ∀ path r, s'.disk.lookup path = some (.complete r) →
    s.disk.lookup path = some (.complete r)

theorem SameWrites.records (h : SameWrites s s') : s'.records = s.records := by
  rw [State.records, h.pending, h.active, ← State.records]

theorem SameWrites.current (h : SameWrites s s') (r : Record Content) :
    s'.Current r ↔ s.Current r := by
  rw [Current, h.lastStore, h.lastRemove, ← Current]

theorem SameWrites.replaces (h : SameWrites s s') (key : Key) :
    s'.Replaces key ↔ s.Replaces key := by
  rw [Replaces, h.pending, h.active, ← Replaces]

theorem ClockInv.later (h : s.ClockInv) (hrds : SameReads s s') (hclk : s.clock ≤ s'.clock)
    (hstr : s'.lastStore = s.lastStore) (hrem : s'.lastRemove = s.lastRemove)
    (hdl : ∀ d ∈ s'.deletions, d ∈ s.deletions ∨ d.number ≤ s'.clock) : s'.ClockInv := by
  refine ⟨fun key => ?_, fun key => ?_, fun d hd => ?_, fun r' hr' => ?_⟩
  · rw [hstr]
    exact (h.lastStore key).trans hclk
  · rw [hrem]
    exact (h.lastRemove key).trans hclk
  · exact (hdl d hd).elim (fun hd => (h.deletions d hd).trans hclk) id
  · obtain ⟨r, hr, hreq, _⟩ := hrds r' hr'
    rw [← hreq]
    exact (h.reading r hr).trans hclk

theorem WriteInv.of_disk {w : WriteOperation Content} (h : s.WriteInv w)
    (hdsk : ∀ path r, s'.disk.lookup path = some (.complete r) →
      s.disk.lookup path = some (.complete r)) : s'.WriteInv w :=
  ⟨h.activeCount, h.blobPosted, fun her r hr => h.file her r (hdsk _ r hr)⟩

theorem ReadInv.of_disk {q : Request} (h : s.ReadInv q)
    (hdsk : ∀ path r, s'.disk.lookup path = some (.complete r) →
      s.disk.lookup path = some (.complete r))
    (hrec : ∀ r ∈ s'.records, r ∈ s.records) (hdl : ∀ d ∈ s.deletions, d ∈ s'.deletions) :
    s'.ReadInv q := by
  refine ⟨h.lastStore, h.lastRemove, fun r hr => h.records r (hrec r hr), fun r hr hk => ?_⟩
  rcases h.file r (hdsk _ r hr) hk with hacc | ⟨d, hd, hd'⟩
  · exact .inl hacc
  · exact .inr ⟨d, hdl d hd, hd'⟩

theorem FreshInv.mono (h : s.FreshInv) (hrds : SameReads s s')
    (hpst : ∀ d ∈ s'.posted, d ∈ s.posted)
    (hdl : ∀ d ∈ s'.delivered, d ∈ s.delivered ∨ d.Fresh) (hsm : SameWrites s s') :
    s'.FreshInv where
  clock := h.clock.later hrds hsm.clock.ge hsm.lastStore hsm.lastRemove
    fun _ hd => .inl (hsm.deletions ▸ hd)
  one := by
    rw [hsm.active]
    exact h.one
  write w hw := by
    rw [hsm.active] at hw
    exact (h.write w hw).of_disk hsm.disk
  newest hc key r hr := by
    rw [hsm.capacity] at hc
    rw [hsm.records] at hr
    rw [hsm.current]
    exact h.newest hc key r hr
  file hc r hr := by
    rw [hsm.capacity] at hc
    rw [hsm.current, hsm.deletions, hsm.replaces]
    exact h.file hc r (hsm.disk _ r hr)
  read r' hr' hrd := by
    obtain ⟨r, hr, hreq, hird, _⟩ := hrds r' hr'
    rw [← hreq]
    exact (h.read r hr (hird.trans hrd)).of_disk hsm.disk (fun _ hr => hsm.records ▸ hr)
      fun _ hd => hsm.deletions ▸ hd
  result r' hr' hrd := by
    obtain ⟨r, hr, hreq, hird, hres⟩ := hrds r' hr'
    rw [← hreq, ← hres]
    exact h.result r hr (hird.trans hrd)
  posted d hd := h.posted d (hpst d hd)
  delivered d hd := (hdl d hd).elim (h.delivered d) id

theorem FreshInv.same (h : s.FreshInv)
    (hrds : ∀ r, s'.Reading r → s.Reading r := by exact fun _ hr => hr)
    (hsm : SameWrites s s' := by exact ⟨rfl, rfl, rfl, rfl, rfl, rfl, rfl, fun _ _ hr => hr⟩)
    (hpst : s'.posted = s.posted := by rfl) (hdl : s'.delivered = s.delivered := by rfl) :
    s'.FreshInv :=
  h.mono (.of_subset hrds) (fun _ hd => hpst ▸ hd) (fun _ hd => .inl (hdl ▸ hd)) hsm

theorem MovesReads.freshInv (hmvs : MovesReads s s') (h : s.FreshInv) : s'.FreshInv := by
  obtain ⟨pend, act, timer, rfl⟩ := hmvs.state
  exact h.same hmvs.reading

theorem FreshInv.deleteFile (h : s.FreshInv) (path : Path) : (s.deleteFile path).FreshInv := by
  refine h.same (fun _ hr => hr) ⟨rfl, rfl, rfl, rfl, rfl, rfl, rfl, fun p r hr => ?_⟩
  exact (lookup_deleteFile hr).2

theorem FreshInv.complete (h : s.FreshInv) {q : Request} {r : Option (Record Content)}
    (hfre : Delivery.Fresh ⟨q, r⟩) : (s.complete q r).FreshInv := by
  refine h.mono (.of_subset fun _ hr => hr) (fun _ hd => hd) ?_
    ⟨rfl, rfl, rfl, rfl, rfl, rfl, rfl, fun _ _ hr => hr⟩
  exact forall_mem_append.mpr ⟨fun _ => .inl, forall_mem_singleton.mpr (.inr hfre)⟩

/-! ## Stores -/

theorem update_le {f : Key → Nat} {n : Nat} (h : ∀ k, f k ≤ n) (key k : Key) :
    update f key n k ≤ n := by
  by_cases hk : k = key
  · rw [hk, update_self]
  · rw [update_of_ne hk]
    exact h k

theorem retrieveFromMemory_cons (r : Record Content) (recs : List (Record Content)) (key : Key) :
    retrieveFromMemory (r :: recs) key =
      if r.key = key then some r else retrieveFromMemory recs key := by
  unfold retrieveFromMemory
  by_cases h : r.key = key
  · simp [h]
  · simp [h]

variable {key : Key} {r : Record Content}

theorem key_of_retrieveFromMemory {recs : List (Record Content)}
    (h : retrieveFromMemory recs key = some r) : r.key = key := by
  simpa using find?_some h

theorem mem_of_retrieveFromMemory {records : List (Record Content)}
    (h : retrieveFromMemory records key = some r) : r ∈ records :=
  mem_of_find?_eq_some h

/-- A record is stored. -/
structure Stores (s s' : State Content) (r : Record Content) : Prop where
  number : r.number = s.clock + 1
  capacity : s'.capacity = s.capacity
  pending : s'.pendingWriteOperations = r :: s.pendingWriteOperations
  active : s'.activeWriteOperations = s.activeWriteOperations
  deletions : s'.deletions = s.deletions
  clock : s'.clock = s.clock + 1
  lastStore : s'.lastStore = Function.update s.lastStore r.key (s.clock + 1)
  lastRemove : s'.lastRemove = s.lastRemove
  disk : s'.disk = s.disk
  reading : ∀ r, s'.Reading r → s.Reading r
  posted : s'.posted = s.posted
  delivered : s'.delivered = s.delivered

theorem Stores.records (hsts : Stores s s' r) : s'.records = r :: s.records := by
  rw [State.records, hsts.pending, hsts.active]
  rfl

theorem Stores.current {r' : Record Content} (hsts : Stores s s' r) (hk : r'.key ≠ r.key) :
    s'.Current r' ↔ s.Current r' := by
  rw [Current, hsts.lastStore, hsts.lastRemove, update_of_ne hk, ← Current]

theorem Stores.freshInv (hsts : Stores s s' r) (h : s.FreshInv) : s'.FreshInv where
  clock := by
    refine ⟨fun key => ?_, fun key => ?_, fun d hd => ?_, fun r' hr' => ?_⟩
    · rw [hsts.lastStore, hsts.clock]
      exact update_le (fun k => Nat.le_succ_of_le (h.clock.lastStore k)) ..
    · rw [hsts.lastRemove, hsts.clock]
      exact Nat.le_succ_of_le (h.clock.lastRemove key)
    · rw [hsts.deletions] at hd
      rw [hsts.clock]
      exact Nat.le_succ_of_le (h.clock.deletions d hd)
    · rw [hsts.clock]
      exact Nat.le_succ_of_le (h.clock.reading r' (hsts.reading r' hr'))
  one := by
    rw [hsts.active]
    exact h.one
  write w hw := by
    rw [hsts.active] at hw
    exact (h.write w hw).of_disk fun _ _ hr => hsts.disk ▸ hr
  newest hc key r' hr' := by
    rw [hsts.capacity] at hc
    rw [hsts.records, retrieveFromMemory_cons] at hr'
    split at hr'
    · cases hr'
      rw [Current, hsts.lastStore, hsts.lastRemove, update_self, hsts.number]
      exact ⟨le_rfl, Nat.le_succ_of_le (h.clock.lastRemove _)⟩
    next hk =>
      rw [hsts.current (key_of_retrieveFromMemory hr' ▸ Ne.symm hk)]
      exact h.newest hc key r' hr'
  file hc r' hr' := by
    rw [hsts.capacity] at hc
    rw [hsts.disk] at hr'
    by_cases hk : r'.key = r.key
    · refine .inr (.inr (.inl ⟨r, ?_, hk.symm⟩))
      rw [hsts.pending]
      exact mem_cons_self
    rw [hsts.current hk, hsts.deletions]
    refine (h.file hc r' hr').imp_right fun hr' => hr'.imp_right fun hrp => ?_
    rw [Replaces, hsts.pending, hsts.active]
    refine hrp.imp_left fun hpn => ?_
    obtain ⟨r'', hr'', hk''⟩ := hpn
    exact ⟨r'', mem_cons_of_mem _ hr'', hk''⟩
  read r' hr' hrd := by
    obtain ⟨hstr, hrem, hrec, hfl⟩ := h.read r' (hsts.reading r' hr') hrd
    refine ⟨hstr, hrem, fun r'' hr'' hk => ?_, ?_⟩
    · rw [hsts.records] at hr''
      rcases mem_cons.mp hr'' with rfl | hr''
      · rw [hsts.number]
        exact Nat.lt_succ_of_le (h.clock.reading r' (hsts.reading r' hr'))
      · exact hrec r'' hr'' hk
    · rw [hsts.disk, hsts.deletions]
      exact hfl
  result r' hr' hrd := h.result r' (hsts.reading r' hr') hrd
  posted d hd := h.posted d (hsts.posted ▸ hd)
  delivered d hd := h.delivered d (hsts.delivered ▸ hd)

theorem FreshInv.tick (h : s.FreshInv) : FreshInv { s with clock := s.clock + 1 } where
  clock := ⟨fun key => Nat.le_succ_of_le (h.clock.lastStore key),
    fun key => Nat.le_succ_of_le (h.clock.lastRemove key),
    fun d hd => Nat.le_succ_of_le (h.clock.deletions d hd),
    fun r hr => Nat.le_succ_of_le (h.clock.reading r hr)⟩
  one := h.one
  write w hw := { h.write w hw with }
  newest := h.newest
  file := h.file
  read r hr hrd := { h.read r hr hrd with }
  result := h.result
  posted := h.posted
  delivered := h.delivered

theorem FreshInv.store (h : s.FreshInv) (key : Key) (cont : Content) :
    (s.store key cont).FreshInv := by
  unfold State.store
  dsimp only
  split
  next hz =>
    -- the storage is disabled, and only the history changes
    have htc := h.tick
    exact ⟨⟨update_le htc.clock.lastStore key, htc.clock.lastRemove, htc.clock.deletions,
      htc.clock.reading⟩, h.one, fun w hw => { h.write w hw with }, fun hc => absurd hz hc,
      fun hc => absurd hz hc, fun r hr hrd => { h.read r hr hrd with }, h.result, h.posted,
      h.delivered⟩
  · split <;> exact Stores.freshInv (r := ⟨key, cont, s.clock + 1⟩)
      ⟨rfl, rfl, rfl, rfl, rfl, rfl, rfl, rfl, rfl, fun _ hr => hr, rfl, rfl⟩ h

/-! ## Removals -/

theorem retrieveFromMemory_eraseP {key' : Key} (hne : key' ≠ key) (pend : List (Record Content)) :
    retrieveFromMemory (pend.eraseP fun r => r.key = key) key' = retrieveFromMemory pend key' := by
  induction pend with
  | nil => rfl
  | cons r rest ih =>
    by_cases hr : r.key = key
    · rw [eraseP_cons_of_pos (by simpa using hr), retrieveFromMemory_cons, if_neg (hr ▸ hne.symm)]
    · rw [eraseP_cons_of_neg (by simpa using hr), retrieveFromMemory_cons,
        retrieveFromMemory_cons, ih]

theorem retrieveFromMemory_append (l l' : List (Record Content)) (key : Key) :
    retrieveFromMemory (l ++ l') key =
      (retrieveFromMemory l key).or (retrieveFromMemory l' key) := find?_append ..

theorem key_ne_of_mem_eraseP {pend : List (Record Content)}
    (hc : pend.countP (fun r => r.key = key) ≤ 1)
    (hr : r ∈ pend.eraseP fun r => r.key = key) : r.key ≠ key := by
  induction pend with
  | nil => cases hr
  | cons r' rest ih =>
    by_cases hr' : r'.key = key
    · rw [countP_cons_of_pos (by simpa using hr')] at hc
      rw [eraseP_cons_of_pos (by simpa using hr')] at hr
      have hz : rest.countP (fun r => r.key = key) = 0 := by omega
      simpa using countP_eq_zero.mp hz r hr
    · rw [countP_cons_of_neg (by simpa using hr')] at hc
      rw [eraseP_cons_of_neg (by simpa using hr')] at hr
      rcases mem_cons.mp hr with rfl | hr
      · exact hr'
      · exact ih hc hr

theorem RemovesAll.records (h : s.RemovesAll key) :
    ∀ r ∈ (s.removeFromPendingWriteOperations key).records, r.key ≠ key := by
  intro r hr
  rcases mem_append.mp hr with hr | hr
  · exact key_ne_of_mem_eraseP h.1 hr
  · obtain ⟨w, hw, rfl⟩ := mem_map.mp hr
    exact h.2 w hw

/-- A key is removed, and the deletion of its file is queued. -/
structure Removes (s s' : State Content) (key : Key) : Prop where
  capacity : s'.capacity = s.capacity
  pending : s'.pendingWriteOperations = s.pendingWriteOperations.eraseP fun r => r.key = key
  active : s'.activeWriteOperations = s.activeWriteOperations
  deletions : s'.deletions = s.deletions ++ [⟨key, s.clock + 1⟩]
  clock : s'.clock = s.clock + 1
  lastStore : s'.lastStore = s.lastStore
  lastRemove : s'.lastRemove = s.lastRemove
  disk : s'.disk = s.disk
  reading : ∀ r, s'.Reading r → s.Reading r
  posted : s'.posted = s.posted
  delivered : s'.delivered = s.delivered

section

variable (hrm : Removes s s' key)

include hrm

theorem Removes.mem_records (hr : r ∈ s'.records) : r ∈ s.records := by
  rw [records, hrm.pending, hrm.active] at hr
  exact (mem_append.mp hr).elim
    (fun hr => mem_append_left _ (mem_of_mem_eraseP hr)) (mem_append_right _)

theorem Removes.current (r : Record Content) : s'.Current r ↔ s.Current r := by
  rw [Current, hrm.lastStore, hrm.lastRemove, ← Current]

theorem Removes.retrieveFromMemory {key' : Key}
    (hk : key' ≠ key ∨ ∀ r ∈ s.pendingWriteOperations, r.key ≠ key) :
    retrieveFromMemory s'.records key' = retrieveFromMemory s.records key' := by
  rw [records, records, retrieveFromMemory_append, retrieveFromMemory_append,
    hrm.pending, hrm.active]
  rcases hk with hne | hno
  · rw [retrieveFromMemory_eraseP hne]
  · rw [eraseP_of_forall_not (by simpa using hno)]

/-- Either nothing is dropped from memory, or nothing of the key is left there. -/
theorem Removes.freshInv (h : s.FreshInv)
    (hcl : (∀ r ∈ s.pendingWriteOperations, r.key ≠ key) ∨ ∀ r ∈ s'.records, r.key ≠ key) :
    s'.FreshInv where
  clock := by
    refine h.clock.later (.of_subset hrm.reading) ?_ hrm.lastStore hrm.lastRemove ?_
    · rw [hrm.clock]
      exact Nat.le_succ _
    · rw [hrm.deletions, hrm.clock]
      exact forall_mem_append.mpr ⟨fun _ => .inl, forall_mem_singleton.mpr (.inr le_rfl)⟩
  one := by
    rw [hrm.active]
    exact h.one
  write w hw := by
    rw [hrm.active] at hw
    exact (h.write w hw).of_disk fun _ _ hr => hrm.disk ▸ hr
  newest hc k r hr := by
    rw [hrm.capacity] at hc
    rw [hrm.current]
    rcases hcl with hno | hgn
    · rw [hrm.retrieveFromMemory (.inr hno)] at hr
      exact h.newest hc k r hr
    · have hne : k ≠ key := key_of_retrieveFromMemory hr ▸ hgn r (mem_of_retrieveFromMemory hr)
      rw [hrm.retrieveFromMemory (.inl hne)] at hr
      exact h.newest hc k r hr
  file hc r hr := by
    rw [hrm.capacity] at hc
    rw [hrm.disk] at hr
    rw [hrm.current, hrm.deletions]
    by_cases hk : r.key = key
    · exact .inr (.inl ⟨_, mem_append_right _ mem_cons_self, hk.symm⟩)
    rcases h.file hc r hr with hcur | ⟨d, hd, hdk⟩ | ⟨r', hr', hk'⟩ | ha
    · exact .inl hcur
    · exact .inr (.inl ⟨d, mem_append_left _ hd, hdk⟩)
    · refine .inr (.inr (.inl ⟨r', ?_, hk'⟩))
      rw [hrm.pending]
      exact (mem_eraseP_of_neg (by simpa [hk'] using hk)).mpr hr'
    · refine .inr (.inr (.inr ?_))
      rw [hrm.active]
      exact ha
  read r hr hrd := by
    refine (h.read r (hrm.reading r hr) hrd).of_disk (fun _ _ hr => hrm.disk ▸ hr)
      (fun _ => hrm.mem_records) fun d hd => ?_
    rw [hrm.deletions]
    exact mem_append_left _ hd
  result r hr hrd := h.result r (hrm.reading r hr) hrd
  posted d hd := h.posted d (hrm.posted ▸ hd)
  delivered d hd := h.delivered d (hrm.delivered ▸ hd)

end

theorem remove_of_mayContain (hmay : s.mayContain key = true) : Removes s (s.remove key) key := by
  have hmay' : ¬ mayContain { s with clock := s.clock + 1 } key = false := by
    show ¬ s.mayContain key = false
    simp [hmay]
  rw [remove]
  rw [if_neg hmay']
  exact ⟨rfl, rfl, rfl, rfl, rfl, rfl, rfl, rfl, fun _ hr => hr, rfl, rfl⟩

theorem remove_of_not_mayContain (hmay : s.mayContain key = false) :
    s.remove key = { s with clock := s.clock + 1 } := by
  exact if_pos hmay

theorem RemovesAll.of_remove (h : s.RemovesAll key) (hmay : s.mayContain key = true) :
    ∀ r ∈ (s.remove key).records, r.key ≠ key := by
  have hrm := remove_of_mayContain hmay
  intro r hr
  rw [State.records, hrm.pending, hrm.active] at hr
  exact h.records r hr

theorem FreshInv.remove (h : s.FreshInv)
    (hcl : s.mayContain key = false ∨ (∀ r ∈ s.pendingWriteOperations, r.key ≠ key) ∨
      s.RemovesAll key) : (s.remove key).FreshInv := by
  by_cases hmay : s.mayContain key = true
  · refine (remove_of_mayContain hmay).freshInv h ?_
    rcases hcl with hn | hno | ha
    · simp [hmay] at hn
    · exact .inl hno
    · exact .inr (ha.of_remove hmay)
  · rw [remove_of_not_mayContain (by simpa using hmay)]
    exact h.tick

theorem FreshInv.recordRemoval (h : s.FreshInv) (hrec : ∀ r ∈ s.records, r.key ≠ key)
    (hfl : ∀ r, s.disk.lookup (recordPathForKey key) = some (.complete r) → r.key = key →
      ∃ d ∈ s.deletions, d.key = key) :
    FreshInv { s with lastRemove := update s.lastRemove key s.clock } := by
  have hcur : ∀ r : Record Content, r.key ≠ key → s.Current r →
      Current { s with lastRemove := update s.lastRemove key s.clock } r := by
    intro r hne hr
    refine ⟨hr.1, ?_⟩
    show update s.lastRemove key s.clock r.key ≤ r.number
    rw [update_of_ne hne]
    exact hr.2
  refine ⟨⟨h.clock.lastStore, fun k => ?_, h.clock.deletions, h.clock.reading⟩, h.one,
    fun w hw => { h.write w hw with }, fun hc k r hr => ?_, fun hc r hr => ?_,
    fun r hr hrd => { h.read r hr hrd with }, h.result, h.posted, h.delivered⟩
  · exact update_le h.clock.lastRemove key k
  · exact hcur r (hrec r (mem_of_retrieveFromMemory hr)) (h.newest hc k r hr)
  · by_cases hkey : r.key = key
    · obtain ⟨d, hd, hdk⟩ := hfl r (hkey ▸ hr) hkey
      exact .inr (.inl ⟨d, hd, hdk.trans hkey.symm⟩)
    · exact (h.file hc r hr).imp_left (hcur r hkey)

theorem FreshInv.callRemove (h : s.FreshInv)
    (hcl : if s.mayContain key then s.RemovesAll key else ¬ s.Present key) :
    (s.callRemove key).FreshInv := by
  unfold State.callRemove
  by_cases hmay : s.mayContain key = true
  · rw [if_pos hmay] at hcl
    refine (h.remove (.inr (.inr hcl))).recordRemoval (hcl.of_remove hmay) fun r _ _ => ?_
    rw [(remove_of_mayContain hmay).deletions]
    exact ⟨_, mem_append_right _ mem_cons_self, rfl⟩
  · rw [if_neg hmay] at hcl
    rw [remove_of_not_mayContain (by simpa using hmay)]
    refine h.tick.recordRemoval (fun r hr hk => hcl ?_) fun r hr hk => ?_
    · rcases mem_append.mp hr with hr | hr
      · exact .inl ⟨r, hr, hk⟩
      · obtain ⟨w, hw, rfl⟩ := mem_map.mp hr
        exact .inr (.inl ⟨w, hw, hk⟩)
    · exact absurd (.inr (.inr ⟨r, hr, hk⟩)) hcl

/-! ## Writes -/

theorem FreshInv.active_eq (h : s.FreshInv) {i : Nat} {w : WriteOperation Content}
    (hw : s.activeWriteOperations[i]? = some w) : i = 0 ∧ s.activeWriteOperations = [w] := by
  have hone := h.one
  obtain ⟨hi, hg⟩ := List.getElem?_eq_some_iff.mp hw
  obtain rfl : i = 0 := by omega
  refine ⟨rfl, ?_⟩
  match ha : s.activeWriteOperations with
  | [] => simp [ha] at hi
  | [w'] => simpa [ha] using hg
  | _ :: _ :: _ => simp [ha] at hone

/-- The active write goes on. It may complete its file. -/
structure Progresses (s s' : State Content) (w w' : WriteOperation Content) : Prop where
  record : w'.record = w.record
  capacity : s'.capacity = s.capacity
  pending : s'.pendingWriteOperations = s.pendingWriteOperations
  before : s.activeWriteOperations = [w]
  after : s'.activeWriteOperations = [w']
  deletions : s'.deletions = s.deletions
  clock : s'.clock = s.clock
  lastStore : s'.lastStore = s.lastStore
  lastRemove : s'.lastRemove = s.lastRemove
  reading : ∀ r, s'.Reading r → s.Reading r
  posted : s'.posted = s.posted
  delivered : s'.delivered = s.delivered
  disk : ∀ path r, s'.disk.lookup path = some (.complete r) →
    s.disk.lookup path = some (.complete r) ∨
      (path = recordPathForKey w.record.key ∧ r = w.record)
  early : w.Early → w'.Early ∨
    ∀ r, s'.disk.lookup (recordPathForKey w.record.key) ≠ some (.complete r)
  write : s'.WriteInv w'

section

variable {w w' : WriteOperation Content}

section

variable (hprog : Progresses s s' w w')

include hprog

theorem Progresses.records : s'.records = s.records := by
  rw [State.records, State.records, hprog.pending, hprog.before, hprog.after,
    map_singleton, map_singleton, hprog.record]

theorem Progresses.mem_records : w.record ∈ s.records := by
  rw [State.records, hprog.before]
  exact mem_append_right _ mem_cons_self

theorem Progresses.current (r : Record Content) : s'.Current r ↔ s.Current r := by
  rw [Current, hprog.lastStore, hprog.lastRemove, ← Current]

theorem Progresses.freshInv (h : s.FreshInv) : s'.FreshInv where
  clock := h.clock.later (.of_subset hprog.reading) hprog.clock.ge hprog.lastStore
    hprog.lastRemove fun _ hd => .inl (hprog.deletions ▸ hd)
  one := by
    rw [hprog.after]
    exact le_refl 1
  write v hv := by
    rw [hprog.after] at hv
    rw [mem_singleton.mp hv]
    exact hprog.write
  newest hc key r hr := by
    rw [hprog.capacity] at hc
    rw [hprog.records] at hr
    rw [hprog.current]
    exact h.newest hc key r hr
  file hc r hr := by
    rw [hprog.capacity] at hc
    rw [hprog.current, hprog.deletions]
    rcases hprog.disk _ r hr with hr' | ⟨_, rfl⟩
    · rcases h.file hc r hr' with hcur | hdln | hpn | ⟨v, hv, hk, her⟩
      · exact .inl hcur
      · exact .inr (.inl hdln)
      · refine .inr (.inr (.inl ?_))
        rw [hprog.pending]
        exact hpn
      · rw [hprog.before] at hv
        obtain rfl := mem_singleton.mp hv
        rcases hprog.early her with her' | hno
        · refine .inr (.inr (.inr ⟨w', ?_, by rw [hprog.record, hk], her'⟩))
          rw [hprog.after]
          exact mem_cons_self
        · rw [hk] at hno
          exact absurd hr (hno r)
    · -- the file is new, and a newer record of the key is pending or there is none
      by_cases hpn : ∃ r ∈ s.pendingWriteOperations, r.key = w.record.key
      · refine .inr (.inr (.inl ?_))
        rw [hprog.pending]
        exact hpn
      refine .inl (h.newest hc w.record.key w.record ?_)
      have hno : retrieveFromMemory s.pendingWriteOperations w.record.key = none :=
        find?_eq_none.mpr fun r hr hk =>
          hpn ⟨r, hr, by simpa using hk⟩
      rw [State.records, retrieveFromMemory_append, hno, hprog.before]
      simp [retrieveFromMemory]
  read r hr hrd := by
    obtain ⟨hstr, hrem, hrec, hfl⟩ := h.read r (hprog.reading r hr) hrd
    refine ⟨hstr, hrem, ?_, fun r' hr' hk => ?_⟩
    · rw [hprog.records]
      exact hrec
    · rw [hprog.deletions]
      rcases hprog.disk _ r' hr' with hr' | ⟨_, rfl⟩
      · exact hfl r' hr' hk
      · have hlt := hrec w.record hprog.mem_records hk
        exact .inl ⟨le_of_lt (hstr.trans_lt hlt), le_of_lt (hrem.trans_lt hlt)⟩
  result r hr hrd := h.result r (hprog.reading r hr) hrd
  posted d hd := h.posted d (hprog.posted ▸ hd)
  delivered d hd := h.delivered d (hprog.delivered ▸ hd)

end

theorem FreshInv.dropWrite (h : s.FreshInv) (ha : s.activeWriteOperations = [w])
    (hla : ¬ w.Early) : FreshInv { s with activeWriteOperations := [] } := by
  obtain ⟨hlastStore, hlastRemove, hdl, hrdg⟩ := h.clock
  refine ⟨⟨hlastStore, hlastRemove, hdl, hrdg⟩, Nat.zero_le _,
    forall_mem_nil _,
    fun hc key r hr => ?_, fun hc r hr => ?_, fun r hr hrd => ?_, h.result,
    h.posted, h.delivered⟩
  · refine h.newest hc key r ?_
    have hr' : retrieveFromMemory s.pendingWriteOperations key = some r := by
      simpa [records] using hr
    rw [records, retrieveFromMemory_append, hr']
    rfl
  · rcases h.file hc r hr with hcur | hdln | hpn | ⟨v, hv, _, her⟩
    · exact .inl hcur
    · exact .inr (.inl hdln)
    · exact .inr (.inr (.inl hpn))
    · rw [ha] at hv
      rw [mem_singleton.mp hv] at her
      exact absurd her hla
  · obtain ⟨hstr, hrem, hrec, hfl⟩ := h.read r hr hrd
    refine ⟨hstr, hrem, fun r' hr' => hrec r' ?_, hfl⟩
    exact mem_append_left _ (by simpa [records] using hr')

end

theorem FreshInv.dispatchPendingWriteOperations (h : s.FreshInv) :
    s.dispatchPendingWriteOperations.FreshInv := by
  rcases s.dispatchPendingWriteOperations_cases with heq | ⟨rest, r, hpn, ha, heq⟩
  · rw [heq]
    exact h
  rw [heq]
  set s' := dispatchWriteOperation { s with pendingWriteOperations := rest } r
  have haft : s'.activeWriteOperations = [⟨r, .dispatched, 0, false⟩] := by
    rw [← ha]
    rfl
  have hrest : s'.pendingWriteOperations = rest := rfl
  have hrec : s'.records = s.records := by
    rw [records, records, hrest, haft, hpn, ha]
    simp
  refine ⟨⟨h.clock.lastStore, h.clock.lastRemove, h.clock.deletions, h.clock.reading⟩, ?_,
    fun w hw => ?_, fun hc key r' hr' => ?_, fun hc r' hr' => ?_, fun r' hr' hrd => ?_,
    h.result, h.posted, h.delivered⟩
  · rw [haft]
    exact le_refl 1
  · rw [haft] at hw
    obtain rfl := mem_singleton.mp hw
    exact ⟨rfl, fun _ => rfl, fun hla => absurd (.inl rfl) hla⟩
  · rw [hrec] at hr'
    exact h.newest hc key r' hr'
  · refine (h.file hc r' hr').imp_right fun hr' => hr'.imp_right fun hrp => ?_
    rw [Replaces, hpn, ha] at hrp
    rw [Replaces, hrest, haft]
    rcases hrp with ⟨r'', hr'', hk⟩ | ⟨w, hw, _⟩
    · rcases mem_append.mp hr'' with hr'' | hr''
      · exact .inl ⟨r'', hr'', hk⟩
      · rw [mem_singleton.mp hr''] at hk
        exact .inr ⟨_, mem_cons_self, hk, .inl rfl⟩
    · cases hw
  · obtain ⟨hstr, hrem, hrec', hfl⟩ := h.read r' hr' hrd
    refine ⟨hstr, hrem, ?_, hfl⟩
    rw [hrec]
    exact hrec'

theorem FreshInv.shrinkIfNeeded (h : s.FreshInv) (exceeds : Bool) :
    (s.shrinkIfNeeded exceeds).FreshInv := by
  unfold State.shrinkIfNeeded State.shrink
  split
  · split
    · exact h
    · exact h.same
  · exact h

theorem FreshInv.synchronize (h : s.FreshInv) : s.synchronize.FreshInv := by
  unfold State.synchronize
  split
  · exact h
  · exact h.same

open WriteOperation

theorem FreshInv.finishWriteOperation (h : s.FreshInv) {i : Nat} {w w' : WriteOperation Content}
    (hw : s.activeWriteOperations[i]? = some w) (hrcd : w'.record = w.record)
    (hc : w'.activeCount = w.activeCount) (hcl : w.callbacks = w'.callbacks + 1)
    (hds : w.phase ≠ .dispatched)
    (hphs : w'.phase = w.phase ∨ (w.phase = .written ∧ w'.phase = .finished)) (exceeds : Bool) :
    (s.finishWriteOperation i w' exceeds).FreshInv := by
  obtain ⟨rfl, ha⟩ := h.active_eq hw
  obtain ⟨hactiveCount, hbl, hfl⟩ := h.write w (ha ▸ mem_cons_self)
  have her : w'.Early ↔ w.Early := by
    rcases hphs with heq | ⟨hwr, hf⟩
    · rw [Early, heq, ← Early]
    · simp [Early, hwr, hf]
  have hn : w'.phase ≠ .dispatched := by
    rcases hphs with heq | ⟨_, hf⟩
    · rwa [heq]
    · simp [hf]
  unfold State.finishWriteOperation
  split
  · have hprog : Progresses s (s.setWrite 0 { w' with activeCount := w'.activeCount - 1 }) w
        { w' with activeCount := w'.activeCount - 1 } := by
      refine ⟨hrcd, rfl, rfl, ha, ?_, rfl, rfl, rfl, rfl, fun _ hr => hr, rfl, rfl,
        fun _ _ hr => .inl hr, fun hw => .inl (her.mpr hw), ?_,
        fun hphs => absurd hphs hn, fun hla => ?_⟩
      · simp [setWrite, ha]
      · show w'.activeCount - 1 = w'.callbacks
        rw [hc, hactiveCount, hcl]
        rfl
      · rw [hrcd]
        exact hfl fun hw => hla (her.mpr hw)
    exact hprog.freshInv h
  next hls =>
    refine FreshInv.shrinkIfNeeded (FreshInv.dispatchPendingWriteOperations ?_) exceeds
    have hz : w'.callbacks = 0 := by
      omega
    -- every task has run, so the file is written
    have hla : ¬ w.Early := by
      intro hw
      rcases her.mpr hw with hdi | hst
      · exact hn hdi
      · simp [callbacks, hst] at hz
    rw [ha]
    exact h.dropWrite ha hla

end State

end WebKit.NetworkCache.Storage
