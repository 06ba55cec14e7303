import Mathlib.Data.List.AList
import WebKit.Lib.Runs
import WebKit.Wtf.BloomFilter

/-!
# The storage of the network cache

`NetworkCache::Storage` as a machine. Its steps are the calls on the main thread, the tasks that
run there later, and those of the background queues: writes, one at a time, each of which deletes
the old file, creates a new one and writes it; reads; deletions, in order; and the traversals of
`synchronize` and `shrink`. A traversal meets every file that is there from its beginning to its
end, and any other name or not.

A record is one file here; a read whose body is missing or belongs to another record has no result.
What depends on sizes, on the clock or on chance is in the events.

Every store and every removal gets a number. The last numbers for each key, and what the completion
handlers got, are only recorded.
-/

namespace WebKit.NetworkCache

/-- `SHA1::Digest`. -/
abbrev HashType := Vector (BitVec 8) 20

abbrev ContentsFilter := Wtf.BloomFilter 18

structure Key where
  partition : String
  identifier : String
  range : String
  hash : HashType
  deriving DecidableEq

/-- The name of a record's file: the hash, in the directory of the partition. -/
structure Path where
  partition : String
  hash : HashType
  deriving DecidableEq

namespace Storage

def recordPathForKey (key : Key) : Path := ⟨key.partition, key.hash⟩

structure Record (Content : Type) where
  key : Key
  content : Content
  /-- The number of the store. -/
  number : Nat

inductive File (Content : Type)
  /-- Created, and not written yet. -/
  | empty
  /-- Not written to its end. -/
  | broken
  | complete (record : Record Content)

abbrev Disk (Content : Type) := AList (fun _ : Path => File Content)

/-- How far the background task of an active write is. -/
inductive WritePhase
  | dispatched
  | started
  /-- The old file is deleted. -/
  | replacing
  | created
  | written
  /-- The completion of the write has run. -/
  | finished
  deriving DecidableEq

structure WriteOperation (Content : Type) where
  record : Record Content
  phase : WritePhase
  activeCount : Nat
  /-- The task that `storeBodyAsBlob` dispatches to the main thread is still to run. -/
  blobPosted : Bool

/-- A call of `retrieve`, with the numbers of the last store and of the last removal then. -/
structure Request where
  key : Key
  lastStore : Nat
  lastRemove : Nat
  time : Nat

/-- What a completion handler gets. -/
structure Delivery (Content : Type) where
  request : Request
  record : Option (Record Content)

structure ReadOperation (Content : Type) where
  request : Request
  /-- The file was read. -/
  isRead : Bool
  resultRecord : Option (Record Content)
  isCanceled : Bool

/-- A deletion on the serial queue, and the number of its removal. -/
structure Deletion where
  key : Key
  number : Nat

/-- The background task of `synchronize`. The files still to be met were there when the traversal
began, if it has, and were not deleted since. -/
structure Synchronization where
  unvisited : Option (List Path)
  /-- A file whose size was 0, before it is deleted. -/
  deleting : Option Path
  recordFilter : ContentsFilter

structure State (Content : Type) where
  capacity : Nat
  recordFilter : Option ContentsFilter
  synchronizationInProgress : Bool
  shrinkInProgress : Bool
  recordFilterHashesAddedDuringSynchronization : List HashType
  pendingReadOperationsByPriority : Fin 5 → List (ReadOperation Content)
  activeReadOperations : List (ReadOperation Content)
  readOperationTimeoutTimer : Bool
  /-- The newest one first. -/
  pendingWriteOperations : List (Record Content)
  activeWriteOperations : List (WriteOperation Content)
  writeOperationDispatchTimer : Bool
  /-- Completions from `retrieveFromMemory` that were dispatched to the main thread. -/
  posted : List (Delivery Content)
  /-- The serial queue, the oldest one first. -/
  deletions : List Deletion
  synchronization : Option Synchronization
  /-- The files that the traversal of `shrink` is still to meet. -/
  shrinking : Option (Option (List Path))
  disk : Disk Content
  clock : Nat
  lastStore : Key → Nat
  lastRemove : Key → Nat
  delivered : List (Delivery Content)

inductive Event (Content : Type)
  | store (key : Key) (content : Content)
  | remove (key : Key)
  | retrieve (key : Key) (priority : Fin 5)
  | synchronize
  /-- A call from `setCapacity`. -/
  | shrinkIfNeeded (exceeds : Bool)
  | writeTimer
  | readTimer
  | deliver (i : Nat)
  /-- The task that `storeBodyAsBlob` dispatched. -/
  | finishBlob (i : Nat) (exceeds : Bool)
  /-- The completion of the write of the record. -/
  | finishWrite (i : Nat) (exceeds : Bool)
  | finishRead (i : Nat) (bodyMatches accepted : Bool)
  | finishSynchronization
  | finishShrink
  | startWrite (i : Nat) (storesBlob : Bool)
  | deleteOldFile (i : Nat)
  | createFile (i : Nat) (success : Bool)
  | writeFile (i : Nat) (success : Bool)
  | readFile (i : Nat) (valid : Bool)
  | runDeletion
  | startSynchronization
  | visit (path : Path)
  | deleteEmptyFile
  | startShrink
  | visitToShrink (path : Path) (shouldDelete : Bool)

namespace State

variable {Content : Type}

/-! ## The filter -/

variable (s : State Content)

def addToRecordFilter (key : Key) : State Content :=
  { s with
    recordFilter := s.recordFilter.map fun f => f.add key.hash
    recordFilterHashesAddedDuringSynchronization :=
      if s.synchronizationInProgress then
        s.recordFilterHashesAddedDuringSynchronization ++ [key.hash]
      else s.recordFilterHashesAddedDuringSynchronization }

def mayContain (s : State Content) (key : Key) : Bool :=
  match s.recordFilter with
  | none => true
  | some f => f.mayContain key.hash

/-! ## Files -/

/-- A file that is deleted need not be met any more. -/
def deleteFile (path : Path) : State Content :=
  { s with
    disk := s.disk.erase path
    synchronization := s.synchronization.map fun y =>
      { y with unvisited := y.unvisited.map fun paths => paths.erase path }
    shrinking := s.shrinking.map fun unvisited => unvisited.map fun paths => paths.erase path }

def putFile (path : Path) (file : File Content) : State Content :=
  { s with disk := s.disk.insert path file }

/-! ## `synchronize` and `shrink` -/

def synchronize : State Content :=
  if s.synchronizationInProgress = true ∨ s.shrinkInProgress = true then s
  else { s with synchronizationInProgress := true, synchronization := some ⟨none, none, .new⟩ }

/-- What the traversal of `synchronize` does with a file. -/
def visit (paths : List Path) (f : ContentsFilter) (path : Path) :
    State Content :=
  match s.disk.lookup path with
  | some (.complete _) | some .broken =>
    { s with synchronization := some ⟨some (paths.erase path), none, f.add path.hash⟩ }
  -- the size is 0
  | _ => { s with synchronization := some ⟨some (paths.erase path), some path, f⟩ }

/-- The task on the main thread that ends `synchronize`. -/
def finishSynchronization (y : Synchronization) : State Content :=
  { s with
    recordFilter :=
      some (s.recordFilterHashesAddedDuringSynchronization.foldl (fun f h => f.add h)
        y.recordFilter)
    recordFilterHashesAddedDuringSynchronization := []
    synchronizationInProgress := false
    synchronization := none }

def shrink : State Content :=
  if s.shrinkInProgress = true ∨ s.synchronizationInProgress = true then s
  else { s with shrinkInProgress := true, shrinking := some none }

def shrinkIfNeeded (exceeds : Bool) : State Content :=
  if exceeds then s.shrink else s

/-! ## Writes -/

def dispatchWriteOperation (record : Record Content) : State Content :=
  addToRecordFilter
    { s with activeWriteOperations := ⟨record, .dispatched, 0, false⟩ :: s.activeWriteOperations }
    record.key

def maximumActiveWriteOperationCount : Nat := 1

/-- The loop of `dispatchPendingWriteOperations`, which ends with the pending writes at last. -/
def dispatchPendingWriteOperationsLoop : Nat → State Content → State Content
  | 0, s => s
  | fuel + 1, s =>
    match s.pendingWriteOperations.getLast? with
    | none => s
    | some record =>
      if s.activeWriteOperations.length ≥ maximumActiveWriteOperationCount then s
      else
        dispatchPendingWriteOperationsLoop fuel (dispatchWriteOperation
          { s with pendingWriteOperations := s.pendingWriteOperations.dropLast } record)

def dispatchPendingWriteOperations : State Content :=
  dispatchPendingWriteOperationsLoop s.pendingWriteOperations.length s

variable (i : Nat)

def setWrite (w : WriteOperation Content) : State Content :=
  { s with activeWriteOperations := s.activeWriteOperations.set i w }

def finishWriteOperation (w : WriteOperation Content) (exceeds : Bool) : State Content :=
  if w.activeCount - 1 ≠ 0 then s.setWrite i { w with activeCount := w.activeCount - 1 }
  else
    (dispatchPendingWriteOperations
      { s with activeWriteOperations := s.activeWriteOperations.eraseIdx i }).shrinkIfNeeded exceeds

def store (key : Key) (content : Content) : State Content :=
  let number := s.clock + 1
  let s := { s with clock := number, lastStore := Function.update s.lastStore key number }
  if s.capacity = 0 then s
  else
    let s := addToRecordFilter
      { s with pendingWriteOperations := ⟨key, content, number⟩ :: s.pendingWriteOperations } key
    if s.pendingWriteOperations.length = 1 then { s with writeOperationDispatchTimer := true }
    else s

/-! ## Removals -/

def removeFromPendingWriteOperations (key : Key) : State Content :=
  { s with pendingWriteOperations := s.pendingWriteOperations.eraseP fun r => r.key = key }

def remove (key : Key) : State Content :=
  let number := s.clock + 1
  let s := { s with clock := number }
  if s.mayContain key = false then s
  else
    let s := s.removeFromPendingWriteOperations key
    { s with deletions := s.deletions ++ [⟨key, number⟩] }

/-- A call of `remove` from outside. -/
def callRemove (key : Key) : State Content :=
  let s' := s.remove key
  { s' with lastRemove := Function.update s'.lastRemove key s'.clock }

/-! ## Reads -/

def complete (request : Request) (record : Option (Record Content)) :
    State Content :=
  { s with delivered := s.delivered ++ [⟨request, record⟩] }

def dispatchReadOperation (r : ReadOperation Content) : State Content :=
  { s with
    activeReadOperations := r :: s.activeReadOperations
    readOperationTimeoutTimer := true }

def maximumActiveReadOperationCount : Nat := 5

/-- The loop of `dispatchPendingReadOperations` over the priorities that are left. -/
def dispatchPendingReadOperationsLoop : List (Fin 5) → State Content → State Content
  | [], s => s
  | priority :: rest, s =>
    if s.activeReadOperations.length > maximumActiveReadOperationCount then s
    else
      match (s.pendingReadOperationsByPriority priority).getLast? with
      | none => dispatchPendingReadOperationsLoop rest s
      | some r =>
        dispatchPendingReadOperationsLoop rest (dispatchReadOperation
          { s with
            pendingReadOperationsByPriority :=
              Function.update s.pendingReadOperationsByPriority priority
                (s.pendingReadOperationsByPriority priority).dropLast } r)

def dispatchPendingReadOperations : State Content :=
  dispatchPendingReadOperationsLoop [4, 3, 2, 1, 0] s

def retrieveFromMemory (records : List (Record Content)) (key : Key) : Option (Record Content) :=
  records.find? fun r => r.key = key

def retrieve (key : Key) (priority : Fin 5) : State Content :=
  let request := ⟨key, s.lastStore key, s.lastRemove key, s.clock⟩
  if s.capacity = 0 then s.complete request none
  else if s.mayContain key = false then s.complete request none
  else
    match retrieveFromMemory s.pendingWriteOperations key with
    | some r => { s with posted := s.posted ++ [⟨request, some r⟩] }
    | none =>
      match retrieveFromMemory (s.activeWriteOperations.map (·.record)) key with
      | some r => { s with posted := s.posted ++ [⟨request, some r⟩] }
      | none =>
        dispatchPendingReadOperations
          { s with
            pendingReadOperationsByPriority :=
              Function.update s.pendingReadOperationsByPriority priority
                (⟨request, false, none, false⟩ ::
                  s.pendingReadOperationsByPriority priority) }

/-- `readRecord`: what is in the file must be a record of the key. -/
def readRecord (key : Key) (valid : Bool) : Option (Record Content) :=
  match s.disk.lookup (recordPathForKey key) with
  | some (.complete record) => if record.key = key ∧ valid = true then some record else none
  | _ => none

/-- The end of `finishReadOperation`, where the operation is not active any more. -/
def forgetReadOperation : State Content :=
  let s := { s with activeReadOperations := s.activeReadOperations.eraseIdx i }
  dispatchPendingReadOperations
    { s with
      readOperationTimeoutTimer :=
        s.readOperationTimeoutTimer && !s.activeReadOperations.isEmpty }

def finishReadOperation (r : ReadOperation Content) (bodyMatches accepted : Bool) : State Content :=
  if r.isCanceled then s.forgetReadOperation i
  else
    let s := s.complete r.request (if bodyMatches then r.resultRecord else none)
    if accepted then s.forgetReadOperation i
    else (s.remove r.request.key).forgetReadOperation i

/-- `ReadOperation::cancel`, where it was not called before. -/
def canceled (operations : List (ReadOperation Content)) : List (Delivery Content) :=
  (operations.filter fun r => !r.isCanceled).map fun r => ⟨r.request, none⟩

def cancelAllReadOperations : State Content :=
  { s with
    activeReadOperations := s.activeReadOperations.map fun r => { r with isCanceled := true }
    pendingReadOperationsByPriority := fun _ => []
    readOperationTimeoutTimer := false
    delivered := s.delivered ++ canceled s.activeReadOperations ++
      ([4, 3, 2, 1, 0] : List (Fin 5)).flatMap fun priority =>
        canceled (s.pendingReadOperationsByPriority priority).reverse }

/-! ## Steps -/

/-- The steps of an active write on the background queue. -/
def writeStep (w : WriteOperation Content) :
    Event Content → Option (State Content)
  | .startWrite _ storesBlob =>
    if w.phase = .dispatched then
      some (s.setWrite i { w with
        phase := .started
        activeCount := w.activeCount + 1 + (if storesBlob then 1 else 0)
        blobPosted := storesBlob })
    else none
  | .deleteOldFile _ =>
    if w.phase = .started then
      some ((s.deleteFile (recordPathForKey w.record.key)).setWrite i
        { w with phase := .replacing })
    else none
  | .createFile _ success =>
    if w.phase = .replacing then
      if success then
        some ((s.putFile (recordPathForKey w.record.key) .empty).setWrite i
          { w with phase := .created })
      else some (s.setWrite i { w with phase := .created })
    else none
  | .writeFile _ success =>
    if w.phase = .created then
      let s' := s.setWrite i { w with phase := .written }
      match s.disk.lookup (recordPathForKey w.record.key) with
      | some .empty =>
        some (s'.putFile (recordPathForKey w.record.key)
          (if success then .complete w.record else .broken))
      -- the file was not created, or was deleted since
      | _ => some s'
    else none
  | .finishBlob _ exceeds =>
    if w.blobPosted then some (s.finishWriteOperation i { w with blobPosted := false } exceeds)
    else none
  | .finishWrite _ exceeds =>
    if w.phase = .written then
      some (s.finishWriteOperation i { w with phase := .finished } exceeds)
    else none
  | _ => none

def step : Event Content → Option (State Content)
  | .store key content => some (s.store key content)
  | .remove key => some (s.callRemove key)
  | .retrieve key priority => some (s.retrieve key priority)
  | .synchronize => some s.synchronize
  | .shrinkIfNeeded exceeds => some (s.shrinkIfNeeded exceeds)
  | .writeTimer =>
    if s.writeOperationDispatchTimer then
      some (dispatchPendingWriteOperations { s with writeOperationDispatchTimer := false })
    else none
  | .readTimer => if s.readOperationTimeoutTimer then some s.cancelAllReadOperations else none
  | .deliver i =>
    match s.posted[i]? with
    | some d => some { s with posted := s.posted.eraseIdx i, delivered := s.delivered ++ [d] }
    | none => none
  | .finishRead i bodyMatches accepted =>
    match s.activeReadOperations[i]? with
    | some r =>
      if r.isRead then some (s.finishReadOperation i r bodyMatches accepted) else none
    | none => none
  | .finishSynchronization =>
    match s.synchronization with
    | some y =>
      if y.unvisited = some [] ∧ y.deleting = none then some (s.finishSynchronization y)
      else none
    | none => none
  | .finishShrink =>
    if s.shrinking = some (some []) then
      some ({ s with shrinking := none, shrinkInProgress := false }).synchronize
    else none
  | .readFile i valid =>
    match s.activeReadOperations[i]? with
    | some r =>
      if r.isRead then none
      else
        some { s with
          activeReadOperations := s.activeReadOperations.set i
            { r with isRead := true, resultRecord := s.readRecord r.request.key valid } }
    | none => none
  | .runDeletion =>
    match s.deletions with
    | d :: rest => some ({ s with deletions := rest }.deleteFile (recordPathForKey d.key))
    | [] => none
  | .startSynchronization =>
    match s.synchronization with
    | some ⟨none, _, f⟩ => some { s with synchronization := some ⟨some s.disk.keys, none, f⟩ }
    | _ => none
  | .visit path =>
    match s.synchronization with
    | some ⟨some paths, none, f⟩ => some (s.visit paths f path)
    | _ => none
  | .deleteEmptyFile =>
    match s.synchronization with
    | some ⟨unvisited, some path, f⟩ =>
      some ({ s with synchronization := some ⟨unvisited, none, f⟩ }.deleteFile path)
    | _ => none
  | .startShrink =>
    match s.shrinking with
    | some none => some { s with shrinking := some (some s.disk.keys) }
    | _ => none
  | .visitToShrink path shouldDelete =>
    match s.shrinking with
    | some (some paths) =>
      let s := { s with shrinking := some (some (paths.erase path)) }
      some (if shouldDelete then s.deleteFile path else s)
    | _ => none
  | .startWrite i storesBlob =>
    s.activeWriteOperations[i]?.bind fun w => s.writeStep i w (.startWrite i storesBlob)
  | .deleteOldFile i => s.activeWriteOperations[i]?.bind fun w => s.writeStep i w (.deleteOldFile i)
  | .createFile i success =>
    s.activeWriteOperations[i]?.bind fun w => s.writeStep i w (.createFile i success)
  | .writeFile i success =>
    s.activeWriteOperations[i]?.bind fun w => s.writeStep i w (.writeFile i success)
  | .finishBlob i exceeds =>
    s.activeWriteOperations[i]?.bind fun w => s.writeStep i w (.finishBlob i exceeds)
  | .finishWrite i exceeds =>
    s.activeWriteOperations[i]?.bind fun w => s.writeStep i w (.finishWrite i exceeds)

/-- The files that are there when the storage is opened. -/
structure OldFiles (Content : Type) where
  disk : Disk Content
  old : ∀ path record, disk.lookup path = some (.complete record) → record.number = 0

/-- The storage after `open`, which calls `synchronize`. -/
def opened (capacity : Nat) (files : OldFiles Content) : State Content :=
  synchronize
    { capacity := capacity
      recordFilter := none
      synchronizationInProgress := false
      shrinkInProgress := false
      recordFilterHashesAddedDuringSynchronization := []
      pendingReadOperationsByPriority := fun _ => []
      activeReadOperations := []
      readOperationTimeoutTimer := false
      pendingWriteOperations := []
      activeWriteOperations := []
      writeOperationDispatchTimer := false
      posted := []
      deletions := []
      synchronization := none
      shrinking := none
      disk := files.disk
      clock := 0
      lastStore := fun _ => 0
      lastRemove := fun _ => 0
      delivered := [] }

/-! ## What the operations do -/

open List

/-- The records that are to be written or are being written, the newest one first. -/
def records : List (Record Content) :=
  s.pendingWriteOperations ++ s.activeWriteOperations.map (·.record)

theorem records_setWrite {s : State Content} {i : Nat} {w w' : WriteOperation Content}
    (hw : s.activeWriteOperations[i]? = some w) (hrcd : w'.record = w.record) :
    (s.setWrite i w').records = s.records := by
  have hm : (s.activeWriteOperations.map (·.record))[i]? = some w.record := by
    rw [List.getElem?_map, hw]
    rfl
  obtain ⟨hi, hg⟩ := List.getElem?_eq_some_iff.mp hm
  simp only [records, setWrite, List.map_set, hrcd]
  rw [← hg, List.set_getElem_self]

/-- At most one pending write is dispatched, the oldest one, and only if none is active. -/
theorem dispatchPendingWriteOperations_cases :
    s.dispatchPendingWriteOperations = s ∨
      ∃ rest r, s.pendingWriteOperations = rest ++ [r] ∧ s.activeWriteOperations = [] ∧
        s.dispatchPendingWriteOperations =
          dispatchWriteOperation { s with pendingWriteOperations := rest } r := by
  -- once a write is active, the loop ends
  have ha : ∀ fuel (s : State Content), 1 ≤ s.activeWriteOperations.length →
      dispatchPendingWriteOperationsLoop fuel s = s := by
    intro fuel s hl
    cases fuel with
    | zero => rfl
    | succ fuel =>
      rw [dispatchPendingWriteOperationsLoop]
      split
      · rfl
      · exact if_pos hl
  by_cases hl : 1 ≤ s.activeWriteOperations.length
  · exact .inl (ha _ s hl)
  rcases eq_nil_or_concat s.pendingWriteOperations with hnil | ⟨rest, r, hcct⟩
  · left
    rw [dispatchPendingWriteOperations, hnil]
    rfl
  right
  rw [concat_eq_append] at hcct
  refine ⟨rest, r, hcct, by simpa using hl, ?_⟩
  rw [dispatchPendingWriteOperations, hcct, length_append, length_singleton,
    dispatchPendingWriteOperationsLoop, hcct, getLast?_concat]
  simp only [dropLast_concat]
  rw [if_neg (show ¬ s.activeWriteOperations.length ≥ maximumActiveWriteOperationCount from
    hl)]
  exact ha _ _ (by simp [dispatchWriteOperation, addToRecordFilter])

theorem lookup_deleteFile {s : State Content} {path p : Path} {file : File Content}
    (h : (s.deleteFile path).disk.lookup p = some file) :
    p ≠ path ∧ s.disk.lookup p = some file := by
  change (s.disk.erase path).lookup p = some file at h
  have hne : p ≠ path := by
    rintro rfl
    rw [AList.lookup_erase] at h
    cases h
  rw [AList.lookup_erase_ne hne] at h
  exact ⟨hne, h⟩

theorem lookup_putFile (path p : Path) (file : File Content) :
    (s.putFile path file).disk.lookup p = if p = path then some file else s.disk.lookup p := by
  show (s.disk.insert path file).lookup p = _
  split
  next heq => rw [heq, AList.lookup_insert]
  next hne => rw [AList.lookup_insert_ne hne]

/-- A read operation that is not finished. -/
def Reading (r : ReadOperation Content) : Prop :=
  (∃ priority, r ∈ s.pendingReadOperationsByPriority priority) ∨ r ∈ s.activeReadOperations

/-- The read operations are moved, and nothing else is changed. -/
structure MovesReads (s s' : State Content) : Prop where
  state : ∃ pending active timer, s' =
    { s with
      pendingReadOperationsByPriority := pending
      activeReadOperations := active
      readOperationTimeoutTimer := timer }
  reading : ∀ r, s'.Reading r → s.Reading r

theorem MovesReads.refl : MovesReads s s := ⟨⟨_, _, _, rfl⟩, fun _ hr => hr⟩

theorem MovesReads.trans {s₁ s₂ s₃ : State Content} (h : MovesReads s₁ s₂)
    (h' : MovesReads s₂ s₃) : MovesReads s₁ s₃ := by
  obtain ⟨pend, act, timer, rfl⟩ := h.state
  obtain ⟨pend', act', timer', rfl⟩ := h'.state
  exact ⟨⟨pend', act', timer', rfl⟩, fun r hr => h.reading r (h'.reading r hr)⟩

theorem movesReads_dispatchPendingReadOperationsLoop (priorities : List (Fin 5))
    (s : State Content) : MovesReads s (dispatchPendingReadOperationsLoop priorities s) := by
  induction priorities generalizing s with
  | nil => exact MovesReads.refl s
  | cons prio rest ih =>
    rw [dispatchPendingReadOperationsLoop]
    split
    · exact MovesReads.refl s
    split
    · exact ih s
    next r hls =>
      refine MovesReads.trans ⟨⟨_, _, _, rfl⟩, fun r' hr' => ?_⟩ (ih _)
      rcases hr' with ⟨p, hp⟩ | hr'
      · refine .inl ⟨p, ?_⟩
        by_cases heq : p = prio
        · subst heq
          simp only [Function.update_self] at hp
          exact (dropLast_sublist _).subset hp
        · simpa only [Function.update_of_ne heq] using hp
      · rcases mem_cons.mp hr' with rfl | hr'
        · exact .inl ⟨prio, mem_of_getLast? hls⟩
        · exact .inr hr'

theorem movesReads_dispatchPendingReadOperations : MovesReads s s.dispatchPendingReadOperations :=
  movesReads_dispatchPendingReadOperationsLoop _ s

theorem movesReads_forgetReadOperation : MovesReads s (s.forgetReadOperation i) := by
  refine MovesReads.trans ⟨⟨_, _, _, rfl⟩, fun r hr => ?_⟩
    (movesReads_dispatchPendingReadOperations _)
  exact hr.imp_right mem_of_mem_eraseIdx

end State

end Storage

end WebKit.NetworkCache
