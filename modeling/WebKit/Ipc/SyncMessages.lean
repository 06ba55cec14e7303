import WebKit.Lib.Runs
import Mathlib.Algebra.Group.Nat.Defs
import Mathlib.Logic.Function.Basic

/-!
# Synchronous messages

How the main thread waits for the reply to a synchronous message (`Connection.cpp`): the
process-wide `SyncMessageState` with its queue and its binary semaphore, the pending replies of
every connection, and the frames of `dispatchMessages` and `waitForSyncReply` on the stack.

An event is one critical section, together with what its thread does up to the next one.
`m_client` is only written by the main thread, so a test of `isValid` belongs to the critical
section before it. Handlers may send synchronous messages and invalidate connections. Callbacks of
the run loop run when the stack is empty. `2 ^ 64` requests are not made in a run.
-/

namespace WebKit.Ipc

open Runs

/-- A message that is dispatched even while the main thread waits, with its connection. Messages are
numbered in the order of their arrival. -/
structure ConnectionAndIncomingMessage where
  connection : Nat
  message : Nat
  deriving DecidableEq

/-- The decoder of a reply, with the connection it came on. -/
structure SyncReply where
  connection : Nat
  destinationID : Nat
  deriving DecidableEq

structure PendingSyncReply where
  syncRequestID : Nat
  replyDecoder : Option SyncReply := none
  didReceiveReply : Bool := false
  deriving DecidableEq

/-- The frame of `sendSyncMessageFromSecondaryThread`. -/
structure SecondaryThreadPendingSyncReply where
  connection : Nat
  syncRequestID : Nat
  replyDecoder : Option SyncReply := none
  deriving DecidableEq

/-- The keys that a hash table of 64-bit integers reserves for its buckets. -/
def emptyKey : Nat := 0

def deletedKey : Nat := 2 ^ 64 - 1

/-- The members of a connection. Of the hash table of the secondary threads it matters whether its
buckets are allocated and whether an entry has been removed. -/
structure Connection where
  isValid : Bool := true
  shouldWaitForSyncReplies : Bool := true
  syncRequestID : Nat := 0
  pendingSyncReplies : List PendingSyncReply := []
  secondaryThreadPendingSyncReplyMap : List (Nat × Nat) := []
  mapIsAllocated : Bool := false
  mapHasDeletedBuckets : Bool := false
  deriving DecidableEq

/-- Where `waitForSyncReply` is in its loop. -/
inductive WaitPhase where
  /-- It is about to call `dispatchMessages(nullptr)`. -/
  | loop
  /-- `dispatchMessages` is running. -/
  | dispatching
  /-- It is about to look at the pending reply. -/
  | check
  /-- It waits for the semaphore. -/
  | wait
  /-- It has returned to `sendSyncMessage`. -/
  | done (reply : Option SyncReply)
  deriving DecidableEq

inductive Frame where
  /-- The callback of a connection, which is about to call `dispatchMessages`. -/
  | callback (connection : Nat)
  /-- `dispatchMessages` after the swap: the messages its loop has not reached, those to put back,
  and whether a handler is running. -/
  | dispatchMessages (allowedConnection : Option Nat)
      (messages messagesToPutBack : List ConnectionAndIncomingMessage) (inHandler : Bool)
  /-- `sendSyncMessage` with the loop of `waitForSyncReply`. -/
  | waitForSyncReply (connection syncRequestID : Nat) (spinRunLoop : Bool) (phase : WaitPhase)
  deriving DecidableEq

/-- A call of `sendSyncMessage` that has returned. -/
structure Returned where
  connection : Nat
  syncRequestID : Nat
  reply : Option SyncReply
  deriving DecidableEq

structure State where
  connection : Nat → Connection := fun _ => {}
  waitForSyncReplySemaphore : Bool := false
  didScheduleDispatchMessagesWorkSet : List Nat := []
  messagesToDispatch : List ConnectionAndIncomingMessage := []
  /-- The callbacks that wait in the run loop of the main thread. -/
  runLoop : List Nat := []
  /-- Receive queues that have queued a message and are about to signal. -/
  wakeUps : Nat := 0
  /-- The stack of the main thread, the innermost frame first. -/
  stack : List Frame := []
  /-- The frames of secondary threads; those that have returned are `none`. -/
  secondaryThreads : List (Option SecondaryThreadPendingSyncReply) := []
  /-- The process wrote through a pointer that it got from a bucket without entry. -/
  crashed : Bool := false
  /-- The history: the messages that arrived, were dispatched, or had their turn when their
  connection was invalid, and the calls that returned. -/
  arrived : List ConnectionAndIncomingMessage := []
  dispatched : List ConnectionAndIncomingMessage := []
  discarded : List ConnectionAndIncomingMessage := []
  returned : List Returned := []

namespace State

variable (s : State) (c : Nat)

def setConnection (connection : Connection) : State :=
  { s with connection := Function.update s.connection c connection }

theorem connection_setConnection (c d : Nat) (conn : Connection) :
    (s.setConnection c conn).connection d = if d = c then conn else s.connection d :=
  Function.update_apply s.connection c conn d

/-- `wakeUpClientRunLoop`, under a condition. -/
def wakeUpClientRunLoopIf (condition : Bool) : State :=
  { s with waitForSyncReplySemaphore := s.waitForSyncReplySemaphore || condition }

/-! ## Receive queues -/

/-- `processIncomingMessage`, up to the signal. The callback is scheduled when the connection is new
in the set. -/
def processIncomingMessage : State :=
  let isNewEntry := c ∉ s.didScheduleDispatchMessagesWorkSet
  let message : ConnectionAndIncomingMessage := ⟨c, s.arrived.length⟩
  { s with
    didScheduleDispatchMessagesWorkSet :=
      s.didScheduleDispatchMessagesWorkSet ++ if isNewEntry then [c] else []
    runLoop := s.runLoop ++ if isNewEntry then [c] else []
    messagesToDispatch := s.messagesToDispatch ++ [message]
    wakeUps := s.wakeUps + 1
    arrived := s.arrived ++ [message] }

/-- Hand a reply to the innermost request with its identifier, and whether that was the last one. -/
def receiveReply (reply : SyncReply) :
    List PendingSyncReply → Option (List PendingSyncReply × Bool)
  | [] => none
  | pending :: rest =>
    match receiveReply reply rest with
    | some (rest, isLast) => some (pending :: rest, isLast)
    | none =>
      if pending.syncRequestID = reply.destinationID then
        some ({ pending with replyDecoder := some reply, didReceiveReply := true } :: rest,
          rest.isEmpty)
      else none

/-- The second half of `processIncomingSyncReply`. `find` compares keys first: the empty key is
found in the first empty bucket, whose value is null, and the deleted key in the bucket of a removed
entry, if one is met. -/
def replyToSecondaryThread (reply : SyncReply) (meetsDeletedBucket : Bool) : State :=
  let connection := s.connection reply.connection
  if reply.destinationID = emptyKey then
    if connection.mapIsAllocated then { s with crashed := true } else s
  else if reply.destinationID = deletedKey then
    if connection.mapHasDeletedBuckets && meetsDeletedBucket then { s with crashed := true } else s
  else
    match connection.secondaryThreadPendingSyncReplyMap.lookup reply.destinationID with
    | none => s
    | some i =>
      { s with
        secondaryThreads := s.secondaryThreads.modify i
          (Option.map fun pending => { pending with replyDecoder := some reply }) }

def processIncomingSyncReply (reply : SyncReply) (meetsDeletedBucket : Bool) :
    State :=
  let connection := s.connection reply.connection
  match receiveReply reply connection.pendingSyncReplies with
  | some (pendingSyncReplies, isLast) =>
    (s.setConnection reply.connection
      { connection with pendingSyncReplies := pendingSyncReplies }).wakeUpClientRunLoopIf isLast
  | none => s.replyToSecondaryThread reply meetsDeletedBucket

/-- The critical section of `connectionDidClose`. The waits of the secondary threads end at any
time. -/
def connectionDidClose : State :=
  let connection := s.connection c
  (s.setConnection c { connection with shouldWaitForSyncReplies := false }).wakeUpClientRunLoopIf
    (!connection.pendingSyncReplies.isEmpty)

/-! ## The main thread -/

/-- `dispatchMessageAndResetDidScheduleDispatchMessagesForConnection`, up to the call. -/
def runCallback : Option State :=
  match s.stack, s.runLoop with
  | [], c :: runLoop =>
    some { s with
      runLoop := runLoop
      didScheduleDispatchMessagesWorkSet := s.didScheduleDispatchMessagesWorkSet.erase c
      stack := [.callback c] }
  | _, _ => none

/-- `dispatchMessages`, up to the loop. -/
def dispatchMessages (s : State) (allowedConnection : Option Nat) (stack : List Frame) : State :=
  { s with
    messagesToDispatch := []
    stack := .dispatchMessages allowedConnection s.messagesToDispatch [] false :: stack }

/-- The call of `dispatchMessages` by a callback or by the loop of `waitForSyncReply`. -/
def callDispatchMessages : Option State :=
  match s.stack with
  | .callback c :: stack => some (s.dispatchMessages (some c) stack)
  | .waitForSyncReply c id spin .loop :: stack =>
    some (s.dispatchMessages none (.waitForSyncReply c id spin .dispatching :: stack))
  | _ => none

/-- May a call of `dispatchMessages` dispatch this message now? -/
def isAllowed (allowedConnection : Option Nat) (message : ConnectionAndIncomingMessage) : Bool :=
  match allowedConnection with
  | none => true
  | some c => c == message.connection

/-- `dispatchMessages` returns to its caller. -/
def returnFromDispatchMessages : List Frame → List Frame
  | .waitForSyncReply c id spin .dispatching :: stack => .waitForSyncReply c id spin .check :: stack
  | stack => stack

/-- One turn of the loop of `dispatchMessages`, or its end. -/
def nextMessage : Option State :=
  match s.stack with
  | .dispatchMessages allowed (m :: messages) putBack false :: stack =>
    if isAllowed allowed m then
      -- `dispatchMessage` does nothing without a client
      if (s.connection m.connection).isValid then
        some { s with
          dispatched := s.dispatched ++ [m]
          stack := .dispatchMessages allowed messages putBack true :: stack }
      else
        some { s with
          discarded := s.discarded ++ [m]
          stack := .dispatchMessages allowed messages putBack false :: stack }
    else
      some { s with
        stack := .dispatchMessages allowed messages (putBack ++ [m]) false :: stack }
  | .dispatchMessages _ [] putBack false :: stack =>
    some { s with
      messagesToDispatch := s.messagesToDispatch ++ putBack
      stack := returnFromDispatchMessages stack }
  | _ => none

def handlerReturns : Option State :=
  match s.stack with
  | .dispatchMessages allowed messages putBack true :: stack =>
    some { s with stack := .dispatchMessages allowed messages putBack false :: stack }
  | _ => none

/-- Does code of a client run on the main thread: a task of the run loop or a handler? -/
def clientRuns : List Frame → Bool
  | [] => true
  | .dispatchMessages _ _ _ true :: _ => true
  | _ => false

/-- `sendSyncMessage`, up to the loop of `waitForSyncReply`. -/
def sendSyncMessage (spinRunLoop : Bool) : Option State :=
  let connection := s.connection c
  let id := connection.syncRequestID + 1
  if clientRuns s.stack && id < deletedKey then
    let connection := { connection with syncRequestID := id }
    if connection.isValid && connection.shouldWaitForSyncReplies then
      let s := s.setConnection c
        { connection with
          pendingSyncReplies := connection.pendingSyncReplies ++ [{ syncRequestID := id }] }
      some { s with stack := .waitForSyncReply c id spinRunLoop .loop :: s.stack }
    else
      let s := s.setConnection c connection
      some { s with returned := s.returned ++ [⟨c, id, none⟩] }
  else none

def invalidate : Option State :=
  if clientRuns s.stack then some (s.setConnection c { s.connection c with isValid := false })
  else none

/-- What `waitForSyncReply` does after its look at the last pending reply. -/
def afterCheck (connection : Connection) (pending : PendingSyncReply) (spinRunLoop : Bool) :
    WaitPhase :=
  if pending.didReceiveReply || !connection.shouldWaitForSyncReplies then
    .done pending.replyDecoder
  else if !connection.isValid then .done none
  else if spinRunLoop then .loop
  else .wait

def checkSyncReply : Option State :=
  match s.stack with
  | .waitForSyncReply c id spin .check :: stack =>
    match (s.connection c).pendingSyncReplies.getLast? with
    | none => none
    | some pending =>
      some { s with
        stack := .waitForSyncReply c id spin (afterCheck (s.connection c) pending spin) ::
          stack }
  | _ => none

/-- The semaphore is set: its wait resets it, and the loop goes on. -/
def wake : Option State :=
  match s.stack with
  | .waitForSyncReply c id spin .wait :: stack =>
    if s.waitForSyncReplySemaphore then
      some { s with
        waitForSyncReplySemaphore := false
        stack := .waitForSyncReply c id spin .loop :: stack }
    else none
  | _ => none

def timeOut : Option State :=
  match s.stack with
  | .waitForSyncReply c id spin .wait :: stack =>
    some { s with stack := .waitForSyncReply c id spin (.done none) :: stack }
  | _ => none

/-- The end of `sendSyncMessage`. -/
def popPendingSyncReply : Option State :=
  match s.stack with
  | .waitForSyncReply c id _ (.done reply) :: stack =>
    let connection := s.connection c
    let s := s.setConnection c
      { connection with pendingSyncReplies := connection.pendingSyncReplies.dropLast }
    some { s with stack := stack, returned := s.returned ++ [⟨c, id, reply⟩] }
  | _ => none

/-! ## Secondary threads -/

/-- `sendSyncMessageFromSecondaryThread`, up to its wait. -/
def sendSyncMessageFromSecondaryThread : Option State :=
  let connection := s.connection c
  let id := connection.syncRequestID + 1
  if id < deletedKey then
    let connection := { connection with syncRequestID := id }
    if connection.isValid && connection.shouldWaitForSyncReplies then
      let s := s.setConnection c
        { connection with
          secondaryThreadPendingSyncReplyMap :=
            (id, s.secondaryThreads.length) :: connection.secondaryThreadPendingSyncReplyMap
          mapIsAllocated := true }
      some { s with secondaryThreads := s.secondaryThreads ++ [some ⟨c, id, none⟩] }
    else
      let s := s.setConnection c connection
      some { s with returned := s.returned ++ [⟨c, id, none⟩] }
  else none

/-- The wait has ended, by the signal or by the timeout. -/
def secondaryThreadReturns (i : Nat) : Option State :=
  match s.secondaryThreads[i]? with
  | some (some pending) =>
    let connection := s.connection pending.connection
    let s := s.setConnection pending.connection
      { connection with
        secondaryThreadPendingSyncReplyMap :=
          connection.secondaryThreadPendingSyncReplyMap.filter (·.1 ≠ pending.syncRequestID)
        mapHasDeletedBuckets := true }
    some { s with
      secondaryThreads := s.secondaryThreads.set i none
      returned := s.returned ++
        [⟨pending.connection, pending.syncRequestID, pending.replyDecoder⟩] }
  | _ => none

end State

inductive Event where
  | processIncomingMessage (connection : Nat)
  | wakeUpClientRunLoop
  | processIncomingSyncReply (reply : SyncReply) (meetsDeletedBucket : Bool)
  | connectionDidClose (connection : Nat)
  | runCallback
  | callDispatchMessages
  | nextMessage
  | handlerReturns
  | sendSyncMessage (connection : Nat) (spinRunLoop : Bool)
  | invalidate (connection : Nat)
  | checkSyncReply
  | wake
  | timeOut
  | popPendingSyncReply
  | sendSyncMessageFromSecondaryThread (connection : Nat)
  | secondaryThreadReturns (i : Nat)
  deriving DecidableEq

/-- One critical section. Nothing runs after a crash. -/
def State.next (s : State) : Event → Option State
  | .processIncomingMessage c => some (s.processIncomingMessage c)
  | .wakeUpClientRunLoop =>
    if 0 < s.wakeUps then
      some { s.wakeUpClientRunLoopIf true with wakeUps := s.wakeUps - 1 }
    else none
  | .processIncomingSyncReply reply met => some (s.processIncomingSyncReply reply met)
  | .connectionDidClose c => some (s.connectionDidClose c)
  | .runCallback => s.runCallback
  | .callDispatchMessages => s.callDispatchMessages
  | .nextMessage => s.nextMessage
  | .handlerReturns => s.handlerReturns
  | .sendSyncMessage c spin => s.sendSyncMessage c spin
  | .invalidate c => s.invalidate c
  | .checkSyncReply => s.checkSyncReply
  | .wake => s.wake
  | .timeOut => s.timeOut
  | .popPendingSyncReply => s.popPendingSyncReply
  | .sendSyncMessageFromSecondaryThread c => s.sendSyncMessageFromSecondaryThread c
  | .secondaryThreadReturns i => s.secondaryThreadReturns i

def step (s : State) (e : Event) : Option State := if s.crashed then none else s.next e

/-! ## What an event can do -/

/-- The identifier of a reply is a reserved key, and the table has a bucket for it. -/
def FindsReservedKey (s : State) (r : SyncReply) (met : Bool) : Prop :=
  r.destinationID = emptyKey ∧ (s.connection r.connection).mapIsAllocated = true ∨
    r.destinationID = deletedKey ∧ (s.connection r.connection).mapHasDeletedBuckets = true ∧
      met = true

open WebKit.Ipc.State

/-- The cases of an event, each with what it found and the state it leads to. -/
inductive Step (s : State) : Event → State → Prop
  | arrive (c : Nat) : Step s (.processIncomingMessage c) (s.processIncomingMessage c)
  | signal : 0 < s.wakeUps →
      Step s .wakeUpClientRunLoop { s.wakeUpClientRunLoopIf true with wakeUps := s.wakeUps - 1 }
  | reply (r : SyncReply) (met : Bool) {pendingSyncReplies : List PendingSyncReply}
      {isLast : Bool} :
      receiveReply r (s.connection r.connection).pendingSyncReplies =
        some (pendingSyncReplies, isLast) →
      Step s (.processIncomingSyncReply r met)
        ((s.setConnection r.connection
          { s.connection r.connection with
            pendingSyncReplies := pendingSyncReplies }).wakeUpClientRunLoopIf isLast)
  | secondaryReply (r : SyncReply) (met : Bool) {i : Nat} : ¬ FindsReservedKey s r met →
      (r.destinationID, i) ∈ (s.connection r.connection).secondaryThreadPendingSyncReplyMap →
      Step s (.processIncomingSyncReply r met)
        { s with
          secondaryThreads := s.secondaryThreads.modify i
            (Option.map fun pending => { pending with replyDecoder := some r }) }
  | ignoreReply (r : SyncReply) (met : Bool) : ¬ FindsReservedKey s r met →
      Step s (.processIncomingSyncReply r met) s
  | crash (r : SyncReply) (met : Bool) : FindsReservedKey s r met →
      Step s (.processIncomingSyncReply r met) { s with crashed := true }
  | close (c : Nat) : Step s (.connectionDidClose c) (s.connectionDidClose c)
  | runCallback {c : Nat} {runLoop : List Nat} : s.stack = [] → s.runLoop = c :: runLoop →
      Step s .runCallback
        { s with
          runLoop := runLoop
          didScheduleDispatchMessagesWorkSet := s.didScheduleDispatchMessagesWorkSet.erase c
          stack := [.callback c] }
  | callbackDispatches {c : Nat} {stack : List Frame} : s.stack = .callback c :: stack →
      Step s .callDispatchMessages (s.dispatchMessages (some c) stack)
  | loopDispatches {c id : Nat} {spin : Bool} {stack : List Frame} :
      s.stack = .waitForSyncReply c id spin .loop :: stack →
      Step s .callDispatchMessages
        (s.dispatchMessages none (.waitForSyncReply c id spin .dispatching :: stack))
  | dispatch {allowed : Option Nat} {m : ConnectionAndIncomingMessage}
      {messages putBack : List ConnectionAndIncomingMessage} {stack : List Frame} :
      s.stack = .dispatchMessages allowed (m :: messages) putBack false :: stack →
      isAllowed allowed m = true → (s.connection m.connection).isValid = true →
      Step s .nextMessage
        { s with
          dispatched := s.dispatched ++ [m]
          stack := .dispatchMessages allowed messages putBack true :: stack }
  | discard {allowed : Option Nat} {m : ConnectionAndIncomingMessage}
      {messages putBack : List ConnectionAndIncomingMessage} {stack : List Frame} :
      s.stack = .dispatchMessages allowed (m :: messages) putBack false :: stack →
      isAllowed allowed m = true → (s.connection m.connection).isValid = false →
      Step s .nextMessage
        { s with
          discarded := s.discarded ++ [m]
          stack := .dispatchMessages allowed messages putBack false :: stack }
  | putAside {allowed : Option Nat} {m : ConnectionAndIncomingMessage}
      {messages putBack : List ConnectionAndIncomingMessage} {stack : List Frame} :
      s.stack = .dispatchMessages allowed (m :: messages) putBack false :: stack →
      isAllowed allowed m = false →
      Step s .nextMessage
        { s with stack := .dispatchMessages allowed messages (putBack ++ [m]) false :: stack }
  | endLoop {allowed : Option Nat} {putBack : List ConnectionAndIncomingMessage}
      {stack : List Frame} :
      s.stack = .dispatchMessages allowed [] putBack false :: stack →
      Step s .nextMessage
        { s with
          messagesToDispatch := s.messagesToDispatch ++ putBack
          stack := returnFromDispatchMessages stack }
  | handlerReturns {allowed : Option Nat} {messages putBack : List ConnectionAndIncomingMessage}
      {stack : List Frame} : s.stack = .dispatchMessages allowed messages putBack true :: stack →
      Step s .handlerReturns
        { s with stack := .dispatchMessages allowed messages putBack false :: stack }
  | send (c : Nat) (spin : Bool) : clientRuns s.stack = true →
      (s.connection c).syncRequestID + 1 < deletedKey →
      Step s (.sendSyncMessage c spin)
        { s.setConnection c
            { s.connection c with
              syncRequestID := (s.connection c).syncRequestID + 1
              pendingSyncReplies := (s.connection c).pendingSyncReplies ++
                [{ syncRequestID := (s.connection c).syncRequestID + 1 }] } with
          stack :=
            .waitForSyncReply c ((s.connection c).syncRequestID + 1) spin .loop :: s.stack }
  | failToSend (c : Nat) {e : Event} :
      e = .sendSyncMessageFromSecondaryThread c ∨ (∃ spin, e = .sendSyncMessage c spin) →
      Step s e
        { s.setConnection c
            { s.connection c with syncRequestID := (s.connection c).syncRequestID + 1 } with
          returned := s.returned ++ [⟨c, (s.connection c).syncRequestID + 1, none⟩] }
  | invalidate (c : Nat) : clientRuns s.stack = true →
      Step s (.invalidate c) (s.setConnection c { s.connection c with isValid := false })
  | check {c id : Nat} {spin : Bool} {stack : List Frame} {pending : PendingSyncReply} :
      s.stack = .waitForSyncReply c id spin .check :: stack →
      (s.connection c).pendingSyncReplies.getLast? = some pending →
      Step s .checkSyncReply
        { s with
          stack := .waitForSyncReply c id spin (afterCheck (s.connection c) pending spin) ::
            stack }
  | wake {c id : Nat} {spin : Bool} {stack : List Frame} :
      s.stack = .waitForSyncReply c id spin .wait :: stack → s.waitForSyncReplySemaphore = true →
      Step s .wake
        { s with
          waitForSyncReplySemaphore := false
          stack := .waitForSyncReply c id spin .loop :: stack }
  | timeOut {c id : Nat} {spin : Bool} {stack : List Frame} :
      s.stack = .waitForSyncReply c id spin .wait :: stack →
      Step s .timeOut { s with stack := .waitForSyncReply c id spin (.done none) :: stack }
  | pop {c id : Nat} {spin : Bool} {reply : Option SyncReply} {stack : List Frame} :
      s.stack = .waitForSyncReply c id spin (.done reply) :: stack →
      Step s .popPendingSyncReply
        { s.setConnection c
            { s.connection c with
              pendingSyncReplies := (s.connection c).pendingSyncReplies.dropLast } with
          stack := stack
          returned := s.returned ++ [⟨c, id, reply⟩] }
  | sendFromSecondaryThread (c : Nat) : (s.connection c).syncRequestID + 1 < deletedKey →
      Step s (.sendSyncMessageFromSecondaryThread c)
        { s.setConnection c
            { s.connection c with
              syncRequestID := (s.connection c).syncRequestID + 1
              secondaryThreadPendingSyncReplyMap :=
                ((s.connection c).syncRequestID + 1, s.secondaryThreads.length) ::
                  (s.connection c).secondaryThreadPendingSyncReplyMap
              mapIsAllocated := true } with
          secondaryThreads := s.secondaryThreads ++
            [some ⟨c, (s.connection c).syncRequestID + 1, none⟩] }
  | secondaryThreadReturns {i : Nat} {pending : SecondaryThreadPendingSyncReply} :
      s.secondaryThreads[i]? = some (some pending) →
      Step s (.secondaryThreadReturns i)
        { s.setConnection pending.connection
            { s.connection pending.connection with
              secondaryThreadPendingSyncReplyMap :=
                (s.connection pending.connection).secondaryThreadPendingSyncReplyMap.filter
                  (·.1 ≠ pending.syncRequestID)
              mapHasDeletedBuckets := true } with
          secondaryThreads := s.secondaryThreads.set i none
          returned := s.returned ++
            [⟨pending.connection, pending.syncRequestID, pending.replyDecoder⟩] }

variable {s s' : State} {e : Event}

theorem step_replyToSecondaryThread (r : SyncReply) (met : Bool) :
    Step s (.processIncomingSyncReply r met) (s.replyToSecondaryThread r met) := by
  have hky : emptyKey ≠ deletedKey := by decide
  fun_cases replyToSecondaryThread s r met
  case case1 hemp halc => exact .crash r met (.inl ⟨hemp, halc⟩)
  case case2 hemp halc =>
    refine .ignoreReply r met ?_
    rintro (⟨_, h⟩ | ⟨h, _⟩)
    · exact halc h
    · exact hky (hemp.symm.trans h)
  case case3 _ hdel hmet =>
    rw [Bool.and_eq_true] at hmet
    exact .crash r met (.inr ⟨hdel, hmet⟩)
  case case4 hemp _ hmet =>
    refine .ignoreReply r met ?_
    rintro (⟨h, _⟩ | ⟨_, h⟩)
    · exact hemp h
    · exact hmet (by rw [Bool.and_eq_true]; exact h)
  case case5 hemp hdel _ =>
    exact .ignoreReply r met (by rintro (⟨h, _⟩ | ⟨h, _⟩) <;> contradiction)
  case case6 hemp hdel i hlku =>
    obtain ⟨l₁, l₂, hl, _⟩ := List.lookup_eq_some_iff.mp hlku
    refine .secondaryReply r met (by rintro (⟨h, _⟩ | ⟨h, _⟩) <;> contradiction) ?_
    rw [hl]
    exact List.mem_append_right _ List.mem_cons_self

theorem step_nextMessage (h : s.nextMessage = some s') : Step s .nextMessage s' := by
  revert h
  fun_cases nextMessage s <;> rintro ⟨⟩
  · exact .dispatch ‹_› ‹_› ‹_›
  · exact .discard ‹_› ‹_› (Bool.eq_false_iff.mpr ‹_›)
  · exact .putAside ‹_› (Bool.eq_false_iff.mpr ‹_›)
  · exact .endLoop ‹_›

theorem step_sendSyncMessage {c : Nat} {spin : Bool} (h : s.sendSyncMessage c spin = some s') :
    Step s (.sendSyncMessage c spin) s' := by
  revert h
  fun_cases sendSyncMessage s c spin <;> rintro ⟨⟩
  case case1 hrn _ _ _ =>
    rw [Bool.and_eq_true, decide_eq_true_eq] at hrn
    exact .send c spin hrn.1 hrn.2
  · exact .failToSend c (.inr ⟨spin, rfl⟩)

theorem step_sendSyncMessageFromSecondaryThread {c : Nat}
    (h : s.sendSyncMessageFromSecondaryThread c = some s') :
    Step s (.sendSyncMessageFromSecondaryThread c) s' := by
  revert h
  fun_cases sendSyncMessageFromSecondaryThread s c <;> rintro ⟨⟩
  · exact .sendFromSecondaryThread c ‹_›
  · exact .failToSend c (.inl rfl)

/-- **The cases of an event.** -/
theorem step_of_next (h : s.next e = some s') : Step s e s' := by
  revert h
  fun_cases next s e
  case case1 c => rintro ⟨⟩; exact .arrive c
  case case2 hp => rintro ⟨⟩; exact .signal hp
  case case3 => nofun
  case case4 r met =>
    rintro ⟨⟩
    fun_cases processIncomingSyncReply s r met
    · exact .reply r met ‹_›
    · exact step_replyToSecondaryThread r met
  case case5 c => rintro ⟨⟩; exact .close c
  case case6 =>
    fun_cases runCallback s <;> rintro ⟨⟩
    exact .runCallback ‹_› ‹_›
  case case7 =>
    fun_cases callDispatchMessages s <;> rintro ⟨⟩
    · exact .callbackDispatches ‹_›
    · exact .loopDispatches ‹_›
  case case8 => exact step_nextMessage
  case case9 =>
    fun_cases handlerReturns s <;> rintro ⟨⟩
    exact .handlerReturns ‹_›
  case case10 => exact step_sendSyncMessage
  case case11 c =>
    fun_cases invalidate s c <;> rintro ⟨⟩
    exact .invalidate c ‹_›
  case case12 =>
    fun_cases checkSyncReply s <;> rintro ⟨⟩
    exact .check ‹_› ‹_›
  case case13 =>
    fun_cases wake s <;> rintro ⟨⟩
    exact .wake ‹_› ‹_›
  case case14 =>
    fun_cases timeOut s <;> rintro ⟨⟩
    exact .timeOut ‹_›
  case case15 =>
    fun_cases popPendingSyncReply s <;> rintro ⟨⟩
    exact .pop ‹_›
  case case16 => exact step_sendSyncMessageFromSecondaryThread
  case case17 i =>
    fun_cases secondaryThreadReturns s i <;> rintro ⟨⟩
    exact .secondaryThreadReturns ‹_›

theorem cases_of_step (h : step s e = some s') : Step s e s' := by
  unfold step at h
  split at h
  · cases h
  · exact step_of_next h

end WebKit.Ipc
