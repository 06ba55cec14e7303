import WebKit.Lib.Runs
import WebKit.Lib.Threads

/-!
# `Condition`

The condition variable of one byte, as in `wtf/Condition.h`. The byte says whether threads may be
waiting, in a queue of the `ParkingLot` for its address. Enqueueing with its validation is one step,
and so is dequeueing with its callback. A thread that was dequeued returns true from
`parkConditionally`. A thread whose timeout has passed tries to leave the queue by itself.

Each wait is numbered when the thread is enqueued, each call of `notifyOne` and `notifyAll` when it
begins. What became of the waits, and what the calls found, is only recorded.
-/

namespace WebKit.Wtf.ConditionBase

/-- The arguments of a call of `waitUntil`, and the step at which it began. -/
structure Call (Lock : Type) where
  lock : Lock
  timeout : Nat
  began : Nat

inductive Place (Lock : Type)
  | outside
  /-- Before `Clock::now()`. -/
  | waitUntil (call : Call Lock)
  /-- The timeout is in the past. Before `lock.unlock()`. -/
  | pastTimeout (call : Call Lock)
  | parkConditionally (call : Call Lock)
  /-- In the queue. Before `lock.unlock()`. -/
  | beforeSleep (call : Call Lock) (wait : Nat)
  | sleeping (call : Call Lock) (wait : Nat)
  /-- The timeout has passed. Before the thread leaves the queue by itself. -/
  | dequeue (call : Call Lock) (wait : Nat)
  /-- Before `lock.lock()`. The thread may not have waited at all. -/
  | relock (call : Call Lock) (wait : Option Nat) (result : Bool)
  /-- `waitUntil` returns. -/
  | returned (call : Call Lock) (wait : Option Nat) (result : Bool)
  /-- Before `notifyOne` loads the byte. -/
  | notifyOne (notify : Nat)
  | unparkOne (notify : Nat)
  /-- Before `notifyAll` loads the byte. -/
  | notifyAll (notify : Nat)
  /-- Before `notifyAll` stores false. -/
  | storeFalse (notify : Nat)
  | unparkAll (notify : Nat)
  /-- `notifyOne` or `notifyAll` returns. -/
  | notified (notify : Nat)

/-- What became of a wait. -/
inductive Outcome
  /-- It was dequeued by this call, at this step. -/
  | woken (notify stamp : Nat)
  | timedOut
  deriving DecidableEq

/-- A call of `notifyOne` or `notifyAll`. -/
structure Notify where
  all : Bool
  /-- The waits that were in the queue when it began. -/
  waiting : List Nat
  began : Nat
  /-- The step at which it returned. -/
  finished : Option Nat
  deriving DecidableEq

structure State (Thread Lock : Type) where
  /-- `Clock::now()`. -/
  now : Nat
  hasWaiters : Bool
  /-- The waits of the parked threads, in order. -/
  queue : List Nat
  owner : Lock → Option Thread
  place : Thread → Place Lock
  /-- How many steps there were so far. -/
  stamp : Nat
  waitCount : Nat
  outcome : Nat → Option Outcome
  notifyCount : Nat
  notify : Nat → Notify

inductive Event (Thread Lock : Type)
  /-- Time passes. -/
  | tick
  | lock (t : Thread) (lock : Lock)
  | unlock (t : Thread) (lock : Lock)
  | waitUntil (t : Thread) (lock : Lock) (timeout : Nat)
  | notifyOne (t : Thread)
  | notifyAll (t : Thread)
  /-- The thread goes on. -/
  | run (t : Thread)
  /-- The thread goes on with `unparkOne`. The bucket may have threads of other addresses. -/
  | unpark (t : Thread) (others : Bool)
  /-- The thread finds that its timeout has passed. -/
  | timeOut (t : Thread)

namespace State

variable {Thread Lock : Type} [DecidableEq Thread] [DecidableEq Lock]

def initial : State Thread Lock where
  now := 0
  hasWaiters := false
  queue := []
  owner := fun _ => none
  place := fun _ => .outside
  stamp := 0
  waitCount := 0
  outcome := fun _ => none
  notifyCount := 0
  notify := fun _ => ⟨false, [], 0, none⟩

variable (s : State Thread Lock)

def goTo (t : Thread) (p : Place Lock) : State Thread Lock :=
  { s with place := Function.update s.place t p }

def setOwner (lock : Lock) (owner : Option Thread) : State Thread Lock :=
  { s with owner := Function.update s.owner lock owner }

/-- `notifyOne` or `notifyAll` is called. -/
def beginNotify (all : Bool) : State Thread Lock :=
  { s with
    notify := Function.update s.notify s.notifyCount ⟨all, s.queue, s.stamp, none⟩
    notifyCount := s.notifyCount + 1 }

/-- `notifyOne` or `notifyAll` returns. -/
def endNotify (n : Nat) : State Thread Lock :=
  { s with
    notify := Function.update s.notify n { s.notify n with finished := some s.stamp } }

/-- The validation of `waitUntil` runs, and the thread is enqueued. -/
def enqueue : State Thread Lock :=
  { s with
    hasWaiters := true
    queue := s.queue ++ [s.waitCount]
    waitCount := s.waitCount + 1 }

/-- A thread leaves the queue by itself. -/
def leave (wait : Nat) : State Thread Lock :=
  { s with
    queue := s.queue.erase wait
    outcome := Function.update s.outcome wait (some .timedOut) }

/-- `unparkOne`, with the callback of `notifyOne`. -/
def unparkOne (n : Nat) (others : Bool) : State Thread Lock :=
  match s.queue with
  | [] => { s with hasWaiters := false }
  | wait :: rest =>
    let mayHaveMoreThreads := !rest.isEmpty || others
    { s with
      queue := rest
      outcome := Function.update s.outcome wait (some (.woken n s.stamp))
      hasWaiters := if mayHaveMoreThreads then s.hasWaiters else false }

def unparkAll (n : Nat) : State Thread Lock :=
  { s with
    queue := []
    outcome := fun wait =>
      if wait ∈ s.queue then some (.woken n s.stamp) else s.outcome wait }

def run (t : Thread) : Option (State Thread Lock) :=
  match s.place t with
  | .waitUntil call =>
    some (s.goTo t (if call.timeout < s.now then .pastTimeout call else .parkConditionally call))
  | .pastTimeout call => some ((s.setOwner call.lock none).goTo t (.relock call none false))
  | .parkConditionally call => some (s.enqueue.goTo t (.beforeSleep call s.waitCount))
  | .beforeSleep call wait => some ((s.setOwner call.lock none).goTo t (.sleeping call wait))
  | .sleeping call wait =>
    match s.outcome wait with
    | some (.woken _ _) => some (s.goTo t (.relock call (some wait) true))
    | _ => none
  | .dequeue call wait =>
    if wait ∈ s.queue then some ((s.leave wait).goTo t (.relock call (some wait) false))
    else some (s.goTo t (.relock call (some wait) true))
  | .relock call wait result =>
    if s.owner call.lock = none then
      some ((s.setOwner call.lock (some t)).goTo t (.returned call wait result))
    else none
  | .returned _ _ _ => some (s.goTo t .outside)
  | .notifyOne n => some (s.goTo t (if s.hasWaiters then .unparkOne n else .notified n))
  | .notifyAll n => some (s.goTo t (if s.hasWaiters then .storeFalse n else .notified n))
  | .storeFalse n => some ({ s with hasWaiters := false }.goTo t (.unparkAll n))
  | .unparkAll n => some ((s.unparkAll n).goTo t (.notified n))
  | .notified n => some ((s.endNotify n).goTo t .outside)
  | .outside | .unparkOne _ => none

/-- A thread calls `waitUntil` with a lock that it has. -/
def act : Event Thread Lock → Option (State Thread Lock)
  | .tick => some { s with now := s.now + 1 }
  | .lock t lock =>
    match s.place t with
    | .outside => if s.owner lock = none then some (s.setOwner lock (some t)) else none
    | _ => none
  | .unlock t lock =>
    match s.place t with
    | .outside => if s.owner lock = some t then some (s.setOwner lock none) else none
    | _ => none
  | .waitUntil t lock timeout =>
    match s.place t with
    | .outside =>
      if s.owner lock = some t then some (s.goTo t (.waitUntil ⟨lock, timeout, s.stamp⟩))
      else none
    | _ => none
  | .notifyOne t =>
    match s.place t with
    | .outside => some ((s.beginNotify false).goTo t (.notifyOne s.notifyCount))
    | _ => none
  | .notifyAll t =>
    match s.place t with
    | .outside => some ((s.beginNotify true).goTo t (.notifyAll s.notifyCount))
    | _ => none
  | .run t => s.run t
  | .unpark t others =>
    match s.place t with
    | .unparkOne n => some ((s.unparkOne n others).goTo t (.notified n))
    | _ => none
  | .timeOut t =>
    match s.place t with
    | .sleeping call wait =>
      if call.timeout ≤ s.now then some (s.goTo t (.dequeue call wait)) else none
    | _ => none

def stamped : State Thread Lock := { s with stamp := s.stamp + 1 }

def step (e : Event Thread Lock) : Option (State Thread Lock) :=
  (s.act e).map stamped

end State

end WebKit.Wtf.ConditionBase
