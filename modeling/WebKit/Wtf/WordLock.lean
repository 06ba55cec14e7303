import WebKit.Lib.LinkedQueue
import WebKit.Lib.Runs
import WebKit.Lib.Threads

/-!
# `WordLock`

The lock of one word, as in `wtf/WordLock.h` and `wtf/WordLock.cpp`. The word has a bit for the
lock, a bit for the lock of the queue, and the head of the queue. The records of the parked
threads are the nodes of the queue, and the record of the head also says where the queue ends.
There are any number of locks; a thread has one record.

Each step makes one access to the word or to a field of a record, or one operation of a mutex or a
condition variable. A thread that follows a null pointer crashes.
-/

namespace WebKit.Wtf.WordLock

def spinLimit : Nat := 40

/-- `m_word`: `isLockedBit`, `isQueueLockedBit` and the rest, a pointer. -/
@[ext]
structure Word (Thread : Type) where
  locked : Bool
  queueLocked : Bool
  queueHead : Option Thread
  deriving DecidableEq

def Word.zero {Thread : Type} : Word Thread := ⟨false, false, none⟩

def Word.isLocked {Thread : Type} : Word Thread := ⟨true, false, none⟩

structure ThreadData (Thread : Type) where
  shouldPark : Bool
  nextInQueue : Option Thread
  queueTail : Option Thread
  /-- The thread that has the mutex. -/
  parkingLock : Option Thread

/-- Where a thread is, with its local variables. `me` is the thread, `current` is
`currentWordValue`. -/
inductive Place (Lock Thread : Type)
  | outside
  /-- Before the `compareExchangeWeak` of `lock`. -/
  | lock (l : Lock)
  /-- At the head of the loop of `lockSlow`. -/
  | lockSlow (l : Lock) (spinCount : Nat)
  /-- Before the first `compareExchangeWeak` of `lockSlow`. -/
  | barge (l : Lock) (spinCount : Nat) (current : Word Thread)
  /-- Before the word is loaded again. -/
  | reload (l : Lock) (spinCount : Nat)
  /-- Before the second `compareExchangeWeak` of `lockSlow`. -/
  | lockQueue (l : Lock) (spinCount : Nat) (current : Word Thread)
  /-- Before `me->shouldPark = true`. -/
  | setShouldPark (l : Lock) (spinCount : Nat) (queueHead : Option Thread)
  /-- Before `queueHead->queueTail` is read. -/
  | readTail (l : Lock) (spinCount : Nat) (queueHead : Thread)
  /-- Before `queueTail->nextInQueue = me`. -/
  | writeNext (l : Lock) (spinCount : Nat) (queueHead queueTail : Thread)
  /-- Before `queueHead->queueTail = me`. -/
  | writeTail (l : Lock) (spinCount : Nat) (queueHead : Thread)
  /-- Before `me->queueTail = me`. -/
  | createQueue (l : Lock) (spinCount : Nat)
  /-- Before the word is loaded to release the queue, which the thread creates or not. -/
  | loadEnqueued (l : Lock) (spinCount : Nat) (creates : Bool)
  /-- Before the word is stored. -/
  | storeEnqueued (l : Lock) (spinCount : Nat) (creates : Bool) (current : Word Thread)
  /-- Before the thread locks its own `parkingLock`. -/
  | park (l : Lock) (spinCount : Nat)
  /-- Before `me->shouldPark` is read. -/
  | checkShouldPark (l : Lock) (spinCount : Nat)
  /-- Before `parkingCondition.wait`. -/
  | beforeWait (l : Lock) (spinCount : Nat)
  /-- Inside `parkingCondition.wait`. -/
  | sleeping (l : Lock) (spinCount : Nat)
  /-- Before the `compareExchangeWeak` of `unlock`. -/
  | unlock (l : Lock)
  /-- At the head of the loop of `unlockSlow`. -/
  | unlockSlow (l : Lock)
  /-- Before the first `compareExchangeWeak` of `unlockSlow`. -/
  | unlockExchange (l : Lock)
  /-- Before the second `compareExchangeWeak` of `unlockSlow`. -/
  | lockQueueToUnlock (l : Lock) (current : Word Thread)
  /-- Before the word is loaded for the head of the queue. -/
  | loadHead (l : Lock)
  /-- Before `queueHead->nextInQueue` is read. -/
  | readNext (l : Lock) (queueHead : Thread)
  /-- Before `queueHead->queueTail` is read. -/
  | readQueueTail (l : Lock) (queueHead newQueueHead : Thread)
  /-- Before `newQueueHead->queueTail` is written. -/
  | writeQueueTail (l : Lock) (queueHead newQueueHead : Thread) (queueTail : Option Thread)
  /-- Before the word is loaded to release the lock. -/
  | loadDequeued (l : Lock) (queueHead : Thread) (newQueueHead : Option Thread)
  /-- Before the word is stored. -/
  | storeDequeued (l : Lock) (queueHead : Thread) (newQueueHead : Option Thread)
      (current : Word Thread)
  /-- Before `queueHead->nextInQueue = nullptr`. -/
  | clearNext (l : Lock) (queueHead : Thread)
  /-- Before `queueHead->queueTail = nullptr`. -/
  | clearTail (l : Lock) (queueHead : Thread)
  /-- Before the thread locks the `parkingLock` of the old head. -/
  | lockParking (l : Lock) (queueHead : Thread)
  /-- Before `queueHead->shouldPark = false`. -/
  | clearShouldPark (l : Lock) (queueHead : Thread)
  /-- Before the thread unlocks the `parkingLock` of the old head. -/
  | unlockParking (l : Lock) (queueHead : Thread)
  /-- Before `parkingCondition.notify_one`. -/
  | notify (l : Lock) (queueHead : Thread)
  /-- A null pointer was followed. -/
  | crashed

structure State (Lock Thread : Type) where
  word : Lock → Word Thread
  data : Thread → ThreadData Thread
  place : Thread → Place Lock Thread
  /-- The thread is between the end of `lock` and the call of `unlock`. -/
  holds : Thread → Lock → Bool
  /-- The threads in the queue, in order, which is not in the memory of the program: a thread is
  enqueued and dequeued when the word is stored. -/
  enqueued : Lock → List Thread

inductive Event (Lock Thread : Type)
  | lock (t : Thread) (l : Lock)
  | unlock (t : Thread) (l : Lock)
  /-- The thread goes on. A `compareExchangeWeak` may fail although it compares equal values. -/
  | run (t : Thread) (spurious : Bool)
  /-- The wait of a condition variable ends without a notification. -/
  | wakeUp (t : Thread)

namespace State

variable {Lock Thread : Type} [DecidableEq Lock] [DecidableEq Thread]

def initial : State Lock Thread where
  word _ := .zero
  data _ := ⟨false, none, none, none⟩
  place _ := .outside
  holds _ _ := false
  enqueued _ := []

variable (s : State Lock Thread) (t : Thread)

def goTo (p : Place Lock Thread) : State Lock Thread :=
  { s with place := Function.update s.place t p }

variable (l : Lock)

def store (w : Word Thread) : State Lock Thread :=
  { s with word := Function.update s.word l w }

def write (x : Thread) (d : ThreadData Thread) : State Lock Thread :=
  { s with data := Function.update s.data x d }

def setHolds (b : Bool) : State Lock Thread :=
  { s with holds := Function.update s.holds t (Function.update (s.holds t) l b) }

def setEnqueued (q : List Thread) : State Lock Thread :=
  { s with enqueued := Function.update s.enqueued l q }

/-- The lock was acquired, and `lock` returns. -/
def acquired (w : Word Thread) :
    State Lock Thread :=
  ((s.store l { w with locked := true }).setHolds t l true).goTo t .outside

/-- The rest of the loop of `lockSlow` up to the second load. -/
def afterBarge (spinCount : Nat) (current : Word Thread) : Place Lock Thread :=
  if current.queueHead = none ∧ spinCount < spinLimit then .lockSlow l (spinCount + 1)
  else .reload l spinCount

/-- `notify_one`: the thread may be waiting. -/
def notifyOne (x : Thread) : State Lock Thread :=
  match s.place x with
  | .sleeping l spinCount => s.goTo x (.park l spinCount)
  | _ => s

variable (spurious : Bool)

/-- The steps inside `lock`. -/
def runLock :
    Place Lock Thread → Option (State Lock Thread)
  | .lock l =>
    if s.word l = .zero ∧ spurious = false then some (s.acquired t l .zero)
    else some (s.goTo t (.lockSlow l 0))
  | .lockSlow l spinCount =>
    some (s.goTo t (if (s.word l).locked = false then .barge l spinCount (s.word l)
      else afterBarge l spinCount (s.word l)))
  | .barge l spinCount current =>
    if s.word l = current ∧ spurious = false then some (s.acquired t l current)
    else some (s.goTo t (afterBarge l spinCount current))
  | .reload l spinCount =>
    some (s.goTo t (if (s.word l).queueLocked = true ∨ (s.word l).locked = false then
      .lockSlow l spinCount else .lockQueue l spinCount (s.word l)))
  | .lockQueue l spinCount current =>
    if s.word l = current ∧ spurious = false then
      some ((s.store l { current with queueLocked := true }).goTo t
        (.setShouldPark l spinCount current.queueHead))
    else some (s.goTo t (.lockSlow l spinCount))
  | .setShouldPark l spinCount queueHead =>
    let s := s.write t { s.data t with shouldPark := true }
    match queueHead with
    | some h => some (s.goTo t (.readTail l spinCount h))
    | none => some (s.goTo t (.createQueue l spinCount))
  | .readTail l spinCount h =>
    match (s.data h).queueTail with
    | some tail => some (s.goTo t (.writeNext l spinCount h tail))
    | none => some (s.goTo t .crashed)
  | .writeNext l spinCount h tail =>
    some ((s.write tail { s.data tail with nextInQueue := some t }).goTo t
      (.writeTail l spinCount h))
  | .writeTail l spinCount h =>
    some ((s.write h { s.data h with queueTail := some t }).goTo t
      (.loadEnqueued l spinCount false))
  | .createQueue l spinCount =>
    some ((s.write t { s.data t with queueTail := some t }).goTo t
      (.loadEnqueued l spinCount true))
  | .loadEnqueued l spinCount creates =>
    some (s.goTo t (.storeEnqueued l spinCount creates (s.word l)))
  | .storeEnqueued l spinCount creates current =>
    -- the pointer of the thread is or-ed to a pointer that is null
    if creates = true ∧ current.queueHead ≠ none then some (s.goTo t .crashed)
    else
      let queueHead := if creates then some t else current.queueHead
      some (((s.store l ⟨current.locked, false, queueHead⟩).setEnqueued l
        (s.enqueued l ++ [t])).goTo t (.park l spinCount))
  | .park l spinCount =>
    if (s.data t).parkingLock = none then
      some ((s.write t { s.data t with parkingLock := some t }).goTo t
        (.checkShouldPark l spinCount))
    else none
  | .checkShouldPark l spinCount =>
    if (s.data t).shouldPark then some (s.goTo t (.beforeWait l spinCount))
    else
      some ((s.write t { s.data t with parkingLock := none }).goTo t (.lockSlow l spinCount))
  | .beforeWait l spinCount =>
    some ((s.write t { s.data t with parkingLock := none }).goTo t (.sleeping l spinCount))
  | _ => none

/-- The steps inside `unlock`. -/
def runUnlock :
    Place Lock Thread → Option (State Lock Thread)
  | .unlock l =>
    if s.word l = .isLocked ∧ spurious = false then some ((s.store l .zero).goTo t .outside)
    else some (s.goTo t (.unlockSlow l))
  | .unlockSlow l =>
    some (s.goTo t (if s.word l = .isLocked then .unlockExchange l
      else if (s.word l).queueLocked then .unlockSlow l else .lockQueueToUnlock l (s.word l)))
  | .unlockExchange l =>
    if s.word l = .isLocked ∧ spurious = false then some ((s.store l .zero).goTo t .outside)
    else some (s.goTo t (.unlockSlow l))
  | .lockQueueToUnlock l current =>
    if s.word l = current ∧ spurious = false then
      some ((s.store l { current with queueLocked := true }).goTo t (.loadHead l))
    else some (s.goTo t (.unlockSlow l))
  | .loadHead l =>
    match (s.word l).queueHead with
    | some h => some (s.goTo t (.readNext l h))
    | none => some (s.goTo t .crashed)
  | .readNext l h =>
    match (s.data h).nextInQueue with
    | some new => some (s.goTo t (.readQueueTail l h new))
    | none => some (s.goTo t (.loadDequeued l h none))
  | .readQueueTail l h new => some (s.goTo t (.writeQueueTail l h new (s.data h).queueTail))
  | .writeQueueTail l h new tail =>
    some ((s.write new { s.data new with queueTail := tail }).goTo t
      (.loadDequeued l h (some new)))
  | .loadDequeued l h new => some (s.goTo t (.storeDequeued l h new (s.word l)))
  | .storeDequeued l h new _ =>
    -- all bits of the loaded value are cleared
    some (((s.store l ⟨false, false, new⟩).setEnqueued l (s.enqueued l).tail).goTo t
      (.clearNext l h))
  | .clearNext l h =>
    some ((s.write h { s.data h with nextInQueue := none }).goTo t (.clearTail l h))
  | .clearTail l h =>
    some ((s.write h { s.data h with queueTail := none }).goTo t (.lockParking l h))
  | .lockParking l h =>
    if (s.data h).parkingLock = none then
      some ((s.write h { s.data h with parkingLock := some t }).goTo t (.clearShouldPark l h))
    else none
  | .clearShouldPark l h =>
    some ((s.write h { s.data h with shouldPark := false }).goTo t (.unlockParking l h))
  | .unlockParking l h =>
    some ((s.write h { s.data h with parkingLock := none }).goTo t (.notify l h))
  | .notify _ h => some ((s.notifyOne h).goTo t .outside)
  | _ => none

def run : Option (State Lock Thread) :=
  (s.runLock t spurious (s.place t)).or (s.runUnlock t spurious (s.place t))

/-- Only a thread that holds the lock calls `unlock`, and only one that does not calls `lock`. -/
def step : Event Lock Thread → Option (State Lock Thread)
  | .lock t l =>
    match s.place t with
    | .outside => if s.holds t l = false then some (s.goTo t (.lock l)) else none
    | _ => none
  | .unlock t l =>
    match s.place t with
    | .outside =>
      if s.holds t l = true then some ((s.setHolds t l false).goTo t (.unlock l)) else none
    | _ => none
  | .run t spurious => s.run t spurious
  | .wakeUp t =>
    match s.place t with
    | .sleeping l spinCount => some (s.goTo t (.park l spinCount))
    | _ => none

end State

end WebKit.Wtf.WordLock
