import WebKit.Lib.Runs

/-!
# Waiting for a message

`Connection::waitForMessage` on the main thread against `processIncomingMessage`,
`enqueueIncomingMessage` and `connectionDidClose` on the receive queue of the connection, which
runs one task at a time. An event is one critical section, together with what its thread does up to
the next one.

The queue is searched under one lock, the waiter is registered under another, and whether it was
interrupted is only looked at after a wake-up. A message, an interruption or a close that falls
between these steps is missed, and nothing else is.

`WTF::Condition` has no spurious wake-ups; the timeout may come at any time.
-/

namespace WebKit.Ipc.WaitForMessage

open Runs List

structure MessageDecoder where
  messageReceiverName : String
  messageName : String
  destinationID : Nat
  isSyncMessage : Bool
  shouldDispatchMessageWhenWaitingForSyncReply : Bool
  deriving DecidableEq

/-- The arguments of `waitForMessage`. -/
structure Wanted where
  messageReceiverName : String
  messageName : String
  destinationID : Nat
  interruptWaitingIfSyncMessageArrives : Bool
  deriving DecidableEq

structure WaitForMessageState extends Wanted where
  messageWaitingInterrupted : Bool := false
  decoder : Option MessageDecoder := none
  deriving DecidableEq

def Wanted.isMessage (w : Wanted) (m : MessageDecoder) : Bool :=
  w.messageReceiverName == m.messageReceiverName && w.messageName == m.messageName &&
    w.destinationID == m.destinationID

/-- The messages that a waiting call could return. -/
def WaitForMessageState.available (w : WaitForMessageState) (incoming : List MessageDecoder) :
    List MessageDecoder :=
  w.decoder.toList ++ incoming.filter w.isMessage

/-- Where a registered call is. -/
inductive Phase where
  /-- At the head of its loop, about to take the lock. -/
  | loop
  /-- Parked on the condition. -/
  | blocked
  /-- Woken up by a notification, about to take the lock again. -/
  | notified
  /-- The wait has timed out. What it could have returned is kept as history. -/
  | timedOut (available : List MessageDecoder)
  deriving DecidableEq

/-- The main thread. `m_waitingForMessage` points to the local variable of a registered call. -/
inductive MainThread where
  | idle
  /-- The queue has been searched. -/
  | searched (w : Wanted)
  | registered (phase : Phase) (waitingForMessage : WaitForMessageState)
  deriving DecidableEq

inductive ReceiveQueue where
  | idle
  /-- `processIncomingMessage`, about to see whether someone waits for the message. -/
  | processing (message : MessageDecoder)
  /-- About to call `enqueueIncomingMessage`. -/
  | enqueueing (message : MessageDecoder)
  /-- `connectionDidClose`, about to interrupt who waits. -/
  | closing
  /-- `connectionDidClose`, about to notify. -/
  | notifying
  deriving DecidableEq

/-- Is a notification on its way? -/
def ReceiveQueue.notifies : ReceiveQueue → Bool
  | .closing => true
  | .notifying => true
  | _ => false

/-- A call that has returned: the messages it could have returned then, and the one it did return.
-/
structure Returned where
  wanted : Wanted
  available : List MessageDecoder
  result : Option MessageDecoder
  deriving DecidableEq

structure State where
  workQueueMessageReceivers : List String
  incomingMessages : List MessageDecoder := []
  main : MainThread := .idle
  receiveQueue : ReceiveQueue := .idle
  didClose : Bool := false
  returned : List Returned := []

/-! ## The main thread -/

def State.returnFromWait (s : State) (w : Wanted) (available : List MessageDecoder)
    (result : Option MessageDecoder) : State :=
  { s with main := .idle, returned := s.returned ++ [⟨w, available, result⟩] }

open WebKit.Ipc.WaitForMessage.State

/-- `waitForMessage`, up to the registration. -/
def State.waitForMessage (s : State) (w : Wanted) : Option State :=
  match s.main with
  | .idle =>
    match s.incomingMessages.find? w.isMessage with
    | some message =>
      some (returnFromWait
        { s with incomingMessages := s.incomingMessages.eraseP w.isMessage }
        w (s.incomingMessages.filter w.isMessage) (some message))
    | none =>
      if s.incomingMessages.any (·.isSyncMessage) && w.interruptWaitingIfSyncMessageArrives
      then some (s.returnFromWait w (s.incomingMessages.filter w.isMessage) none)
      else some { s with main := .searched w }
  | _ => none

def State.register (s : State) : Option State :=
  match s.main with
  | .searched w => some { s with main := .registered .loop { toWanted := w } }
  | _ => none

/-- The loop, up to the end of the wait. -/
def State.wait (s : State) : Option State :=
  match s.main with
  | .registered .loop w =>
    match w.decoder with
    | some message =>
      some (s.returnFromWait w.toWanted (w.available s.incomingMessages) (some message))
    | none => some { s with main := .registered .blocked w }
  | _ => none

def State.timeOut (s : State) : Option State :=
  match s.main with
  | .registered .blocked w =>
    some { s with main := .registered (.timedOut (w.available s.incomingMessages)) w }
  | _ => none

/-- The lock is taken again. -/
def State.wakeUp (s : State) : Option State :=
  match s.main with
  | .registered .notified w =>
    if w.messageWaitingInterrupted then
      some (s.returnFromWait w.toWanted (w.available s.incomingMessages) none)
    else some { s with main := .registered .loop w }
  | .registered (.timedOut available) w => some (s.returnFromWait w.toWanted available none)
  | _ => none

/-- A task of the run loop. -/
def State.dispatchOneMessage (s : State) : Option State :=
  match s.main with
  | .idle => some { s with incomingMessages := s.incomingMessages.tail }
  | _ => none

/-! ## The receive queue -/

/-- `processIncomingMessage` hands sync replies and messages for other receivers or
`SyncMessageState` on. -/
def State.isHandledElsewhere (s : State) (m : MessageDecoder) : Bool :=
  m.messageReceiverName == "IPC" && m.messageName == "SyncMessageReply" ||
    m.messageReceiverName == "" ||
    s.workQueueMessageReceivers.contains m.messageReceiverName ||
    m.shouldDispatchMessageWhenWaitingForSyncReply

def State.processIncomingMessage (s : State) (m : MessageDecoder) : Option State :=
  match s.receiveQueue with
  | .idle =>
    if s.isHandledElsewhere m then some s else some { s with receiveQueue := .processing m }
  | _ => none

def Phase.notify : Phase → Phase
  | .blocked => .notified
  | phase => phase

/-- "Check if we're waiting for this message." -/
def State.checkWaitingForMessage (s : State) : Option State :=
  match s.receiveQueue with
  | .processing m =>
    match s.main with
    | .registered phase w =>
      if w.decoder.isNone && w.isMessage m then
        some { s with
          main := .registered phase.notify { w with decoder := some m }
          receiveQueue := .idle }
      else if w.decoder.isNone && w.interruptWaitingIfSyncMessageArrives && m.isSyncMessage then
        some { s with
          main := .registered phase.notify { w with messageWaitingInterrupted := true }
          receiveQueue := .enqueueing m }
      else some { s with receiveQueue := .enqueueing m }
    | _ => some { s with receiveQueue := .enqueueing m }
  | _ => none

def State.enqueueIncomingMessage (s : State) : Option State :=
  match s.receiveQueue with
  | .enqueueing m =>
    some { s with incomingMessages := s.incomingMessages ++ [m], receiveQueue := .idle }
  | _ => none

def State.connectionDidClose (s : State) : Option State :=
  match s.receiveQueue with
  | .idle => some { s with didClose := true, receiveQueue := .closing }
  | _ => none

def State.interruptWaiting (s : State) : Option State :=
  match s.receiveQueue with
  | .closing =>
    match s.main with
    | .registered phase w =>
      some { s with
        main := .registered phase { w with messageWaitingInterrupted := true }
        receiveQueue := .notifying }
    | _ => some { s with receiveQueue := .notifying }
  | _ => none

def State.notifyAll (s : State) : Option State :=
  match s.receiveQueue with
  | .notifying =>
    match s.main with
    | .registered phase w =>
      some { s with main := .registered phase.notify w, receiveQueue := .idle }
    | _ => some { s with receiveQueue := .idle }
  | _ => none

inductive Event where
  | waitForMessage (w : Wanted)
  | register
  | wait
  | timeOut
  | wakeUp
  | dispatchOneMessage
  | processIncomingMessage (message : MessageDecoder)
  | checkWaitingForMessage
  | enqueueIncomingMessage
  | connectionDidClose
  | interruptWaiting
  | notifyAll
  deriving DecidableEq

def step (s : State) : Event → Option State
  | .waitForMessage w => s.waitForMessage w
  | .register => s.register
  | .wait => s.wait
  | .timeOut => s.timeOut
  | .wakeUp => s.wakeUp
  | .dispatchOneMessage => s.dispatchOneMessage
  | .processIncomingMessage m => s.processIncomingMessage m
  | .checkWaitingForMessage => s.checkWaitingForMessage
  | .enqueueIncomingMessage => s.enqueueIncomingMessage
  | .connectionDidClose => s.connectionDidClose
  | .interruptWaiting => s.interruptWaiting
  | .notifyAll => s.notifyAll

/-! ## What an event can do -/

/-- The cases of an event, each with what it found and the state it leads to. -/
inductive Step (s : State) : Event → State → Prop
  | found {w : Wanted} {m : MessageDecoder} : s.main = .idle → w.isMessage m = true →
      m ∈ s.incomingMessages →
      Step s (.waitForMessage w)
        (returnFromWait { s with incomingMessages := s.incomingMessages.eraseP w.isMessage }
          w (s.incomingMessages.filter w.isMessage) (some m))
  | doNotWait {w : Wanted} : s.main = .idle → s.incomingMessages.filter w.isMessage = [] →
      Step s (.waitForMessage w) (s.returnFromWait w (s.incomingMessages.filter w.isMessage) none)
  | searched {w : Wanted} : s.main = .idle → (∀ m ∈ s.incomingMessages, w.isMessage m = false) →
      Step s (.waitForMessage w) { s with main := .searched w }
  | register {w : Wanted} : s.main = .searched w →
      Step s .register { s with main := .registered .loop { toWanted := w } }
  | returnMessage {w : WaitForMessageState} {m : MessageDecoder} :
      s.main = .registered .loop w → w.decoder = some m →
      Step s .wait (s.returnFromWait w.toWanted (w.available s.incomingMessages) (some m))
  | block {w : WaitForMessageState} : s.main = .registered .loop w → w.decoder = none →
      Step s .wait { s with main := .registered .blocked w }
  | timeOut {w : WaitForMessageState} : s.main = .registered .blocked w →
      Step s .timeOut
        { s with main := .registered (.timedOut (w.available s.incomingMessages)) w }
  | interrupted {w : WaitForMessageState} : s.main = .registered .notified w →
      w.messageWaitingInterrupted = true →
      Step s .wakeUp (s.returnFromWait w.toWanted (w.available s.incomingMessages) none)
  | goOn {w : WaitForMessageState} : s.main = .registered .notified w →
      w.messageWaitingInterrupted = false →
      Step s .wakeUp { s with main := .registered .loop w }
  | giveUp {w : WaitForMessageState} {available : List MessageDecoder} :
      s.main = .registered (.timedOut available) w →
      Step s .wakeUp (s.returnFromWait w.toWanted available none)
  | dispatchOneMessage : s.main = .idle →
      Step s .dispatchOneMessage { s with incomingMessages := s.incomingMessages.tail }
  | handledElsewhere (m : MessageDecoder) : Step s (.processIncomingMessage m) s
  | receive (m : MessageDecoder) : s.receiveQueue = .idle →
      Step s (.processIncomingMessage m) { s with receiveQueue := .processing m }
  | deliver {phase : Phase} {w : WaitForMessageState} {m : MessageDecoder} :
      s.receiveQueue = .processing m → s.main = .registered phase w → w.decoder = none →
      w.isMessage m = true →
      Step s .checkWaitingForMessage
        { s with
          main := .registered phase.notify { w with decoder := some m }
          receiveQueue := .idle }
  | interrupt {phase : Phase} {w : WaitForMessageState} {m : MessageDecoder} :
      s.receiveQueue = .processing m → s.main = .registered phase w → w.decoder = none →
      w.isMessage m = false → w.interruptWaitingIfSyncMessageArrives = true →
      m.isSyncMessage = true →
      Step s .checkWaitingForMessage
        { s with
          main := .registered phase.notify { w with messageWaitingInterrupted := true }
          receiveQueue := .enqueueing m }
  | doNotDeliver {m : MessageDecoder} : s.receiveQueue = .processing m →
      Step s .checkWaitingForMessage { s with receiveQueue := .enqueueing m }
  | enqueue {m : MessageDecoder} : s.receiveQueue = .enqueueing m →
      Step s .enqueueIncomingMessage
        { s with incomingMessages := s.incomingMessages ++ [m], receiveQueue := .idle }
  | close : s.receiveQueue = .idle →
      Step s .connectionDidClose { s with didClose := true, receiveQueue := .closing }
  | closeWhileWaiting {phase : Phase} {w : WaitForMessageState} : s.main = .registered phase w →
      Step s .interruptWaiting
        { s with
          main := .registered phase { w with messageWaitingInterrupted := true }
          receiveQueue := .notifying }
  | closeBeforeWaiting : (∀ phase w, s.main ≠ .registered phase w) →
      Step s .interruptWaiting { s with receiveQueue := .notifying }
  | notify {phase : Phase} {w : WaitForMessageState} : s.receiveQueue = .notifying →
      s.main = .registered phase w →
      Step s .notifyAll { s with main := .registered phase.notify w, receiveQueue := .idle }
  | notifyNobody : (∀ phase w, s.main ≠ .registered phase w) →
      Step s .notifyAll { s with receiveQueue := .idle }

variable {s s' : State} {e : Event} {w : Wanted}

theorem step_waitForMessage (h : s.waitForMessage w = some s') : Step s (.waitForMessage w) s' := by
  revert h
  fun_cases waitForMessage s w <;> rintro ⟨⟩
  case case1 hmn m hfn =>
    exact .found hmn (find?_some hfn) (mem_of_find?_eq_some hfn)
  case case2 hmn hfn _ => exact .doNotWait hmn (by simpa using hfn)
  case case3 hmn hfn _ => exact .searched hmn (by simpa using hfn)

theorem step_checkWaitingForMessage (h : s.checkWaitingForMessage = some s') :
    Step s .checkWaitingForMessage s' := by
  revert h
  fun_cases checkWaitingForMessage s <;> rintro ⟨⟩
  case case1 hq _ _ hmn hdlr =>
    rw [Bool.and_eq_true, Option.isNone_iff_eq_none] at hdlr
    exact .deliver hq hmn hdlr.1 hdlr.2
  case case2 hq _ _ hmn hdlr hin =>
    rw [Bool.and_eq_true, Bool.and_eq_true, Option.isNone_iff_eq_none] at hin
    rw [hin.1.1, Option.isNone_none, Bool.true_and, Bool.not_eq_true] at hdlr
    exact .interrupt hq hmn hin.1.1 hdlr hin.1.2 hin.2
  case case3 => exact .doNotDeliver ‹_›
  case case4 => exact .doNotDeliver ‹_›

/-- **The cases of an event.** -/
theorem cases_of_step (h : step s e = some s') : Step s e s' := by
  revert h
  fun_cases step s e
  case case1 w => exact step_waitForMessage
  case case2 =>
    fun_cases register s <;> rintro ⟨⟩
    exact .register ‹_›
  case case3 =>
    fun_cases wait s <;> rintro ⟨⟩
    · exact .returnMessage ‹_› ‹_›
    · exact .block ‹_› ‹_›
  case case4 =>
    fun_cases timeOut s <;> rintro ⟨⟩
    exact .timeOut ‹_›
  case case5 =>
    fun_cases wakeUp s <;> rintro ⟨⟩
    · exact .interrupted ‹_› ‹_›
    · exact .goOn ‹_› (Bool.eq_false_iff.mpr ‹_›)
    · exact .giveUp ‹_›
  case case6 =>
    fun_cases dispatchOneMessage s <;> rintro ⟨⟩
    exact .dispatchOneMessage ‹_›
  case case7 m =>
    fun_cases processIncomingMessage s m <;> rintro ⟨⟩
    · exact .handledElsewhere m
    · exact .receive m ‹_›
  case case8 => exact step_checkWaitingForMessage
  case case9 =>
    fun_cases enqueueIncomingMessage s <;> rintro ⟨⟩
    exact .enqueue ‹_›
  case case10 =>
    fun_cases connectionDidClose s <;> rintro ⟨⟩
    exact .close ‹_›
  case case11 =>
    fun_cases interruptWaiting s <;> rintro ⟨⟩
    · exact .closeWhileWaiting ‹_›
    · exact .closeBeforeWaiting ‹_›
  case case12 =>
    fun_cases notifyAll s <;> rintro ⟨⟩
    · exact .notify ‹_› ‹_›
    · exact .notifyNobody ‹_›

/-! ## A message that was handed over -/

/-- A registered call holds the message it waits for or none, and none while it is
blocked. -/
def Holds (s : State) : Prop :=
  ∀ phase w, s.main = .registered phase w →
    (∀ m, w.decoder = some m → w.isMessage m = true) ∧ (phase = .blocked → w.decoder = none)

theorem Phase.notify_ne_blocked (phase : Phase) : phase.notify ≠ .blocked := by
  cases phase with
  | blocked | loop | notified | timedOut available => simp [Phase.notify]

open MainThread

theorem Holds.step (h : Holds s) (hs : Step s e s') : Holds s' := by
  -- the call moves on without a new message
  have hmvs : ∀ {phase phase' w w'}, s.main = .registered phase w →
      s'.main = .registered phase' w' → w'.toWanted = w.toWanted → w'.decoder = w.decoder →
      (phase' = .blocked → w.decoder = none) → Holds s' := by
    intro phase phase' w w' hmn hmn' hwanted hd hblk phase'' w'' hmn''
    obtain ⟨rfl, rfl⟩ := registered.inj (hmn'.symm.trans hmn'')
    rw [hwanted, hd]
    exact ⟨(h _ _ hmn).1, hblk⟩
  -- no call is registered
  have hno : (∀ phase w, s'.main ≠ .registered phase w) → Holds s' := fun hne phase w hmn =>
    absurd hmn (hne phase w)
  cases hs with
  | found _ _ _ | doNotWait _ _ | returnMessage _ _ | interrupted _ _ | giveUp _ =>
    exact hno (by simp [returnFromWait])
  | searched _ _ => exact hno (by simp)
  | register _ =>
    intro phase w hmn
    obtain ⟨rfl, rfl⟩ := registered.inj hmn
    exact ⟨by simp, by simp⟩
  | block hmn hd | @interrupt phase w m _ hmn hd _ _ _ =>
    exact hmvs hmn rfl rfl rfl (fun _ => hd)
  | timeOut hmn | goOn hmn _ => exact hmvs hmn rfl rfl rfl (by simp)
  | @deliver phase w m _ hmn _ hm =>
    intro phase' w' hmn'
    obtain ⟨rfl, rfl⟩ := registered.inj hmn'
    refine ⟨?_, fun hblk => absurd hblk phase.notify_ne_blocked⟩
    intro m' hm'
    exact Option.some.inj hm' ▸ hm
  | closeWhileWaiting hmn => exact hmvs hmn rfl rfl rfl (h _ _ hmn).2
  | @notify phase w _ hmn =>
    exact hmvs hmn rfl rfl rfl (fun hblk => absurd hblk phase.notify_ne_blocked)
  | _ => exact h

/-- A call that was handed its message returns it, unless it was interrupted or has timed out. -/
def Delivers (s : State) : Prop :=
  ∀ phase w m, s.main = .registered phase w → w.decoder = some m →
    w.messageWaitingInterrupted = false → (∀ available, phase ≠ .timedOut available) →
    ∃ events ∈ [[Event.wait], [.wakeUp, .wait]], ∃ s', run step s events = some s' ∧
      s'.returned = s.returned ++ [⟨w.toWanted, w.available s.incomingMessages, some m⟩]

theorem delivers_of_holds (h : Holds s) : Delivers s := by
  intro phase w m hmn hd hfl htm
  have hwt : ∀ t : State, t.main = .registered .loop w →
      step t .wait =
        some (t.returnFromWait w.toWanted (w.available t.incomingMessages) (some m)) := by
    intro t ht
    show t.wait = _
    simp only [wait, ht, hd]
  cases phase with
  | loop =>
    refine ⟨[.wait], by simp, _, run_cons.mpr ⟨_, hwt s hmn, run_nil⟩, rfl⟩
  | blocked => exact absurd (((h _ _ hmn).2 rfl).symm.trans hd) (by simp)
  | notified =>
    have hwk : step s .wakeUp = some { s with main := .registered .loop w } := by
      show s.wakeUp = _
      simp [wakeUp, hmn, hfl]
    refine ⟨[.wakeUp, .wait], by simp, _,
      run_cons.mpr ⟨_, hwk, run_cons.mpr ⟨_, hwt _ rfl, run_nil⟩⟩, rfl⟩
  | timedOut available => exact absurd rfl (htm available)

/-! ## Missed events -/

/-- What a blocked call should have seen. -/
structure Overlooks (s : State) (w : WaitForMessageState) : Prop where
  noNotification : s.receiveQueue.notifies = false
  event : (∃ m ∈ s.incomingMessages, w.isMessage m = true) ∨
    w.messageWaitingInterrupted = true ∨ s.didClose = true

/-- No blocked call overlooks something, and no call returned without a message that was there. -/
structure NeverMisses (s : State) : Prop where
  blocked : ∀ w, s.main = .registered .blocked w → ¬ Overlooks s w
  found : ∀ r ∈ s.returned, ∀ m, r.result = some m →
    m ∈ r.available ∧ r.wanted.isMessage m = true
  nothing : ∀ r ∈ s.returned, r.result = none → r.available = []
  timedOut : ∀ available w, s.main = .registered (.timedOut available) w → available = []

/-! ## Schedules -/

/-- Has the wait not timed out? -/
def Phase.waits : Phase → Bool
  | .timedOut _ => false
  | _ => true

/-- What a call past its search waits for, until it has the message or gives up. -/
def MainThread.waitsFor : MainThread → Option Wanted
  | .idle => none
  | .searched w => some w
  | .registered phase w => if phase.waits ∧ w.decoder = none then some w.toWanted else none

/-- The receive queue is in time. A call begins while the connection is open; nothing that it
waits for is queued behind its search; it is not interrupted before it waits, nor its
message handed over after that; and the tasks of a close do not fall between its search and its
wait, nor between a message and its wake-up. -/
def InTime (s : State) : Event → Prop
  | .waitForMessage _ => s.didClose = false
  | .checkWaitingForMessage => ∀ m phase w, s.receiveQueue = .processing m →
      s.main = .registered phase w → w.decoder = none →
      if w.isMessage m then phase = .notified → w.messageWaitingInterrupted = false
      else w.interruptWaitingIfSyncMessageArrives = true → m.isSyncMessage = true → phase ≠ .loop
  | .enqueueIncomingMessage => ∀ m w, s.receiveQueue = .enqueueing m →
      s.main.waitsFor = some w → w.isMessage m = false
  | .interruptWaiting => (∀ w, s.main ≠ .searched w) ∧
      ∀ w, s.main = .registered .notified w → w.decoder = none
  | .notifyAll => (∀ w, s.main ≠ .searched w) ∧
      ∀ w, s.main = .registered .loop w → w.decoder ≠ none
  | _ => True

/-- Is there no call, or does it know that it is interrupted? -/
def MainThread.toldToStop : MainThread → Bool
  | .idle => true
  | .searched _ => false
  | .registered _ w => w.messageWaitingInterrupted

/-- Nothing that a call waits for is in the queue, a close that it has not been told of is still
going on, and so is one that it was told of before it was woken up. -/
structure Attentive (s : State) : Prop where
  queue : ∀ w, s.main.waitsFor = some w → ∀ m ∈ s.incomingMessages, w.isMessage m = false
  closing : s.didClose = true → s.main.toldToStop = false → s.receiveQueue = .closing
  notifying : ∀ phase w, s.main = .registered phase w → w.messageWaitingInterrupted = true →
    phase = .blocked ∨ phase = .loop ∧ w.decoder = none → s.receiveQueue = .notifying
  interrupted : ∀ w, s.main = .registered .notified w → w.messageWaitingInterrupted = true →
    w.decoder = none

theorem Attentive.of_idle (h : s.main = .idle) : Attentive s := by
  constructor <;> simp [h, MainThread.waitsFor, MainThread.toldToStop]

/-- A message is checked against the call. -/
theorem Attentive.check (h : Attentive s) (hc : InTime s .checkWaitingForMessage)
    (hs : Step s .checkWaitingForMessage s') : Attentive s' := by
  have ⟨hqu, hcl, hno, hint⟩ := h
  cases hs with
  | @deliver phase w m hq hmn hd hm =>
    have hflag := hc m phase w hq hmn hd
    rw [if_pos hm] at hflag
    constructor <;>
      grind [cases Phase, MainThread.waitsFor, Phase.waits, MainThread.toldToStop, Phase.notify]
  | @interrupt phase w m hq hmn hd hm hfl hsync =>
    have hloop := hc m phase w hq hmn hd
    rw [if_neg (by simp [hm])] at hloop
    constructor <;>
      grind [cases Phase, MainThread.waitsFor, Phase.waits, MainThread.toldToStop, Phase.notify]
  | doNotDeliver hq =>
    constructor <;> grind

theorem Attentive.step (h : Attentive s) (hhd : Holds s) (hc : InTime s e) (hs : Step s e s') :
    Attentive s' := by
  have ⟨hqu, hcl, hno, hint⟩ := h
  cases hs with
  | found _ _ _ | doNotWait _ _ | returnMessage _ _ | interrupted _ _ | giveUp _ =>
    exact .of_idle rfl
  | dispatchOneMessage hmn => exact .of_idle hmn
  | handledElsewhere m => exact ⟨hqu, hcl, hno, hint⟩
  | searched _ _ | register _ | block _ _ | timeOut _ | goOn _ _ | closeWhileWaiting _ =>
    constructor <;> simp_all [MainThread.waitsFor, Phase.waits, MainThread.toldToStop, InTime]
  | receive _ _ | close _ => constructor <;> grind
  | enqueue _ => constructor <;> grind [InTime]
  | deliver hq hmn hd hm => exact h.check hc (.deliver hq hmn hd hm)
  | interrupt hq hmn hd hm hfl hsync => exact h.check hc (.interrupt hq hmn hd hm hfl hsync)
  | doNotDeliver hq => exact h.check hc (.doNotDeliver hq)
  | closeBeforeWaiting hmn | notifyNobody hmn =>
    have hidle : s.main = .idle := by
      cases hmain : s.main with
      | idle => rfl
      | searched w => exact absurd hmain (hc.1 w)
      | registered phase w => exact absurd hmain (hmn phase w)
    exact .of_idle hidle
  | @notify phase w hq hmn =>
    have hblk := hhd phase w hmn
    constructor <;> grind [cases Phase, MainThread.waitsFor, Phase.waits, MainThread.toldToStop,
      Phase.notify, InTime]

/-- A blocked call overlooks nothing. -/
theorem Attentive.not_overlooks {w : WaitForMessageState} (h : Attentive s) (hhd : Holds s)
    (hmn : s.main = .registered .blocked w) : ¬ Overlooks s w := by
  rintro ⟨hnot, ⟨m, hm, hmt⟩ | hfl | hcl⟩
  · have hwaits : s.main.waitsFor = some w.toWanted := by
      rw [hmn, MainThread.waitsFor, if_pos ⟨rfl, (hhd _ _ hmn).2 rfl⟩]
    rw [h.queue _ hwaits m hm] at hmt
    cases hmt
  · rw [h.notifying _ w hmn hfl (.inl rfl)] at hnot
    cases hnot
  · cases hfl : w.messageWaitingInterrupted with
    | true =>
      rw [h.notifying _ w hmn hfl (.inl rfl)] at hnot
      cases hnot
    | false =>
      rw [h.closing hcl (by rw [hmn, MainThread.toldToStop, hfl])] at hnot
      cases hnot

/-- A call without a message, that has not timed out, has nothing to return. -/
theorem Attentive.available_eq_nil {phase : Phase} {w : WaitForMessageState} (h : Attentive s)
    (hmn : s.main = .registered phase w) (hd : w.decoder = none)
    (hphs : phase = .blocked ∨ phase = .notified) : w.available s.incomingMessages = [] := by
  have hwaits : s.main.waitsFor = some w.toWanted := by
    rcases hphs with rfl | rfl <;> rw [hmn, MainThread.waitsFor, if_pos ⟨rfl, hd⟩]
  rw [WaitForMessageState.available, hd, Option.toList_none, nil_append, filter_eq_nil_iff]
  exact fun m hm => Bool.eq_false_iff.mp (h.queue _ hwaits m hm)

theorem Phase.notify_eq_timedOut {phase : Phase} {available : List MessageDecoder}
    (h : phase.notify = .timedOut available) : phase = .timedOut available := by
  cases phase with
  | blocked => cases h
  | _ => exact h

section

variable (h : NeverMisses s) (hblk : ∀ w, s'.main = .registered .blocked w → ¬ Overlooks s' w)

include h hblk

theorem NeverMisses.of_returned_eq (hret : s'.returned = s.returned)
    (htm : ∀ available w, s'.main = .registered (.timedOut available) w →
      available = [] ∨ ∃ w', s.main = .registered (.timedOut available) w') :
    NeverMisses s' := by
  refine ⟨hblk, hret ▸ h.found, hret ▸ h.nothing, fun available w hw => ?_⟩
  rcases htm available w hw with hnth | ⟨w', hw'⟩
  · exact hnth
  · exact h.timedOut available w' hw'

theorem NeverMisses.of_return {r : Returned} (hmn : s'.main = .idle)
    (hret : s'.returned = s.returned ++ [r])
    (hfnd : ∀ m, r.result = some m → m ∈ r.available ∧ r.wanted.isMessage m = true)
    (hnth : r.result = none → r.available = []) : NeverMisses s' := by
  refine ⟨hblk, ?_, ?_, by simp [hmn]⟩
  · rw [hret]
    exact forall_mem_append.mpr ⟨h.found, forall_mem_singleton.mpr hfnd⟩
  · rw [hret]
    exact forall_mem_append.mpr ⟨h.nothing, forall_mem_singleton.mpr hnth⟩

end

/-- **One step** in time misses nothing. -/
theorem NeverMisses.step (h : NeverMisses s) (hhd : Holds s) (hatt : Attentive s)
    (hc : InTime s e) (hs : Step s e s') : NeverMisses s' := by
  have hblk : ∀ w, s'.main = .registered .blocked w → ¬ Overlooks s' w := fun w =>
    (hatt.step hhd hc hs).not_overlooks (hhd.step hs)
  -- a call that has timed out before
  have hsame : ∀ {available w}, s'.main = s.main →
      s'.main = .registered (.timedOut available) w →
      available = [] ∨ ∃ w', s.main = .registered (.timedOut available) w' :=
    fun hmn hw => .inr ⟨_, hmn ▸ hw⟩
  cases hs with
  | found _ hm hmem =>
    refine h.of_return hblk rfl rfl (fun m' hm' => ?_) nofun
    cases hm'
    exact ⟨mem_filter.mpr ⟨hmem, hm⟩, hm⟩
  | doNotWait _ hnth => exact h.of_return hblk rfl rfl nofun fun _ => hnth
  | @returnMessage w m hmn hd =>
    refine h.of_return hblk rfl rfl (fun m' hm' => ?_) nofun
    cases hm'
    exact ⟨mem_append_left _ (by simp [hd]), (hhd _ _ hmn).1 m hd⟩
  | interrupted hmn hfl =>
    refine h.of_return hblk rfl rfl nofun fun _ => ?_
    exact hatt.available_eq_nil hmn (hatt.interrupted _ hmn hfl) (.inr rfl)
  | giveUp hmn => exact h.of_return hblk rfl rfl nofun fun _ => h.timedOut _ _ hmn
  | timeOut hmn =>
    refine h.of_returned_eq hblk rfl fun available w hw => .inl ?_
    obtain ⟨hphs, _⟩ := registered.inj hw
    rw [← Phase.timedOut.inj hphs]
    exact hatt.available_eq_nil hmn ((hhd _ _ hmn).2 rfl) (.inl rfl)
  | searched _ _ | register _ | block _ _ | goOn _ _ =>
    exact h.of_returned_eq hblk rfl (by simp)
  | @deliver phase w m _ hmn _ _ | @interrupt phase w m _ hmn _ _ _ _ | @notify phase w _ hmn =>
    refine h.of_returned_eq hblk rfl fun available w' hw' => .inr ⟨w, ?_⟩
    rw [hmn, Phase.notify_eq_timedOut (registered.inj hw').1]
  | @closeWhileWaiting phase w hmn =>
    refine h.of_returned_eq hblk rfl fun available w' hw' => .inr ⟨w, ?_⟩
    rw [hmn, (registered.inj hw').1]
  | _ => exact h.of_returned_eq hblk rfl fun _ _ => hsame rfl

/-- **Waiting.** In every run a message that was handed to a call is returned, unless the
call was interrupted or has timed out. If the receive queue is in time, no call overlooks anything
while it is blocked, and none returns without a message that is there. -/
theorem waiting_never_misses (receivers : List String) (events : List Event) :
    AllStates step Delivers { workQueueMessageReceivers := receivers } events ∧
      (AllSteps step InTime { workQueueMessageReceivers := receivers } events →
        AllStates step NeverMisses { workQueueMessageReceivers := receivers } events) := by
  have hholds : ∀ s e s', Holds s → step s e = some s' → Holds s' := fun _ _ _ h hs =>
    h.step (cases_of_step hs)
  have hsta : Holds { workQueueMessageReceivers := receivers } := by simp [Holds]
  refine ⟨(invariant hholds hsta events).mono fun _ => delivers_of_holds, fun hall => ?_⟩
  have hkeep : ∀ s e s', Holds s ∧ Attentive s ∧ NeverMisses s → InTime s e →
      step s e = some s' → Holds s' ∧ Attentive s' ∧ NeverMisses s' := fun s e s' h hc hs =>
    ⟨hholds s e s' h.1 hs, h.2.1.step h.1 hc (cases_of_step hs),
      h.2.2.step h.1 h.2.1 hc (cases_of_step hs)⟩
  exact (invariant_of_allSteps (C := InTime) hkeep
    ⟨hsta, .of_idle rfl, by simp, by simp, by simp, by simp⟩ hall).mono fun _ h => h.2.2

/-- A message that comes while the call is blocked is returned, after one for others was queued. -/
theorem waiting_never_misses_delivered :
    AllStates step NeverMisses { workQueueMessageReceivers := [] }
      [.processIncomingMessage ⟨"WebPage", "DidClose", 1, true, false⟩, .checkWaitingForMessage,
        .enqueueIncomingMessage, .waitForMessage ⟨"WebPage", "DidUpdate", 1, false⟩, .register,
        .processIncomingMessage ⟨"WebPage", "DidUpdate", 1, false, false⟩, .wait,
        .checkWaitingForMessage, .wakeUp, .wait] := by
  refine (waiting_never_misses [] _).2 ?_
  repeat' first
    | trivial
    | exact fun m phase w hq hmn hd => by cases hq; cases hmn <;> decide
    | exact fun m w hq hw => by cases hw
    | exact rfl
    | rintro _ ⟨⟩
    | constructor

/-- The message is looked at before the call is registered, and queued after it has searched. -/
theorem waiting_misses_message : ∃ events s w,
    run step { workQueueMessageReceivers := [] } events = some s ∧
      s.main = .registered .blocked w ∧ Overlooks s w := by
  refine ⟨[.processIncomingMessage ⟨"WebPage", "DidUpdate", 1, false, false⟩,
    .checkWaitingForMessage, .waitForMessage ⟨"WebPage", "DidUpdate", 1, false⟩,
    .enqueueIncomingMessage, .register, .wait], _,
    ⟨⟨"WebPage", "DidUpdate", 1, false⟩, false, none⟩, rfl, rfl, rfl,
    .inl ⟨_, mem_cons_self, ?_⟩⟩
  decide

end WebKit.Ipc.WaitForMessage
