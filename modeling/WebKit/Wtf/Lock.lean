import Mathlib.Data.List.Nodup
import WebKit.Lib.Runs
import WebKit.Lib.Threads

/-!
# `Lock`

The lock of one byte, as in `wtf/Lock.h` and `wtf/Lock.cpp`: one bit says that the lock is held,
the other one that threads may be parked, in a queue of the `ParkingLot`. Enqueueing with its
validation is one step, and so is dequeueing with its callback. A thread that was dequeued sleeps
until its waker, still inside `unlock`, has cleared the thread's address.

A step of a thread goes on to the next access to the byte or to the `ParkingLot`.
-/

namespace WebKit.Wtf

open List Function

namespace LockBase

def isHeldBit : UInt8 := 1

def hasParkedBit : UInt8 := 2

def spinLimit : Nat := 40

/-- Where a thread is, with the local variables of `lockSlow`; `current` is `currentByteValue`. -/
inductive Place (Thread : Type)
  | outside
  /-- Before the `compareExchangeWeak` of `lock`. -/
  | lock
  /-- At the head of the loop of `lockSlow`. -/
  | lockSlow (spinCount : Nat)
  /-- Before the first `compareExchangeWeak` of `lockSlow`. -/
  | barge (spinCount : Nat) (current : UInt8)
  /-- Before the second `compareExchangeWeak` of `lockSlow`. -/
  | setParked (spinCount : Nat) (current : UInt8)
  | compareAndPark (spinCount : Nat)
  /-- Asleep. -/
  | parked (spinCount : Nat)
  /-- At the head of the loop of `tryLock`, which a thread may also call that holds the lock. -/
  | tryLock (holds : Bool)
  /-- Before the `compareExchangeWeak` of `tryLock`. -/
  | tryLockExchange (holds : Bool) (current : UInt8)
  /-- After `lock` or a successful `tryLock`, and before `unlock`. -/
  | holding
  /-- Before the `compareExchangeWeak` of `unlock`. -/
  | unlock
  /-- At the head of the loop of `unlockSlow`. -/
  | unlockSlow
  /-- Before the `compareExchangeWeak` of `unlockSlow`. -/
  | unlockExchange
  | unparkOne
  /-- After `unparkOne` dequeued the thread, and before it cleared the thread's address. -/
  | waking (thread : Thread)
  /-- A `RELEASE_ASSERT` failed. -/
  | crashed

structure State (Thread : Type) where
  byte : UInt8
  place : Thread → Place Thread
  /-- The threads that are parked for the address, in order. -/
  queue : List Thread

inductive Event (Thread : Type)
  | lock (t : Thread)
  | tryLock (t : Thread)
  | unlock (t : Thread)
  /-- The thread goes on. A `compareExchangeWeak` may fail although it compares equal values. -/
  | run (t : Thread) (spurious : Bool)
  /-- The thread goes on with `unparkOne`. The bucket may have threads of other addresses. -/
  | unpark (t : Thread) (others : Bool)

namespace State

variable {Thread : Type} [DecidableEq Thread]

def initial : State Thread := ⟨0, fun _ => .outside, []⟩

variable (s : State Thread) (t : Thread)

def goTo (p : Place Thread) : State Thread :=
  { s with place := Function.update s.place t p }

/-- `compareExchangeWeak`, and where the thread goes on if it succeeds or fails. -/
def compareExchangeWeak (expected new : UInt8) (spurious : Bool)
    (success failure : Place Thread) : State Thread :=
  if s.byte = expected ∧ spurious = false then { s with byte := new }.goTo t success
  else s.goTo t failure

/-- The rest of the loop of `lockSlow` when the thread could not barge in. -/
def afterBarge (spinCount : Nat) (current : UInt8) : Place Thread :=
  if current &&& hasParkedBit = 0 ∧ spinCount < spinLimit then .lockSlow (spinCount + 1)
  else if current &&& hasParkedBit = 0 then .setParked spinCount current
  else .compareAndPark spinCount

/-- `unparkOne` with the callback of `unlockSlow`, which stores the new value. -/
def unparkOne (others : Bool) : State Thread :=
  match s.queue with
  | [] => { s with byte := 0 }.goTo t .outside
  | v :: rest =>
    let mayHaveMoreThreads := !rest.isEmpty || others
    { s with byte := if mayHaveMoreThreads then hasParkedBit else 0, queue := rest }.goTo t
      (.waking v)

/-- The thread's address is cleared, so it returns from `compareAndPark`. -/
def wake (v : Thread) : State Thread :=
  match s.place v with
  | .parked spinCount => s.goTo v (.lockSlow spinCount)
  | _ => s

/-- A step of a thread that is neither asleep nor before `unparkOne`. -/
def run (spurious : Bool) : Option (State Thread) :=
  match s.place t with
  | .lock => some (s.compareExchangeWeak t 0 isHeldBit spurious .holding (.lockSlow 0))
  | .lockSlow spinCount =>
    some (s.goTo t (if s.byte &&& isHeldBit = 0 then .barge spinCount s.byte
      else afterBarge spinCount s.byte))
  | .barge spinCount current =>
    some (s.compareExchangeWeak t current (current ||| isHeldBit) spurious .holding
      (afterBarge spinCount current))
  | .setParked spinCount current =>
    some (s.compareExchangeWeak t current (current ||| hasParkedBit) spurious
      (.compareAndPark spinCount) (.lockSlow spinCount))
  | .compareAndPark spinCount =>
    if s.byte = isHeldBit ||| hasParkedBit then
      some ({ s with queue := s.queue ++ [t] }.goTo t (.parked spinCount))
    else some (s.goTo t (.lockSlow spinCount))
  | .tryLock holds =>
    some (s.goTo t (if s.byte &&& isHeldBit ≠ 0 then if holds then .holding else .outside
      else .tryLockExchange holds s.byte))
  | .tryLockExchange holds current =>
    some (s.compareExchangeWeak t current (current ||| isHeldBit) spurious .holding
      (.tryLock holds))
  | .unlock => some (s.compareExchangeWeak t isHeldBit 0 spurious .outside .unlockSlow)
  | .unlockSlow =>
    some (s.goTo t (if s.byte = isHeldBit then .unlockExchange
      else if s.byte = isHeldBit ||| hasParkedBit then .unparkOne else .crashed))
  | .unlockExchange => some (s.compareExchangeWeak t isHeldBit 0 spurious .outside .unlockSlow)
  | .waking v => some ((s.wake v).goTo t .outside)
  | .outside | .parked _ | .holding | .unparkOne | .crashed => none

/-- Only a thread that holds the lock calls `unlock`, and only one that does not calls `lock`. -/
def step : Event Thread → Option (State Thread)
  | .lock t =>
    match s.place t with
    | .outside => some (s.goTo t .lock)
    | _ => none
  | .tryLock t =>
    match s.place t with
    | .outside => some (s.goTo t (.tryLock false))
    | .holding => some (s.goTo t (.tryLock true))
    | _ => none
  | .unlock t =>
    match s.place t with
    | .holding => some (s.goTo t .unlock)
    | _ => none
  | .run t spurious => s.run t spurious
  | .unpark t others =>
    match s.place t with
    | .unparkOne => some (s.unparkOne t others)
    | _ => none

end State

/-! ## What holds -/

namespace Place

variable {Thread : Type}

/-- After the lock was acquired, and before it is released. -/
def Owns : Place Thread → Prop
  | .holding | .unlock | .unlockSlow | .unlockExchange | .unparkOne => True
  | .tryLock holds | .tryLockExchange holds _ => holds = true
  | _ => False

def IsParked : Place Thread → Prop
  | .parked _ => True
  | _ => False

/-- Inside `lockSlow` and not asleep, or about to wake a thread. -/
def Awake : Place Thread → Prop
  | .lockSlow _ | .barge _ _ | .setParked _ _ | .compareAndPark _ | .waking _ => True
  | _ => False

/-- Where no thread gets: a failed assertion, a `tryLock` by the owner that finds the lock free, and
an attempt to acquire a held lock. -/
def Impossible : Place Thread → Prop
  | .crashed => True
  | .barge _ current => current &&& isHeldBit ≠ 0
  | .tryLockExchange holds current => holds = true ∨ current &&& isHeldBit ≠ 0
  | _ => False

/-- The thread that is going to be woken. -/
def wakes : Place Thread → Option Thread
  | .waking v => some v
  | _ => none

/-- The places of `lockSlow` where the thread is not asleep. -/
def InLockSlow : Place Thread → Prop
  | .lockSlow _ | .barge _ _ | .setParked _ _ | .compareAndPark _ => True
  | _ => False

/-- The thread is neither asleep nor wakes another one, and it is possible to be here. -/
def Plain (p : Place Thread) : Prop := ¬ p.IsParked ∧ p.wakes = none ∧ ¬ p.Impossible

variable {p : Place Thread}

theorem InLockSlow.plain (hp : p.InLockSlow) (hps : ¬ p.Impossible) : Plain p := by
  cases p <;> first | exact hp.elim | exact ⟨fun h => h, rfl, hps⟩

theorem InLockSlow.not_owns (hp : p.InLockSlow) : ¬ p.Owns := by
  cases p <;> first | exact hp.elim | exact fun h => h

theorem InLockSlow.awake (hp : p.InLockSlow) : p.Awake := by
  cases p <;> first | exact hp.elim | trivial

theorem inLockSlow_afterBarge (Thread : Type) (spinCount : Nat) (cur : UInt8) :
    (State.afterBarge spinCount cur : Place Thread).InLockSlow ∧
      ¬ (State.afterBarge spinCount cur : Place Thread).Impossible := by
  unfold State.afterBarge
  split
  · exact ⟨trivial, fun h => h⟩
  · split
    · exact ⟨trivial, fun h => h⟩
    · exact ⟨trivial, fun h => h⟩

end Place

namespace State

open Place Threads

variable {Thread : Type}

/-- At most one thread has the lock, no assertion fails, and when the lock is free while a thread is
asleep, another one is awake inside `lockSlow` or about to wake a thread. -/
structure Correct (s : State Thread) : Prop where
  exclusive : ∀ t u, (s.place t).Owns → (s.place u).Owns → t = u
  no_crash : ∀ t, s.place t ≠ .crashed
  awake : ∀ t, (s.place t).IsParked → s.byte &&& isHeldBit = 0 → ∃ u, (s.place u).Awake

/-- The values of the byte, and what it says about the owner and the queue. -/
structure ByteInv (byte : UInt8) (owner : Option Thread) (queue : List Thread) : Prop where
  bits : byte = 0 ∨ byte = 1 ∨ byte = 2 ∨ byte = 3
  held : byte &&& isHeldBit ≠ 0 ↔ owner ≠ none
  parked : queue ≠ [] → byte &&& hasParkedBit ≠ 0

structure Inv (s : State Thread) : Prop where
  byte : ∃ owner, Owner Owns s.place owner ∧ ByteInv s.byte owner s.queue
  possible : ∀ t, ¬ (s.place t).Impossible
  unparking : ∀ t, s.place t = .unparkOne → s.byte = isHeldBit ||| hasParkedBit
  nodup : s.queue.Nodup
  queued : ∀ t ∈ s.queue, (s.place t).IsParked
  waking : ∀ u t, (s.place u).wakes = some t → (s.place t).IsParked ∧ t ∉ s.queue
  waker : ∀ u v t, (s.place u).wakes = some t → (s.place v).wakes = some t → u = v
  parked : ∀ t, (s.place t).IsParked → t ∉ s.queue → ∃ u, (s.place u).wakes = some t
  awake : s.queue ≠ [] → s.byte &&& isHeldBit = 0 → ∃ u, (s.place u).Awake

theorem Inv.correct {s : State Thread} (h : s.Inv) : s.Correct := by
  obtain ⟨owner, ho, _⟩ := h.byte
  refine ⟨fun t u => ho.unique, fun t hcr => ?_, fun t hpkd hfr => ?_⟩
  · exact h.possible t (by rw [hcr]; trivial)
  · by_cases hque : t ∈ s.queue
    · exact h.awake (ne_nil_of_mem hque) hfr
    -- the thread was dequeued: its waker has not finished
    obtain ⟨u, hu⟩ := h.parked t hpkd hque
    refine ⟨u, ?_⟩
    cases hp : s.place u with
    | waking v => trivial
    | _ =>
      rw [hp] at hu
      cases hu

section

variable {s : State Thread} {t : Thread}

theorem Inv.held (h : s.Inv) (how : (s.place t).Owns) : s.byte &&& isHeldBit ≠ 0 := by
  obtain ⟨owner, ho, hbt⟩ := h.byte
  rw [hbt.held, ho.eq how]
  simp

theorem Inv.queue_eq_nil (h : s.Inv) (hby : s.byte &&& hasParkedBit = 0) : s.queue = [] := by
  obtain ⟨owner, _, hbt⟩ := h.byte
  by_contra hne
  exact hbt.parked hne hby

end

theorem free_zero : (0 : UInt8) &&& isHeldBit = 0 := by decide

theorem inv_initial : (initial : State Thread).Inv where
  byte := ⟨none, fun t => iff_of_false (fun h => h) (by simp), .inl rfl,
    iff_of_false (fun h => absurd free_zero h) fun h => h rfl, fun h => absurd rfl h⟩
  possible _ h := h
  unparking _ h := absurd h (by simp [initial])
  nodup := nodup_nil
  queued := nofun
  waking _ _ h := absurd h (by simp [initial, wakes])
  waker _ _ _ h := absurd h (by simp [initial, wakes])
  parked _ h := h.elim
  awake h := absurd rfl h

/-! ## Steps -/

section

variable [DecidableEq Thread] {s : State Thread} {t v : Thread} {p q : Place Thread} {b : UInt8}
  {spinCount : Nat} {spurious : Bool}

theorem inv_compareExchangeWeak {expected new : UInt8} {success failure : Place Thread}
    (hsc : s.byte = expected → ({ s with byte := new }.goTo t success).Inv)
    (hfai : (s.goTo t failure).Inv) :
    (s.compareExchangeWeak t expected new spurious success failure).Inv := by
  unfold compareExchangeWeak
  split
  case isTrue heq => exact hsc heq.1
  case isFalse => exact hfai

section

variable (h : s.Inv) (ht : s.place t = q) (hq : ¬ q.IsParked ∧ q.wakes = none)

include h ht hq

theorem Inv.go (hby : ∃ owner, Owner Owns (update s.place t p) owner ∧ ByteInv b owner s.queue)
    (hp : Plain p) (hun : ∀ u, update s.place t p u = .unparkOne → b = isHeldBit
      ||| hasParkedBit)
    (hawk : s.queue ≠ [] → b &&& isHeldBit = 0 → ∃ u, (update s.place t p u).Awake) :
    ({ s with byte := b }.goTo t p).Inv := by
  have hm := moved_update s.place t p
  have hpkd : ∀ u, (update s.place t p u).IsParked ↔ (s.place u).IsParked :=
    hm.iff (iff_of_false hp.1 (ht ▸ hq.1))
  have hwks : ∀ u w, (update s.place t p u).wakes = some w ↔
      (s.place u).wakes = some w := fun u w =>
    hm.iff (P := fun p => p.wakes = some w) (by rw [ht, hp.2.1, hq.2]) u
  refine ⟨hby, hm.all (P := fun p => ¬ p.Impossible) hp.2.2 h.possible, hun, h.nodup,
    fun u hu => (hpkd u).mpr (h.queued u hu), fun u w hw => ?_,
    fun u w x hu hw => h.waker u w x ((hwks u x).mp hu) ((hwks w x).mp hw),
    fun u hu hque => ?_, hawk⟩
  · exact (h.waking u w ((hwks u w).mp hw)).imp_left (hpkd w).mpr
  · obtain ⟨w, hw⟩ := h.parked u ((hpkd u).mp hu) hque
    exact ⟨w, (hwks w u).mpr hw⟩

theorem Inv.move (how : p.Owns ↔ q.Owns) (hp : Plain p)
    (hun : p = .unparkOne → s.byte = isHeldBit ||| hasParkedBit)
    (hawk : q.Awake → p.Awake) : (s.goTo t p).Inv := by
  subst ht
  obtain ⟨owner, ho, hby⟩ := h.byte
  refine h.go rfl hq ⟨owner, ho.move how, hby⟩ hp (fun u hu => ?_)
    fun hque hfr => exists_move (h.awake hque hfr) hawk
  rcases (moved_update s.place t p).split (P := (· = .unparkOne)) hu with ⟨_, hu⟩ | ⟨_, hu⟩
  · exact hun hu
  · exact h.unparking u hu

theorem Inv.acquire (hfr : s.byte &&& isHeldBit = 0) :
    ({ s with byte := s.byte ||| isHeldBit }.goTo t .holding).Inv := by
  obtain ⟨owner, ho, hby⟩ := h.byte
  obtain rfl : owner = none := by
    by_contra hne
    exact hby.held.mpr hne hfr
  have hhl : (s.byte ||| isHeldBit) &&& isHeldBit ≠ 0 := by
    rcases hby.bits with hb | hb | hb | hb <;> rw [hb] <;> decide
  refine h.go ht hq ⟨some t, ho.acquire trivial, ?_, iff_of_true hhl (by simp),
    fun hque => ?_⟩ ⟨id, rfl, id⟩ (fun u hu => ?_) fun _ hfr' => absurd hfr' hhl
  · rcases hby.bits with hb | hb | hb | hb <;> rw [hb] <;> decide
  · have hpkd := hby.parked hque
    rcases hby.bits with hb | hb | hb | hb <;> rw [hb] at hpkd ⊢ <;> revert hpkd <;> decide
  · -- only an owner is at `unparkOne`
    obtain ⟨_, hu⟩ := (moved_update s.place t .holding).back (P := (· = .unparkOne)) (by simp) hu
    cases (ho u).mp (by rw [hu]; trivial)

theorem Inv.setParkedBit (how : ¬ q.Owns) :
    ({ s with byte := s.byte ||| hasParkedBit }.goTo t (.compareAndPark spinCount)).Inv := by
  obtain ⟨owner, ho, hby⟩ := h.byte
  have hhl : (s.byte ||| hasParkedBit) &&& isHeldBit = s.byte &&& isHeldBit := by
    rcases hby.bits with hb | hb | hb | hb <;> rw [hb] <;> decide
  refine h.go ht hq ⟨owner, ho.move (iff_of_false id (ht ▸ how)), ?_, ?_, fun _ => ?_⟩
    ⟨id, rfl, id⟩ (fun u hu => ?_) fun _ _ => exists_moved trivial
  · rcases hby.bits with hb | hb | hb | hb <;> rw [hb] <;> decide
  · rw [hhl]
    exact hby.held
  · rcases hby.bits with hb | hb | hb | hb <;> rw [hb] <;> decide
  · obtain ⟨_, hu⟩ := (moved_update s.place t (.compareAndPark spinCount)).back
      (P := (· = .unparkOne)) (by simp) hu
    rw [h.unparking u hu]
    decide

theorem Inv.release (how : q.Owns) (hque : s.queue = []) : ({ s with byte := 0 }.goTo t .outside).Inv := by
  obtain ⟨owner, ho, hby⟩ := h.byte
  have hno := ho.release (t := t) (p := .outside) (ht ▸ how) id
  refine h.go ht hq ⟨none, hno, .inl rfl, iff_of_false (fun h => h free_zero) (by simp),
    fun hne => absurd hque hne⟩ ⟨id, rfl, id⟩ (fun u hu => ?_) fun hne => absurd hque hne
  cases (hno u).mp (by rw [hu]; trivial)

theorem Inv.moveInLockSlow (how : ¬ q.Owns) (hp : p.InLockSlow) (hps : ¬ p.Impossible) : (s.goTo t p).Inv := by
  refine h.move ht hq (iff_of_false hp.not_owns how) (hp.plain hps) ?_ fun _ => hp.awake
  intro heq
  rw [heq] at hp
  exact hp.elim

theorem Inv.exchange (how : q.Owns) (hawk : ¬ q.Awake) :
    (s.compareExchangeWeak t isHeldBit 0 spurious .outside .unlockSlow).Inv := by
  refine inv_compareExchangeWeak (fun hby => ?_) ?_
  · refine h.release ht hq how (h.queue_eq_nil ?_)
    rw [hby]
    decide
  · exact h.move ht hq (iff_of_true trivial how) ⟨id, rfl, id⟩ (by simp) fun h => absurd h hawk

theorem Inv.bargeIn {cur : UInt8} {failure : Place Thread} (hc : cur &&& isHeldBit = 0)
    (hfai : (s.goTo t failure).Inv) :
    (s.compareExchangeWeak t cur (cur ||| isHeldBit) spurious .holding failure).Inv := by
  refine inv_compareExchangeWeak (fun hby => ?_) hfai
  subst hby
  exact h.acquire ht hq hc

end

theorem Inv.park (h : s.Inv) (ht : s.place t = .compareAndPark spinCount)
    (hby : s.byte = isHeldBit ||| hasParkedBit) :
    ({ s with queue := s.queue ++ [t] }.goTo t (.parked spinCount)).Inv := by
  obtain ⟨owner, ho, hbt⟩ := h.byte
  set place' := update s.place t (.parked spinCount)
  have hmv : Moved s.place place' t _ := moved_update ..
  have hn : ¬ (s.place t).IsParked := ht ▸ id
  have hfth : ∀ u, (s.place u).IsParked → (place' u).IsParked := fun _ => hmv.forth hn
  have hwks : ∀ u w, (place' u).wakes = some w → (s.place u).wakes = some w :=
    fun u w hw => (hmv.old rfl hw).2
  refine ⟨⟨owner, ho.move (iff_of_false id (ht ▸ id)), hbt.bits, hbt.held,
    fun _ => ?_⟩, hmv.all (P := fun p => ¬ p.Impossible) id h.possible, fun u hu => hby, ?_,
    fun u hu => ?_, fun u w hw => ?_,
    fun u w x hu hw => h.waker u w x (hwks u x hu) (hwks w x hw),
    fun u hu hque => ?_, fun _ hfr => ?_⟩
  · show s.byte &&& hasParkedBit ≠ 0
    rw [hby]
    decide
  · exact nodup_append.mpr ⟨h.nodup, nodup_singleton t, fun a ha b hb heq =>
      hn (h.queued t (mem_singleton.mp hb ▸ heq ▸ ha))⟩
  · rcases mem_append.mp hu with hu | hu
    · exact hfth u (h.queued u hu)
    · show (place' u).IsParked
      rw [mem_singleton.mp hu, hmv.self]
      trivial
  · obtain ⟨hpkd, hque⟩ := h.waking u w (hwks u w hw)
    refine ⟨hfth w hpkd, fun hm => ?_⟩
    rcases mem_append.mp hm with hm | hm
    · exact hque hm
    · exact hn (mem_singleton.mp hm ▸ hpkd)
  · have hne : u ≠ t := fun heq => hque (mem_append_right _ (mem_singleton.mpr heq))
    change (place' u).IsParked at hu
    rw [hmv.others u hne] at hu
    obtain ⟨w, hw⟩ := h.parked u hu fun hm => hque (mem_append_left _ hm)
    exact ⟨w, hmv.forth (P := fun p => p.wakes = some u) (by rw [ht]; nofun) hw⟩
  · change s.byte &&& isHeldBit = 0 at hfr
    rw [hby] at hfr
    exact absurd hfr (by decide)

theorem Inv.unpark {rest : List Thread} {ots : Bool} (h : s.Inv)
    (ht : s.place t = .unparkOne) (hque : s.queue = v :: rest) :
    ({ s with
        byte := if !rest.isEmpty || ots then hasParkedBit else 0
        queue := rest }.goTo t (.waking v)).Inv := by
  obtain ⟨owner, ho, hbt⟩ := h.byte
  have hno := ho.release (t := t) (p := .waking v) (by rw [ht]; trivial) id
  have hnd := h.nodup
  rw [hque] at hnd
  obtain ⟨hn, hnd⟩ := nodup_cons.mp hnd
  set place' := update s.place t (.waking v)
  have hmv : Moved s.place place' t _ := moved_update ..
  have hpkd : ∀ u, (s.place u).IsParked → (place' u).IsParked := fun _ => hmv.forth (ht ▸ id)
  have hm : v ∈ s.queue := hque ▸ mem_cons_self
  -- the dequeued thread had no waker, and has one now
  have hwks : ∀ u w, (place' u).wakes = some w →
      (u = t ∧ w = v) ∨ (u ≠ t ∧ w ≠ v ∧ (s.place u).wakes = some w) := by
    intro u w hw
    rcases hmv.cases hw with ⟨hu, hw⟩ | ⟨hu, hw⟩
    · exact .inl ⟨hu, (Option.some.inj hw).symm⟩
    · exact .inr ⟨hu, fun heq => (h.waking u w hw).2 (heq ▸ hm), hw⟩
  refine ⟨⟨none, hno, ?_, ?_, fun hne => ?_⟩,
    hmv.all (P := fun p => ¬ p.Impossible) id h.possible, fun u hu => ?_, hnd,
    fun u hu => hpkd u (h.queued u (hque ▸ mem_cons_of_mem v hu)), fun u w hw => ?_,
    fun u w x hu hw => ?_, fun u hu hm' => ?_, fun _ _ => exists_moved trivial⟩
  · dsimp only [goTo]
    split
    · exact .inr (.inr (.inl rfl))
    · exact .inl rfl
  · refine iff_of_false (fun h => h ?_) (by simp)
    dsimp only [goTo]
    split <;> decide
  · dsimp only [goTo] at hne ⊢
    rw [isEmpty_eq_false_iff.mpr hne, if_pos (by simp)]
    decide
  · have hu : place' u = .unparkOne := hu
    cases (hno u).mp (by rw [hu]; trivial)
  · rcases hwks u w hw with ⟨_, rfl⟩ | ⟨_, _, hw⟩
    · exact ⟨hpkd w (h.queued w hm), hn⟩
    · obtain ⟨hw', hque'⟩ := h.waking u w hw
      exact ⟨hpkd w hw', fun hm' => hque' (hque ▸ mem_cons_of_mem v hm')⟩
  · rcases hwks u x hu with ⟨rfl, rfl⟩ | ⟨_, hne, hu⟩
    · rcases hwks w x hw with ⟨rfl, _⟩ | ⟨_, hne, _⟩
      · rfl
      · exact absurd rfl hne
    · rcases hwks w x hw with ⟨_, rfl⟩ | ⟨_, _, hw⟩
      · exact absurd rfl hne
      · exact h.waker u w x hu hw
  · by_cases heq : u = v
    · exact ⟨t, by rw [heq]; exact congrArg wakes hmv.self⟩
    obtain ⟨_, hu⟩ := hmv.back (P := IsParked) id hu
    obtain ⟨w, hw⟩ := h.parked u hu (by
      rw [hque]
      exact fun hm => (mem_cons.mp hm).elim heq hm')
    exact ⟨w, hmv.forth (P := fun p => p.wakes = some u) (by rw [ht]; nofun) hw⟩

theorem Inv.wake (h : s.Inv) (ht : s.place t = .waking v) : ((s.wake v).goTo t .outside).Inv := by
  obtain ⟨owner, ho, hbt⟩ := h.byte
  obtain ⟨hv, hque⟩ := h.waking t v (by rw [ht]; rfl)
  cases hpla : s.place v with
  | parked spinCount =>
    have hvt : t ≠ v := by
      rintro rfl
      cases ht.symm.trans hpla
    have hste : s.wake v = s.goTo v (.lockSlow spinCount) := by
      unfold State.wake
      rw [hpla]
    rw [hste]
    set s' := (s.goTo v (.lockSlow spinCount)).goTo t .outside
    have hfst := moved_update s.place v (.lockSlow spinCount)
    have hm := moved_update (update s.place v (.lockSlow spinCount)) t .outside
    have ht' : update s.place v (.lockSlow spinCount) t = .waking v := (hfst.others t hvt).trans ht
    have hbc : ∀ {P : Place Thread → Prop}, ¬ P .outside → ¬ P (.lockSlow spinCount) → ∀ u,
        P (s'.place u) → u ≠ t ∧ u ≠ v ∧ P (s.place u) := by
      intro P hp hp' u hu
      obtain ⟨hut, hu⟩ := hm.back hp hu
      exact ⟨hut, hfst.back hp' hu⟩
    have hfth : ∀ {P : Place Thread → Prop}, ¬ P (.waking v) → ∀ u ≠ v, P (s.place u) →
        P (s'.place u) := by
      intro P hp u hu hP
      refine hm.forth (by rwa [ht']) ?_
      rwa [hfst.others u hu]
    -- the waker was the only one of the thread
    have hwks : ∀ u w, (s'.place u).wakes = some w → w ≠ v ∧ (s.place u).wakes = some w := by
      intro u w hw
      obtain ⟨hut, _, hw⟩ := hbc (P := fun p => p.wakes = some w) nofun nofun u hw
      exact ⟨fun heq => hut (h.waker u t w hw (by rw [ht, heq]; rfl)), hw⟩
    have ho' := (ho.move (t := v) (p := .lockSlow spinCount)
      (iff_of_false id (by rw [hpla]; exact id))).move (t := t) (p := .outside)
      (iff_of_false id (by rw [ht']; exact id))
    refine ⟨⟨owner, ho', hbt⟩,
      hm.all (P := fun p => ¬ p.Impossible) id
        (hfst.all (P := fun p => ¬ p.Impossible) id h.possible),
      fun u hu => h.unparking u (hbc (P := (· = .unparkOne)) nofun nofun u hu).2.2,
      h.nodup, fun u hu => hfth (P := IsParked) id u (fun heq => hque (heq ▸ hu))
        (h.queued u hu), fun u w hw => ?_,
      fun u w x hu hw => h.waker u w x (hwks u x hu).2 (hwks w x hw).2,
      fun u hu hmem => ?_, fun _ _ => ⟨v, ?_⟩⟩
    · obtain ⟨hne, hw⟩ := hwks u w hw
      obtain ⟨hw', hque'⟩ := h.waking u w hw
      exact ⟨hfth (P := IsParked) id w hne hw', hque'⟩
    · obtain ⟨_, huv, hu⟩ := hbc (P := IsParked) id id u hu
      obtain ⟨w, hw⟩ := h.parked u hu hmem
      refine ⟨w, hfth (P := fun p => p.wakes = some u) ?_ w ?_ hw⟩
      · exact fun heq => huv (Option.some.inj heq).symm
      · rintro rfl
        simp [hpla, wakes] at hw
    · exact (congrArg Awake ((hm.others v hvt.symm).trans hfst.self)).mpr trivial
  | _ =>
    rw [hpla] at hv
    exact hv.elim

variable {s' : State Thread}

theorem inv_run (h : s.Inv) (hr : s.run t spurious = some s') : s'.Inv := by
  have hps := h.possible t
  revert hr
  fun_cases run s t spurious <;> rintro ⟨⟩
  case case1 ht =>
    exact h.bargeIn ht ⟨id, rfl⟩ free_zero (h.moveInLockSlow ht ⟨id, rfl⟩ id trivial id)
  case case2 spinCount ht =>
    split
    case isTrue hfr => exact h.moveInLockSlow ht ⟨id, rfl⟩ id trivial fun hne => hne hfr
    case isFalse =>
      obtain ⟨hsl, hps⟩ := inLockSlow_afterBarge Thread spinCount s.byte
      exact h.moveInLockSlow ht ⟨id, rfl⟩ id hsl hps
  case case3 spinCount cur ht =>
    obtain ⟨hsl, hps'⟩ := inLockSlow_afterBarge Thread spinCount cur
    rw [ht] at hps
    exact h.bargeIn ht ⟨id, rfl⟩ (not_not.mp hps) (h.moveInLockSlow ht ⟨id, rfl⟩ id hsl hps')
  case case4 spinCount cur ht =>
    refine inv_compareExchangeWeak (fun hby => ?_) (h.moveInLockSlow ht ⟨id, rfl⟩ id trivial id)
    subst hby
    exact h.setParkedBit ht ⟨id, rfl⟩ id
  case case5 ht hby => exact h.park ht hby
  case case6 ht _ => exact h.moveInLockSlow ht ⟨id, rfl⟩ id trivial id
  case case7 holds ht =>
    split
    case isTrue =>
      cases holds with
      | true | false =>
        exact h.move ht ⟨id, rfl⟩ (by simp [Owns]) ⟨id, rfl, id⟩ (by simp) False.elim
    case isFalse hfr =>
      -- an owner finds the bit set
      have hhd : holds ≠ true := by
        intro heq
        exact hfr (h.held (by rw [ht]; exact heq))
      exact h.move ht ⟨id, rfl⟩ Iff.rfl ⟨id, rfl, fun him =>
        him.elim hhd hfr⟩ (by simp) False.elim
  case case8 holds cur ht =>
    rw [ht] at hps
    exact h.bargeIn ht ⟨id, rfl⟩ (not_not.mp fun hne => hps (.inr hne))
      (h.move ht ⟨id, rfl⟩ Iff.rfl ⟨id, rfl, id⟩ (by simp) id)
  case case9 ht => exact h.exchange ht ⟨id, rfl⟩ trivial id
  case case10 ht =>
    split
    case isTrue => exact h.move ht ⟨id, rfl⟩ Iff.rfl ⟨id, rfl, id⟩ (by simp) id
    case isFalse hone =>
      split
      case isTrue hby =>
        exact h.move ht ⟨id, rfl⟩ Iff.rfl ⟨id, rfl, id⟩ (fun _ => hby) id
      case isFalse hth =>
        -- the assertion holds, as the bit of the owner is set
        obtain ⟨_, _, hbt⟩ := h.byte
        have hhl := h.held (t := t) (by rw [ht]; trivial)
        rcases hbt.bits with hb | hb | hb | hb
        · exact absurd free_zero (hb ▸ hhl)
        · exact absurd hb hone
        · exact absurd (by decide : (2 : UInt8) &&& isHeldBit = 0) (hb ▸ hhl)
        · exact absurd hb hth
  case case11 ht => exact h.exchange ht ⟨id, rfl⟩ trivial id
  case case12 ht => exact h.wake ht

theorem inv_step {e : Event Thread} (h : s.Inv) (hst : s.step e = some s') : s'.Inv := by
  revert hst
  fun_cases step s e
  case case1 ht | case6 ht =>
    rintro ⟨⟩
    exact h.move ht ⟨id, rfl⟩ Iff.rfl ⟨id, rfl, id⟩ (by simp) False.elim
  case case3 ht | case4 ht =>
    rintro ⟨⟩
    exact h.move ht ⟨id, rfl⟩ (by simp [Owns]) ⟨id, rfl, id⟩ (by simp) False.elim
  case case8 t spurious => exact inv_run h
  case case9 t ots ht =>
    rintro ⟨⟩
    unfold unparkOne
    split
    case h_1 hque => exact h.release ht ⟨id, rfl⟩ trivial hque
    case h_2 hque => exact h.unpark ht hque
  all_goals exact nofun

end

/-- **The lock is correct.** In every state of every run at most one thread has the lock, the
release assertion of `unlockSlow` has not failed, and while the lock is free and a thread
sleeps, another one is awake inside `lockSlow` or about to wake a thread. -/
theorem lock_correct [DecidableEq Thread] (events : List (Event Thread)) :
    Runs.AllStates step Correct (initial : State Thread) events :=
  (Runs.invariant (fun _ _ _ h hstep => inv_step h hstep) inv_initial events).mono
    fun _ h => h.correct

end State

end LockBase

end WebKit.Wtf
