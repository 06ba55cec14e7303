import Mathlib.Data.List.Sort
import WebKit.Wtf.Condition

/-!
# Notifications are not lost

A call of `notifyOne` or `notifyAll` may find the byte false although threads are in the queue.
Then a `notifyAll` is about to unpark all threads, which does what the call would have done. A wait
may also end by its timeout. Apart from that, each call does what it is for.

What a call has promised is carried along a run in two parts. Before it dequeues threads, each
wait that it found is still in the queue, or has ended while the call was running (`Tracked`).
Afterwards, each has ended, or is in the queue while another `notifyAll` is about to unpark it
(`Safe`).
-/

namespace WebKit.Wtf

open List Function Option

namespace ConditionBase

namespace Notify

/-- The call was running at this step. -/
def During (r : Notify) (stamp : Nat) : Prop :=
  r.began < stamp ∧ ∀ f, r.finished = some f → stamp < f

/-- The calls were running at the same time. -/
def Overlaps (r r' : Notify) : Prop :=
  (∀ f, r.finished = some f → r'.began < f) ∧ ∀ f, r'.finished = some f → r.began < f

/-- The call may have returned at the step. -/
structure Extends (stamp : Nat) (r r' : Notify) : Prop where
  all : r'.all = r.all
  waiting : r'.waiting = r.waiting
  began : r'.began = r.began
  finished : r'.finished = r.finished ∨ (r.finished = none ∧ r'.finished = some stamp)

theorem Extends.refl (stamp : Nat) (r : Notify) : Extends stamp r r := ⟨rfl, rfl, rfl, .inl rfl⟩

variable {r r' r₁ r₁' : Notify} {stamp n : Nat}

theorem During.extends (h : r.During n) (hlt : n < stamp) (hr : Extends stamp r r') :
    r'.During n := by
  refine ⟨hr.began ▸ h.1, fun f hf => ?_⟩
  rcases hr.finished with heq | ⟨_, heq⟩
  · exact h.2 f (heq ▸ hf)
  · rw [heq] at hf
    exact some.inj hf ▸ hlt

theorem Overlaps.extends (h : r.Overlaps r₁) (hr : Extends stamp r r')
    (hr₁ : Extends stamp r₁ r₁') (hlt : r.began < stamp) (hlt₁ : r₁.began < stamp) :
    r'.Overlaps r₁' := by
  refine ⟨fun f hf => ?_, fun f hf => ?_⟩
  · rw [hr₁.began]
    rcases hr.finished with heq | ⟨_, heq⟩
    · exact h.1 f (heq ▸ hf)
    · rw [heq] at hf
      exact some.inj hf ▸ hlt₁
  · rw [hr.began]
    rcases hr₁.finished with heq | ⟨_, heq⟩
    · exact h.2 f (heq ▸ hf)
    · rw [heq] at hf
      exact some.inj hf ▸ hlt

theorem overlaps_of_unfinished (h : r.finished = none) (h' : r'.finished = none) : r.Overlaps r' :=
  ⟨fun f hf => absurd (h.symm.trans hf) (by simp), fun f hf => absurd (h'.symm.trans hf) (by simp)⟩

theorem during_of_unfinished (h : r.finished = none) (hlt : r.began < n) : r.During n :=
  ⟨hlt, fun f hf => absurd (h.symm.trans hf) (by simp)⟩

end Notify

namespace Place

variable {Lock : Type}

/-- The wait of a thread that is in the queue, or was in the queue and does not know yet. -/
def waits : Place Lock → Option (Call Lock × Nat)
  | .beforeSleep call wait | .sleeping call wait | .dequeue call wait => some (call, wait)
  | _ => none

/-- The call of `notifyOne` or `notifyAll` that has not returned. -/
def notifies : Place Lock → Option Nat
  | .notifyOne n | .unparkOne n | .notifyAll n | .storeFalse n | .unparkAll n | .notified n =>
    some n
  | _ => none

/-- The call of `notifyOne` or `notifyAll` that has not dequeued threads yet. -/
def serves : Place Lock → Option Nat
  | .notifyOne n | .unparkOne n | .notifyAll n | .storeFalse n | .unparkAll n => some n
  | _ => none

/-- The call of `notifyOne` that has not dequeued a thread yet. -/
def servesOne : Place Lock → Option Nat
  | .notifyOne n | .unparkOne n => some n
  | _ => none

/-- The lock that the thread has inside `waitUntil`. -/
def holds : Place Lock → Option Lock
  | .waitUntil call | .pastTimeout call | .parkConditionally call | .beforeSleep call _
  | .returned call _ _ => some call.lock
  | _ => none

/-- The result that `waitUntil` is going to return. -/
def result : Place Lock → Option (Call Lock × Option Nat × Bool)
  | .relock call wait result | .returned call wait result => some (call, wait, result)
  | _ => none

/-- The call of `waitUntil` that found its timeout passed. -/
def expired : Place Lock → Option (Call Lock)
  | .pastTimeout call | .dequeue call _ => some call
  | _ => none

/-- The call of `waitUntil` that is not in the queue yet. -/
def arrives : Place Lock → Option (Call Lock)
  | .waitUntil call | .pastTimeout call | .parkConditionally call => some call
  | _ => none

variable {p : Place Lock}

theorem notifies_of_serves {n : Nat} (h : p.serves = some n) : p.notifies = some n := by
  cases p <;> first | exact h | cases h

theorem serves_of_servesOne {n : Nat} (h : p.servesOne = some n) : p.serves = some n := by
  cases p <;> first | exact h | cases h

end Place

namespace State

open Place Notify Threads

variable {Thread Lock : Type}

/-- The wait was woken at a step where the call, or one that ran at the same time, was
running. -/
def WokenNear (s : State Thread Lock) (r : Notify) (wait : Nat) : Prop :=
  ∃ n stamp, s.outcome wait = some (.woken n stamp) ∧
    ∃ m < s.notifyCount, (s.notify m).Overlaps r ∧ (s.notify m).During stamp

/-- A `notifyAll` is about to unpark all threads. -/
def Pending (s : State Thread Lock) (m : Nat) : Prop := ∃ t, s.place t = .unparkAll m

/-- The wait is in the queue, and a `notifyAll` that overlapped the call is about to unpark all
threads. -/
def AboutToWake (s : State Thread Lock) (r : Notify) (wait : Nat) : Prop :=
  wait ∈ s.queue ∧ ∃ m, s.Pending m ∧ (s.notify m).Overlaps r

structure Correct (s : State Thread Lock) : Prop where
  notifyOne : ∀ n < s.notifyCount, (s.notify n).all = false → (s.notify n).finished ≠ none →
    (∃ wait ∈ (s.notify n).waiting, s.WokenNear (s.notify n) wait) ∨
      ∀ wait ∈ (s.notify n).waiting, s.outcome wait = some .timedOut ∨
        s.AboutToWake (s.notify n) wait
  notifyAll : ∀ n < s.notifyCount, (s.notify n).all = true → (s.notify n).finished ≠ none →
    ∀ wait ∈ (s.notify n).waiting, s.WokenNear (s.notify n) wait ∨
      s.outcome wait = some .timedOut ∨ s.AboutToWake (s.notify n) wait
  returned_true : ∀ t call wait, s.place t = .returned call wait true →
    ∃ n < s.notifyCount, ∀ f, (s.notify n).finished = some f → call.began < f
  returned_false : ∀ t call wait, s.place t = .returned call wait false → call.timeout ≤ s.now
  returned_holds : ∀ t call wait result, s.place t = .returned call wait result →
    s.owner call.lock = some t
  outcome : ∀ t call wait result, s.place t = .returned call (some wait) result →
    (result = true ↔ ∃ n stamp, s.outcome wait = some (.woken n stamp)) ∧
      (result = false ↔ s.outcome wait = some .timedOut)

/-! ## Promises -/

/-- The promise of a call that has not dequeued threads yet. -/
def Tracked (s : State Thread Lock) (r : Notify) (wait : Nat) : Prop :=
  s.WokenNear r wait ∨ s.outcome wait = some .timedOut ∨ wait ∈ s.queue

/-- The promise of a call that has dequeued threads. -/
def Safe (s : State Thread Lock) (r : Notify) (wait : Nat) : Prop :=
  s.WokenNear r wait ∨ s.outcome wait = some .timedOut ∨ s.AboutToWake r wait

def Served (s : State Thread Lock) (r : Notify) : Prop :=
  (r.all = false ∧ ∃ wait ∈ r.waiting, s.WokenNear r wait) ∨ ∀ wait ∈ r.waiting, s.Safe r wait

/-- What a step does to the records. -/
structure Later (s s' : State Thread Lock) : Prop where
  stamp : s'.stamp = s.stamp + 1
  outcome : ∀ wait o, s.outcome wait = some o → s'.outcome wait = some o
  count : s.notifyCount ≤ s'.notifyCount
  notify : ∀ n < s.notifyCount, Extends s.stamp (s.notify n) (s'.notify n)
  /-- A wait leaves the queue with an outcome. -/
  queue : ∀ wait ∈ s.queue, wait ∈ s'.queue ∨ s'.outcome wait = some .timedOut ∨
    ∃ n, s'.outcome wait = some (.woken n s.stamp)
  /-- A `notifyAll` that is about to unpark all threads does so, or does not run. -/
  pending : ∀ m, s.Pending m →
    (s'.Pending m ∨ s'.queue = []) ∧ (s'.notify m).finished = none

/-- The invariant about calls of `notifyOne` and `notifyAll`. -/
structure NotifyInv (s : State Thread Lock) : Prop where
  began : ∀ n < s.notifyCount, (s.notify n).began < s.stamp
  running : ∀ t n, (s.place t).notifies = some n →
    n < s.notifyCount ∧ (s.notify n).finished = none
  unique : ∀ t u n, (s.place t).notifies = some n → (s.place u).notifies = some n → t = u
  /-- The waits that were in the queue when the call began come first. -/
  first : ∀ n < s.notifyCount, ∃ bound ≤ s.waitCount, (∀ wait ∈ (s.notify n).waiting,
    wait < bound) ∧ ∀ wait ∈ s.queue, wait < bound → wait ∈ (s.notify n).waiting
  flag : s.queue ≠ [] → s.hasWaiters = true ∨ ∃ m, s.Pending m
  one : ∀ t n, (s.place t).servesOne = some n → (s.notify n).all = false
  tracked : ∀ t n, (s.place t).serves = some n → ∀ wait ∈ (s.notify n).waiting,
    s.Tracked (s.notify n) wait
  served : ∀ n < s.notifyCount,
    ((s.notify n).finished ≠ none ∨ ∃ t, s.place t = .notified n) → s.Served (s.notify n)
  /-- A wait was woken by a call that was running. -/
  woken : ∀ wait n stamp, s.outcome wait = some (.woken n stamp) →
    n < s.notifyCount ∧ (s.notify n).During stamp ∧ stamp < s.stamp

section

variable {s s' : State Thread Lock} {r : Notify} {wait n : Nat}

theorem WokenNear.later {r' : Notify} (h : s.WokenNear r wait) (hs : s.NotifyInv)
    (hl : s.Later s') (hr : Extends s.stamp r r') (hbeg : r.began < s.stamp) :
    s'.WokenNear r' wait := by
  obtain ⟨n, stamp, ho, m, hm, hov, hdur⟩ := h
  have hstm := (hs.woken wait n stamp ho).2.2
  exact ⟨n, stamp, hl.outcome wait _ ho, m, hm.trans_le hl.count,
    hov.extends (hl.notify m hm) hr (hs.began m hm) hbeg,
    hdur.extends hstm (hl.notify m hm)⟩

theorem wokenNear_of_running {m : Nat} (hs : s.NotifyInv) (hl : s.Later s')
    (hm : m < s.notifyCount) (hr : (s'.notify m).finished = none)
    (hov : (s'.notify m).Overlaps r)
    (ho : s'.outcome wait = some (.woken n s.stamp)) : s'.WokenNear r wait := by
  refine ⟨n, s.stamp, ho, m, hm.trans_le hl.count, hov, during_of_unfinished hr ?_⟩
  rw [(hl.notify m hm).began]
  exact hs.began m hm

/-- What a running call has found stays tracked. -/
theorem Tracked.later (h : s.Tracked (s.notify n) wait) (hs : s.NotifyInv)
    (hl : s.Later s') (hn : n < s.notifyCount) (hr : (s'.notify n).finished = none) :
    s'.Tracked (s'.notify n) wait := by
  rcases h with h | h | h
  · exact .inl (h.later hs hl (hl.notify n hn) (hs.began n hn))
  · exact .inr (.inl (hl.outcome wait _ h))
  · rcases hl.queue wait h with h | h | ⟨k, h⟩
    · exact .inr (.inr h)
    · exact .inr (.inl h)
    · exact .inl (wokenNear_of_running hs hl hn hr (overlaps_of_unfinished hr hr) h)

/-- A tracked wait that has left the queue is safe. -/
theorem Tracked.safe (h : s.Tracked r wait) (hn : wait ∉ s.queue) : s.Safe r wait := by
  rcases h with h | h | h
  · exact .inl h
  · exact .inr (.inl h)
  · exact absurd h hn

theorem Pending.lt {m : Nat} (h : s.Pending m) (hs : s.NotifyInv) : m < s.notifyCount := by
  obtain ⟨t, ht⟩ := h
  exact (hs.running t m (by rw [ht]; rfl)).1

/-- A safe wait stays safe. -/
theorem Safe.later (h : s.Safe (s.notify n) wait) (hs : s.NotifyInv) (hl : s.Later s')
    (hn : n < s.notifyCount) : s'.Safe (s'.notify n) wait := by
  rcases h with h | h | ⟨hq, m, hm, hov⟩
  · exact .inl (h.later hs hl (hl.notify n hn) (hs.began n hn))
  · exact .inr (.inl (hl.outcome wait _ h))
  · obtain ⟨hpn, hr⟩ := hl.pending m hm
    have hlt := hm.lt hs
    have hov' := hov.extends (hl.notify m hlt) (hl.notify n hn) (hs.began m hlt) (hs.began n hn)
    rcases hl.queue wait hq with h | h | ⟨k, h⟩
    · rcases hpn with hpn | hemp
      · exact .inr (.inr ⟨h, m, hpn, hov'⟩)
      · rw [hemp] at h
        cases h
    · exact .inr (.inl h)
    · -- whoever woke it: the `notifyAll` is running
      exact .inl (wokenNear_of_running hs hl hlt hr hov' h)

/-- What a call has promised stays true. -/
theorem Served.later (h : s.Served (s.notify n)) (hs : s.NotifyInv) (hl : s.Later s')
    (hn : n < s.notifyCount) : s'.Served (s'.notify n) := by
  have hr := hl.notify n hn
  rcases h with ⟨ha, wait, hwt, h⟩ | h
  · exact .inl ⟨hr.all.trans ha, wait, hr.waiting ▸ hwt, h.later hs hl hr (hs.began n hn)⟩
  · refine .inr fun wait hwt => (h wait ?_).later hs hl hn
    rwa [hr.waiting] at hwt

end

/-! ## What a step keeps of the promises -/

section

variable {s s' : State Thread Lock}

/-- What a step has to keep of the notifying calls. -/
theorem NotifyInv.next (h : s.NotifyInv) (hl : s.Later s') (hc : s'.notifyCount = s.notifyCount)
    (hr : ∀ u n, (s'.place u).notifies = some n →
      (s.place u).notifies = some n ∧ (s'.notify n).finished = none)
    (hsv : ∀ u n, (s'.place u).serves = some n → (s.place u).serves = some n)
    (hone : ∀ u n, (s'.place u).servesOne = some n → (s.place u).servesOne = some n)
    (hsvd : ∀ n < s.notifyCount,
      ((s'.notify n).finished ≠ none ∨ ∃ t, s'.place t = .notified n) →
      ((s.notify n).finished ≠ none ∨ ∃ t, s.place t = .notified n) ∨ s'.Served (s'.notify n))
    (hwc : s.waitCount ≤ s'.waitCount)
    (hq : ∀ wait ∈ s'.queue, wait ∈ s.queue ∨ s.waitCount ≤ wait)
    (hfl : s'.queue ≠ [] → s'.hasWaiters = true ∨ ∃ m, s'.Pending m)
    (hwok : ∀ wait n stamp, s'.outcome wait = some (.woken n stamp) →
      s.outcome wait = some (.woken n stamp) ∨
        (stamp = s.stamp ∧ n < s.notifyCount ∧ (s'.notify n).finished = none)) :
    s'.NotifyInv := by
  have hntf : ∀ n < s'.notifyCount, Extends s.stamp (s.notify n) (s'.notify n) := by
    intro n hn
    exact hl.notify n (hc ▸ hn)
  refine ⟨fun n hn => ?_, fun t n ht => ?_, fun t u n ht hu => ?_, fun n hn => ?_, hfl,
    fun t n ht => ?_, fun t n ht wait hwt => ?_, fun n hn hdn => ?_, fun wait n stamp hw => ?_⟩
  · rw [(hntf n hn).began, hl.stamp]
    exact Nat.lt_succ_of_lt (h.began n (hc ▸ hn))
  · obtain ⟨hp, hf⟩ := hr t n ht
    exact ⟨hc.symm ▸ (h.running t n hp).1, hf⟩
  · exact h.unique t u n (hr t n ht).1 (hr u n hu).1
  · obtain ⟨bound, hb, hwtg, hfst⟩ := h.first n (hc ▸ hn)
    rw [(hntf n hn).waiting]
    refine ⟨bound, hb.trans hwc, hwtg, fun wait hwt hlt => ?_⟩
    rcases hq wait hwt with hwt | hge
    · exact hfst wait hwt hlt
    · exact absurd (hb.trans hge) (not_le.mpr hlt)
  · have hp := hone t n ht
    have hn := (h.running t n (notifies_of_serves (serves_of_servesOne hp))).1
    rw [(hntf n (hc.symm ▸ hn)).all]
    exact h.one t n hp
  · have hp := hsv t n ht
    have hn := (h.running t n (notifies_of_serves hp)).1
    rw [(hntf n (hc.symm ▸ hn)).waiting] at hwt
    exact (h.tracked t n hp wait hwt).later h hl hn (hr t n (notifies_of_serves ht)).2
  · have hn' : n < s.notifyCount := hc ▸ hn
    rcases hsvd n hn' hdn with hdn | hsvd
    · exact (h.served n hn' hdn).later h hl hn'
    · exact hsvd
  · rcases hwok wait n stamp hw with hw | ⟨rfl, hn, hf⟩
    · obtain ⟨hn, hdur, hlt⟩ := h.woken wait n stamp hw
      refine ⟨hc.symm ▸ hn, hdur.extends hlt (hl.notify n hn), ?_⟩
      rw [hl.stamp]
      exact Nat.lt_succ_of_lt hlt
    · refine ⟨hc.symm ▸ hn, during_of_unfinished hf ?_, ?_⟩
      · rw [(hl.notify n hn).began]
        exact h.began n hn
      · rw [hl.stamp]
        exact Nat.lt_succ_self _

/-- The place says the same about calls of `notifyOne` and `notifyAll`. -/
def SameNotify (p q : Place Lock) : Prop := p = q ∨ (p.notifies = none ∧ q.notifies = none)

theorem SameNotify.of_notifies {p q : Place Lock} {n : Nat} (h : SameNotify p q)
    (hp : p.notifies = some n) : p = q := by
  rcases h with heq | ⟨hno, _⟩
  · exact heq
  · simp [hno] at hp

theorem SameNotify.symm {p q : Place Lock} (h : SameNotify p q) : SameNotify q p := by
  rcases h with heq | ⟨hp, hq⟩
  · exact .inl heq.symm
  · exact .inr ⟨hq, hp⟩

/-- A step that has nothing to do with calls of `notifyOne` and `notifyAll`. -/
structure Quiet (s s' : State Thread Lock) : Prop where
  stamp : s'.stamp = s.stamp + 1
  notify : s'.notify = s.notify
  notifyCount : s'.notifyCount = s.notifyCount
  place : ∀ u, SameNotify (s'.place u) (s.place u)

theorem quiet_of_moved {t : Thread} {p : Place Lock} (hm : Moved s.place s'.place t p)
    (ht : (s.place t).notifies = none) (hp : p.notifies = none) (hs : s'.stamp = s.stamp + 1)
    (hntf : s'.notify = s.notify) (hc : s'.notifyCount = s.notifyCount) : s.Quiet s' :=
  ⟨hs, hntf, hc, hm.rel (R := fun _ => SameNotify) (fun _ _ => .inl rfl) (.inr ⟨hp, ht⟩)⟩

theorem Quiet.pending (hqui : s.Quiet s') {m : Nat} (h : s.Pending m) : s'.Pending m := by
  obtain ⟨t, ht⟩ := h
  have hp := (hqui.place t).symm.of_notifies (n := m) (by rw [ht]; rfl)
  exact ⟨t, hp.symm.trans ht⟩

theorem Quiet.later (hqui : s.Quiet s') (h : s.NotifyInv)
    (ho : ∀ wait o, s.outcome wait = some o → s'.outcome wait = some o)
    (hq : ∀ wait ∈ s.queue, wait ∈ s'.queue ∨ s'.outcome wait = some .timedOut) :
    s.Later s' := by
  refine ⟨hqui.stamp, ho, hqui.notifyCount.ge, fun n _ => ?_, fun wait hwt => ?_,
    fun m hm => ⟨.inl (hqui.pending hm), ?_⟩⟩
  · rw [hqui.notify]
    exact Extends.refl _ _
  · rcases hq wait hwt with hwt | hwt
    · exact .inl hwt
    · exact .inr (.inl hwt)
  · obtain ⟨t, ht⟩ := hm
    rw [hqui.notify]
    exact (h.running t m (by rw [ht]; rfl)).2

theorem Quiet.notifyInv (hqui : s.Quiet s') (h : s.NotifyInv) (hl : s.Later s')
    (hwc : s.waitCount ≤ s'.waitCount)
    (hq : ∀ wait ∈ s'.queue, wait ∈ s.queue ∨ s.waitCount ≤ wait)
    (hfl : s'.queue ≠ [] → s'.hasWaiters = true ∨ (s.queue ≠ [] ∧ s'.hasWaiters = s.hasWaiters))
    (hwok : ∀ wait n stamp, s'.outcome wait = some (.woken n stamp) →
      s.outcome wait = some (.woken n stamp)) : s'.NotifyInv := by
  have hp : ∀ u n, (s'.place u).notifies = some n → s'.place u = s.place u :=
    fun u n hu => (hqui.place u).of_notifies hu
  refine h.next hl hqui.notifyCount (fun u n hu => ?_) (fun u n hu => ?_)
    (fun u n hu => ?_) (fun n hn hdn => .inl ?_) hwc hq (fun hne => ?_)
    fun wait n stamp hw => .inl (hwok wait n stamp hw)
  · rw [hp u n hu] at hu
    rw [hqui.notify]
    exact ⟨hu, (h.running u n hu).2⟩
  · rwa [hp u n (notifies_of_serves hu)] at hu
  · rwa [hp u n (notifies_of_serves (serves_of_servesOne hu))] at hu
  · rw [hqui.notify] at hdn
    rcases hdn with hdn | ⟨t, ht⟩
    · exact .inl hdn
    · refine .inr ⟨t, ?_⟩
      rw [← hp t n (by rw [ht]; rfl), ht]
  · rcases hfl hne with hfl | ⟨hne', hsm⟩
    · exact .inl hfl
    · rcases h.flag hne' with hfl | ⟨m, hm⟩
      · exact .inl (hsm.trans hfl)
      · exact .inr ⟨m, hqui.pending hm⟩

end

/-! ## Waits -/

/-- The queue is in the order of the waits, and a wait with an outcome is not in it. -/
structure QueueInv (s : State Thread Lock) : Prop where
  queue_lt : ∀ wait ∈ s.queue, wait < s.waitCount
  sorted : s.queue.Pairwise (· < ·)
  ended : ∀ wait o, s.outcome wait = some o → wait < s.waitCount ∧ wait ∉ s.queue

theorem QueueInv.mem_iff {s : State Thread Lock} (h : s.QueueInv) (wait : Nat) :
    wait ∈ s.queue ↔ wait ∈ s.queue ∧ s.outcome wait = none := by
  refine ⟨fun hwt => ⟨hwt, ?_⟩, fun hwt => hwt.1⟩
  cases ho : s.outcome wait with
  | none => rfl
  | some o => exact absurd hwt (h.ended wait o ho).2

/-- A result is right. -/
def ResultRight (s : State Thread Lock) (call : Call Lock) (wait : Option Nat) (result : Bool) :
    Prop :=
  if result then ∃ w n stamp, wait = some w ∧ s.outcome w = some (.woken n stamp) ∧
    call.began < stamp
  else call.timeout ≤ s.now ∧ ∀ w, wait = some w → s.outcome w = some .timedOut

/-- The invariant about calls of `waitUntil`. -/
structure WaitInv (s : State Thread Lock) : Prop where
  queue : s.QueueInv
  waits : ∀ t call w, (s.place t).waits = some (call, w) → w < s.waitCount ∧
    call.began < s.stamp ∧
      (w ∈ s.queue ∨ ∃ n stamp, s.outcome w = some (.woken n stamp) ∧ call.began < stamp)
  unique : ∀ t u call call' w, (s.place t).waits = some (call, w) →
    (s.place u).waits = some (call', w) → t = u
  arrives : ∀ t call, (s.place t).arrives = some call → call.began < s.stamp
  expired : ∀ t call, (s.place t).expired = some call → call.timeout ≤ s.now
  result : ∀ t call wait result, (s.place t).result = some (call, wait, result) →
    s.ResultRight call wait result
  holds : ∀ t lock, (s.place t).holds = some lock → s.owner lock = some t

section

variable {s s' : State Thread Lock} {call : Call Lock}

theorem WaitInv.not_timedOut (h : s.WaitInv) {t : Thread} {w : Nat}
    (ht : (s.place t).waits = some (call, w)) : s.outcome w ≠ some .timedOut := by
  intro hto
  rcases (h.waits t call w ht).2.2 with hw | ⟨n, stamp, hw, _⟩
  · exact (h.queue.ended w _ hto).2 hw
  · simp [hw] at hto

theorem WaitInv.resultRight_of_not_mem {t : Thread} {w : Nat} (h : s.WaitInv)
    (ht : (s.place t).waits = some (call, w)) (hw : w ∉ s.queue) :
    s.ResultRight call (some w) true := by
  obtain ⟨n, stamp, ho, hlt⟩ := (h.waits t call w ht).2.2.resolve_left hw
  exact ⟨w, n, stamp, rfl, ho, hlt⟩

theorem ResultRight.later {wait : Option Nat} {result : Bool} (h : s.ResultRight call wait result)
    (hl : s.Later s') (hnow : s.now ≤ s'.now) :
    s'.ResultRight call wait result := by
  cases result with
  | true =>
    obtain ⟨w, n, stamp, hwt, ho, hlt⟩ := h
    exact ⟨w, n, stamp, hwt, hl.outcome w _ ho, hlt⟩
  | false => exact ⟨h.1.trans hnow, fun w hw => hl.outcome w _ (h.2 w hw)⟩

/-- What a step has to keep of the waits. -/
theorem WaitInv.next (h : s.WaitInv) (hl : s.Later s') (hnow : s.now ≤ s'.now)
    (hq : s'.QueueInv) (hwc : s.waitCount ≤ s'.waitCount)
    (hwts : ∀ u call w, (s'.place u).waits = some (call, w) →
      (s.place u).waits = some (call, w) ∧ s'.outcome w ≠ some .timedOut)
    (harv : ∀ u call, (s'.place u).arrives = some call →
      (s.place u).arrives = some call ∨ call.began = s.stamp)
    (hexp : ∀ u call, (s'.place u).expired = some call →
      (s.place u).expired = some call ∨ call.timeout ≤ s'.now)
    (hres : ∀ u call wait res, (s'.place u).result = some (call, wait, res) →
      (s.place u).result = some (call, wait, res) ∨ s'.ResultRight call wait res)
    (hhd : ∀ u lock, (s'.place u).holds = some lock → s'.owner lock = some u) :
    s'.WaitInv := by
  refine ⟨hq, fun u call w hu => ?_, fun t u call call' w ht hu => ?_, fun u call hu => ?_,
    fun u call hu => ?_, fun u call wait res hu => ?_, hhd⟩
  · obtain ⟨hu, hto⟩ := hwts u call w hu
    obtain ⟨hlt, hbeg, hw⟩ := h.waits u call w hu
    refine ⟨hlt.trans_le hwc, ?_, ?_⟩
    · rw [hl.stamp]
      exact Nat.lt_succ_of_lt hbeg
    · rcases hw with hw | ⟨n, stamp, ho, hlt⟩
      · rcases hl.queue w hw with hw | hw | ⟨n, hw⟩
        · exact .inl hw
        · exact absurd hw hto
        · exact .inr ⟨n, s.stamp, hw, hbeg⟩
      · exact .inr ⟨n, stamp, hl.outcome w _ ho, hlt⟩
  · exact h.unique t u call call' w (hwts t call w ht).1 (hwts u call' w hu).1
  · rw [hl.stamp]
    rcases harv u call hu with hu | heq
    · exact Nat.lt_succ_of_lt (h.arrives u call hu)
    · rw [heq]
      exact Nat.lt_succ_self _
  · rcases hexp u call hu with hu | hle
    · exact (h.expired u call hu).trans hnow
    · exact hle
  · rcases hres u call wait res hu with hu | hr
    · exact (h.result u call wait res hu).later hl hnow
    · exact hr

end

/-! ## Steps -/

structure Inv (s : State Thread Lock) : Prop where
  notify : s.NotifyInv
  wait : s.WaitInv

/-- The invariant makes the condition correct. -/
theorem Inv.correct {s : State Thread Lock} (h : s.Inv) : s.Correct := by
  refine ⟨fun n hn ha hdn => ?_, fun n hn ha hdn wait hwt => ?_,
    fun t call wait ht => ?_, fun t call wait ht => ?_,
    fun t call wait res ht => h.wait.holds t call.lock (by rw [ht]; rfl),
    fun t call wait res ht => ?_⟩
  · rcases h.notify.served n hn (.inl hdn) with ⟨_, hwok⟩ | hsf
    · exact .inl hwok
    by_cases hwok : ∃ wait ∈ (s.notify n).waiting, s.WokenNear (s.notify n) wait
    · exact .inl hwok
    refine .inr fun wait hwt => ?_
    rcases hsf wait hwt with hw | hw | hw
    · exact absurd ⟨wait, hwt, hw⟩ hwok
    · exact .inl hw
    · exact .inr hw
  · rcases h.notify.served n hn (.inl hdn) with ⟨hnot, _⟩ | hsf
    · simp [ha] at hnot
    · exact hsf wait hwt
  · obtain ⟨w, n, stamp, _, ho, hlt⟩ := h.wait.result t call wait true (by rw [ht]; rfl)
    obtain ⟨hn, hdur, _⟩ := h.notify.woken w n stamp ho
    exact ⟨n, hn, fun f hf => hlt.trans (hdur.2 f hf)⟩
  · exact (h.wait.result t call wait false (by rw [ht]; rfl)).1
  · have hres := h.wait.result t call (some wait) res (by rw [ht]; rfl)
    cases res with
    | true =>
      obtain ⟨w, n, stamp, ⟨⟩, ho, _⟩ := hres
      rw [ho]
      simp
    | false =>
      rw [hres.2 wait rfl]
      simp

theorem inv_initial : (initial : State Thread Lock).Inv where
  notify :=
    { began := nofun
      running := nofun
      unique := nofun
      first := nofun
      flag := fun h => absurd rfl h
      one := nofun
      tracked := nofun
      served := nofun
      woken := nofun }
  wait :=
    { queue := ⟨forall_mem_nil _, List.Pairwise.nil,
        nofun⟩
      waits := nofun
      unique := nofun
      arrives := nofun
      expired := nofun
      result := nofun
      holds := nofun }

section

variable {s : State Thread Lock} {owner : Lock → Option Thread}

/-- Time passes, or a thread goes on that is neither enqueued nor dequeued nor in a notifying call.
-/
theorem Inv.quiet (h : s.Inv) {now : Nat} {place : Thread → Place Lock} (hnow : s.now ≤ now)
    (hntf : ∀ u, SameNotify (place u) (s.place u))
    (hwts : ∀ u call w, (place u).waits = some (call, w) → (s.place u).waits = some (call, w))
    (harv : ∀ u call, (place u).arrives = some call →
      (s.place u).arrives = some call ∨ call.began = s.stamp)
    (hexp : ∀ u call, (place u).expired = some call →
      (s.place u).expired = some call ∨ call.timeout ≤ now)
    (hres : ∀ u call wait res, (place u).result = some (call, wait, res) →
      (s.place u).result = some (call, wait, res) ∨ s.ResultRight call wait res)
    (hhd : ∀ u lock, (place u).holds = some lock → owner lock = some u) :
    Inv { s with now := now, owner := owner, place := place, stamp := s.stamp + 1 } := by
  have hqui : s.Quiet { s with now := now, owner := owner, place := place, stamp := s.stamp + 1 } :=
    ⟨rfl, rfl, rfl, hntf⟩
  have hl := hqui.later h.notify (fun _ _ ho => ho) fun _ hwt => .inl hwt
  refine ⟨hqui.notifyInv h.notify hl le_rfl (fun _ hwt => .inl hwt)
    (fun hne => .inr ⟨hne, rfl⟩) fun _ _ _ hw => hw,
    h.wait.next hl hnow ⟨h.wait.queue.queue_lt, h.wait.queue.sorted, h.wait.queue.ended⟩
    le_rfl (fun u call w hu => ⟨hwts u call w hu, h.wait.not_timedOut (hwts u call w hu)⟩)
    harv hexp (fun u call wait res hu => ?_) hhd⟩
  rcases hres u call wait res hu with hu | hr
  · exact .inl hu
  · exact .inr (hr.later hl hnow)

section

variable [DecidableEq Lock] {t : Thread}

theorem owner_of_release {lock : Lock} (hlk : s.owner lock = some t) :
    ∀ u ≠ t, ∀ l, s.owner l = some u → update s.owner lock none l = some u := by
  intro u hne l hl
  by_cases heq : l = lock
  · rw [heq, hlk] at hl
    exact absurd (some.inj hl).symm hne
  · rwa [update_of_ne heq]

theorem owner_of_acquire {lock : Lock} (hlk : s.owner lock = none) :
    ∀ u ≠ t, ∀ l, s.owner l = some u → update s.owner lock (some t) l = some u := by
  intro u _ l hl
  by_cases heq : l = lock
  · rw [heq, hlk] at hl
    cases hl
  · rwa [update_of_ne heq]

end

variable [DecidableEq Thread] {t : Thread} {p : Place Lock} {q : Place Lock}

/-- A thread goes on that is neither enqueued nor dequeued and not inside a call of `notifyOne`
or `notifyAll`. -/
theorem Inv.move (h : s.Inv) (ht : s.place t = q) (hq : q.notifies = none) (hp : p.notifies = none)
    (hwts : ∀ call w, p.waits = some (call, w) → q.waits = some (call, w))
    (harv : ∀ call, p.arrives = some call → q.arrives = some call ∨ call.began = s.stamp)
    (hexp : ∀ call, p.expired = some call → q.expired = some call ∨ call.timeout ≤ s.now)
    (hres : ∀ call wait res, p.result = some (call, wait, res) → q.result = some (call,
      wait, res) ∨ s.ResultRight call wait res)
    (hhd : ∀ lock, p.holds = some lock → owner lock = some t)
    (ho : ∀ u ≠ t, ∀ lock, s.owner lock = some u → owner lock = some u) :
    Inv { s with owner := owner, place := update s.place t p, stamp := s.stamp + 1 } := by
  subst ht
  have hm := moved_update s.place t p
  refine h.quiet le_rfl (hm.rel (R := fun _ => SameNotify) (fun _ _ => .inl rfl)
      (.inr ⟨hp, hq⟩))
    (fun u call w => hm.rel (R := fun _ p q => p.waits = some (call, w) →
      q.waits = some (call, w)) (fun _ _ => id) (hwts call w) u)
    (fun u call => hm.rel (R := fun _ p q => p.arrives = some call →
      q.arrives = some call ∨ call.began = s.stamp) (fun _ _ => .inl) (harv call) u)
    (fun u call => hm.rel (R := fun _ p q => p.expired = some call →
      q.expired = some call ∨ call.timeout ≤ s.now) (fun _ _ => .inl) (hexp call) u)
    (fun u call wait res => hm.rel (R := fun _ p q => p.result = some (call, wait, res) →
      q.result = some (call, wait, res) ∨ s.ResultRight call wait res) (fun _ _ => .inl)
      (hres call wait res) u) fun u lock hu => ?_
  rcases hm.cases hu with ⟨rfl, hp⟩ | ⟨hne, hu⟩
  · exact hhd lock hp
  · exact ho u hne lock (h.wait.holds u lock hu)

variable {call : Call Lock}

/-- A call has its result, before it locks again. -/
theorem Inv.relock (h : s.Inv) (ht : s.place t = q) (hq : q.notifies = none) {wait : Option Nat}
    {res : Bool} (hrgt : s.ResultRight call wait res)
    (ho : ∀ u ≠ t, ∀ lock, s.owner lock = some u → owner lock = some u) :
    Inv { s with
      owner := owner
      place := update s.place t (.relock call wait res)
      stamp := s.stamp + 1 } := by
  refine h.move ht hq rfl nofun nofun nofun (fun call' wait' res' hr => .inr ?_) nofun ho
  obtain ⟨rfl, rfl, rfl⟩ := hr
  exact hrgt

/-- A thread begins to wait. -/
theorem Inv.enqueue (h : s.Inv) (ht : s.place t = .parkConditionally call) :
    (s.enqueue.goTo t (.beforeSleep call s.waitCount)).stamped.Inv := by
  set s' := (s.enqueue.goTo t (.beforeSleep call s.waitCount)).stamped
  have hmv : Moved s.place s'.place t (.beforeSleep call s.waitCount) := moved_update ..
  have hq : s'.queue = s.queue ++ [s.waitCount] := rfl
  have hqui : s.Quiet s' := quiet_of_moved hmv (by rw [ht]; rfl) rfl rfl rfl rfl
  have hm : ∀ wait, wait ∈ s'.queue ↔ wait ∈ s.queue ∨ wait = s.waitCount := by
    simp [hq]
  have hl := hqui.later h.notify (fun _ _ ho => ho) fun wait hwt => .inl ((hm wait).mpr (.inl hwt))
  -- the wait is new: no other thread has it
  have hnew : ∀ u call' w, (s'.place u).waits = some (call', w) →
      (u = t ∧ w = s.waitCount ∧ call' = call) ∨
        ((s.place u).waits = some (call', w) ∧ w < s.waitCount) := by
    intro u call' w hu
    rcases hmv.cases hu with ⟨heq, hu⟩ | ⟨_, hu⟩
    · cases hu
      exact .inl ⟨heq, rfl, rfl⟩
    · exact .inr ⟨hu, (h.wait.waits u call' w hu).1⟩
  refine ⟨hqui.notifyInv h.notify hl (Nat.le_succ _) (fun wait hwt => ?_)
    (fun _ => .inl rfl) (fun _ _ _ hw => hw),
    ⟨fun wait hwt => ?_, ?_, fun wait o ho => ?_⟩, fun u call' w hu => ?_,
    fun u v call' call'' w hu hv => ?_, fun u call' hu => ?_, fun u call' hu => ?_,
    fun u call' wait res hu => ?_, fun u lock hu => ?_⟩
  · rcases (hm wait).mp hwt with hwt | hwt
    · exact .inl hwt
    · exact .inr hwt.ge
  · rcases (hm wait).mp hwt with hwt | hwt
    · exact Nat.lt_succ_of_lt (h.wait.queue.queue_lt wait hwt)
    · exact hwt ▸ Nat.lt_succ_self _
  · rw [hq]
    refine pairwise_append.mpr ⟨h.wait.queue.sorted, pairwise_singleton _ _, fun a ha b hb => ?_⟩
    rw [mem_singleton.mp hb]
    exact h.wait.queue.queue_lt a ha
  · obtain ⟨hlt, hn⟩ := h.wait.queue.ended wait o ho
    refine ⟨Nat.lt_succ_of_lt hlt, fun hwt => ?_⟩
    exact ((hm wait).mp hwt).elim hn hlt.ne
  · rcases hnew u call' w hu with ⟨_, rfl, rfl⟩ | ⟨hu, _⟩
    · exact ⟨Nat.lt_succ_self _, Nat.lt_succ_of_lt (h.wait.arrives t call' (by rw [ht]; rfl)),
        .inl ((hm _).mpr (.inr rfl))⟩
    · obtain ⟨hlt, hbeg, hw⟩ := h.wait.waits u call' w hu
      exact ⟨Nat.lt_succ_of_lt hlt, Nat.lt_succ_of_lt hbeg,
        hw.imp_left fun hw => (hm w).mpr (.inl hw)⟩
  · rcases hnew u call' w hu with ⟨rfl, rfl, _⟩ | ⟨hu, hlt⟩
    · rcases hnew v call'' _ hv with ⟨rfl, _⟩ | ⟨_, hlt⟩
      · rfl
      · exact absurd hlt (lt_irrefl _)
    · rcases hnew v call'' w hv with ⟨_, rfl, _⟩ | ⟨hv, _⟩
      · exact absurd hlt (lt_irrefl _)
      · exact h.wait.unique u v call' call'' w hu hv
  · exact Nat.lt_succ_of_lt (h.wait.arrives u call' (hmv.old rfl hu).2)
  · exact h.wait.expired u call' (hmv.old rfl hu).2
  · exact (h.wait.result u call' wait res (hmv.old rfl hu).2).later hl le_rfl
  · rcases hmv.cases hu with ⟨rfl, hp⟩ | ⟨_, hu⟩
    · exact h.wait.holds u lock (by rw [ht]; exact hp)
    · exact h.wait.holds u lock hu

/-- A thread leaves the queue after its timeout. -/
theorem Inv.leave (h : s.Inv) {w : Nat} (ht : s.place t = .dequeue call w) (hw : w ∈ s.queue) :
    ((s.leave w).goTo t (.relock call (some w) false)).stamped.Inv := by
  set s' := ((s.leave w).goTo t (.relock call (some w) false)).stamped
  have hm : Moved s.place s'.place t (.relock call (some w) false) := moved_update ..
  have hqui : s.Quiet s' := quiet_of_moved hm (by rw [ht]; rfl) rfl rfl rfl rfl
  have hnd : s.queue.Nodup := h.wait.queue.sorted.imp ne_of_lt
  have hlf : s'.outcome w = some .timedOut := update_self ..
  have hkp : ∀ wait ≠ w, s'.outcome wait = s.outcome wait := fun _ hne => update_of_ne hne _ _
  have hl := hqui.later h.notify
    (fun wait o ho => by
      rw [hkp wait fun heq => (h.wait.queue.ended wait o ho).2 (heq ▸ hw)]
      exact ho)
    (fun wait hwt => by
      by_cases heq : wait = w
      · exact .inr (heq ▸ hlf)
      · exact .inl ((mem_erase_of_ne heq).mpr hwt))
  have hq' : s'.QueueInv := by
    refine ⟨fun wait hwt => h.wait.queue.queue_lt wait (mem_of_mem_erase hwt),
      h.wait.queue.sorted.sublist erase_sublist, fun wait o ho => ?_⟩
    by_cases heq : wait = w
    · rw [heq]
      exact ⟨h.wait.queue.queue_lt w hw, hnd.not_mem_erase⟩
    · rw [hkp wait heq] at ho
      obtain ⟨hlt, hn⟩ := h.wait.queue.ended wait o ho
      exact ⟨hlt, fun hmem => hn (mem_of_mem_erase hmem)⟩
  refine ⟨hqui.notifyInv h.notify hl le_rfl (fun _ hwt => .inl (mem_of_mem_erase hwt))
    (fun _ => .inr ⟨ne_nil_of_mem hw, rfl⟩) (fun wait n stamp hwok => ?_),
    h.wait.next hl le_rfl hq' le_rfl (fun u call' wait hu => ?_)
      (fun u call' hu => .inl (hm.old rfl hu).2) (fun u call' hu => .inl (hm.old rfl hu).2)
      (fun u call' wait res hu => ?_) fun u lock hu => ?_⟩
  · by_cases heq : wait = w
    · rw [heq, hlf] at hwok
      cases hwok
    · rwa [hkp wait heq] at hwok
  · obtain ⟨hut, hu⟩ := hm.old rfl hu
    -- the wait belongs to the other thread
    have hne : wait ≠ w := fun hwt =>
      hut (h.wait.unique u t call' call w (hwt ▸ hu) (by rw [ht]; rfl))
    exact ⟨hu, hkp wait hne ▸ h.wait.not_timedOut hu⟩
  · rcases hm.cases hu with ⟨_, hu⟩ | ⟨_, hu⟩
    · simp only [Place.result, some.injEq, Prod.mk.injEq] at hu
      obtain ⟨rfl, rfl, rfl⟩ := hu
      refine .inr ⟨h.wait.expired t call (by rw [ht]; rfl), fun w' hw' => ?_⟩
      rw [← some.inj hw', hlf]
    · exact .inl hu
  · exact h.wait.holds u lock (hm.old rfl hu).2

end

/-! ### Calls of `notifyOne` and `notifyAll` -/

/-- The place has nothing to do with a call of `waitUntil`. -/
structure Aside (p : Place Lock) : Prop where
  waits : p.waits = none
  arrives : p.arrives = none
  expired : p.expired = none
  result : p.result = none
  holds : p.holds = none

theorem aside_of_notifies {p : Place Lock} {n : Nat} (h : p.notifies = some n) : Aside p := by
  cases p <;> first | exact ⟨rfl, rfl, rfl, rfl, rfl⟩ | cases h

theorem aside_outside : Aside (Place.outside : Place Lock) := ⟨rfl, rfl, rfl, rfl, rfl⟩

section

variable {s s' : State Thread Lock} {t : Thread} {n : Nat} {p q : Place Lock}

/-- A step of a thread inside a call of `notifyOne` or `notifyAll`. -/
structure Serves (s s' : State Thread Lock) (t : Thread) : Prop where
  stamp : s'.stamp = s.stamp + 1
  waitCount : s'.waitCount = s.waitCount
  now : s'.now = s.now
  owner : s'.owner = s.owner
  others : ∀ u ≠ t, s'.place u = s.place u
  before : Aside (s.place t)
  after : Aside (s'.place t)
  /-- Waits leave the queue only by being woken. -/
  queue : ∀ wait, wait ∈ s'.queue ↔ wait ∈ s.queue ∧ s'.outcome wait = none
  sublist : s'.queue.Sublist s.queue
  outcome : ∀ wait o, s'.outcome wait = some o → s.outcome wait = some o ∨
    (wait ∈ s.queue ∧ ∃ n, o = .woken n s.stamp ∧ (s.place t).serves = some n)
  kept : ∀ wait o, s.outcome wait = some o → s'.outcome wait = some o

theorem Serves.moved (hsv : Serves s s' t) (hsf : s'.place t = p) :
    Moved s.place s'.place t p := ⟨hsf, hsv.others⟩

theorem Serves.waitInv (hsv : Serves s s' t) (h : s.WaitInv) (hl : s.Later s') : s'.WaitInv := by
  have hq : s'.QueueInv := by
    refine ⟨fun wait hwt => ?_, h.queue.sorted.sublist hsv.sublist, fun wait o ho => ?_⟩
    · rw [hsv.waitCount]
      exact h.queue.queue_lt wait ((hsv.queue wait).mp hwt).1
    · rw [hsv.waitCount]
      refine ⟨?_, fun hm => ?_⟩
      · rcases hsv.outcome wait o ho with ho | ⟨hm, _⟩
        · exact (h.queue.ended wait o ho).1
        · exact h.queue.queue_lt wait hm
      · exact absurd (((hsv.queue wait).mp hm).2.symm.trans ho) (by simp)
  have hold {α : Type} {f : Place Lock → Option α} (hf : f (s'.place t) = none) {u : Thread}
      {a : α} (hu : f (s'.place u) = some a) : f (s.place u) = some a :=
    ((hsv.moved rfl).old hf hu).2
  refine h.next hl hsv.now.ge hq hsv.waitCount.ge (fun u call w hu => ?_)
    (fun u call hu => .inl (hold hsv.after.arrives hu))
    (fun u call hu => .inl (hold hsv.after.expired hu))
    (fun u call wait res hu => .inl (hold hsv.after.result hu)) fun u lock hu => ?_
  · have hu := hold hsv.after.waits hu
    refine ⟨hu, fun hto => ?_⟩
    rcases hsv.outcome w _ hto with hto | ⟨_, _, hw, _⟩
    · exact h.not_timedOut hu hto
    · cases hw
  · rw [hsv.owner]
    exact h.holds u lock (hold hsv.after.holds hu)

/-- The records of calls only grow, and a `notifyAll` that is about to unpark threads unparks all.
-/
theorem Serves.later (hsv : Serves s s' t) (hq : s.QueueInv) (hc : s.notifyCount ≤ s'.notifyCount)
    (hntf : ∀ k < s.notifyCount, Extends s.stamp (s.notify k) (s'.notify k))
    (hr : ∀ u k, (s.place u).serves = some k → (s'.notify k).finished = none)
    (hpn : ∀ m, s.place t = .unparkAll m → s'.queue = []) : s.Later s' := by
  refine ⟨hsv.stamp, hsv.kept, hc, hntf, fun wait hwt => ?_, fun m hm => ?_⟩
  · cases ho : s'.outcome wait with
    | none => exact .inl ((hsv.queue wait).mpr ⟨hwt, ho⟩)
    | some o =>
      rcases hsv.outcome wait o ho with hold | ⟨_, k, rfl, _⟩
      · exact absurd hwt (hq.ended wait o hold).2
      · exact .inr (.inr ⟨k, rfl⟩)
  · obtain ⟨u, hu⟩ := hm
    refine ⟨?_, hr u m (by rw [hu]; rfl)⟩
    by_cases heq : u = t
    · exact .inr (hpn m (heq ▸ hu))
    · exact .inl ⟨u, (hsv.others u heq).trans hu⟩

/-- A step of a notifying call keeps the invariant. -/
theorem Serves.inv (hsv : Serves s s' t) (h : s.Inv) (hntf : s'.notify = s.notify)
    (hc : s'.notifyCount = s.notifyCount) (ht : s.place t = q) (hsf : s'.place t = p)
    (hq : q.serves = some n) (hp : p.notifies = some n)
    (hone : ∀ k, p.servesOne = some k → q.servesOne = some k)
    (hpn : ∀ m, q = .unparkAll m → s'.queue = [])
    (hsvd : p = .notified n → s.Later s' → s'.Served (s.notify n))
    (hfl : s'.queue ≠ [] → s'.hasWaiters = true ∨ ∃ m, s'.Pending m) : s'.Inv := by
  subst ht
  have hm := hsv.moved hsf
  have hl : s.Later s' := by
    refine hsv.later h.wait.queue hc.ge (fun k _ => ?_) (fun u k hu => ?_) hpn
    · rw [hntf]
      exact Extends.refl _ _
    · rw [hntf]
      exact (h.notify.running u k (notifies_of_serves hu)).2
  have hr : ∀ u k, (s'.place u).notifies = some k → (s.place u).notifies = some k :=
    fun u k => hm.rel (R := fun _ p q => p.notifies = some k → q.notifies = some k)
      (fun _ _ => id) (fun hk => (notifies_of_serves hq).trans (hp.symm.trans hk)) u
  refine ⟨h.notify.next hl hc (fun u k hu => ⟨hr u k hu, ?_⟩)
    (fun u k => hm.rel (R := fun _ p q => p.serves = some k → q.serves = some k)
      (fun _ _ => id) (fun hk => hq.trans (hp.symm.trans (notifies_of_serves hk))) u)
    (fun u k => hm.rel (R := fun _ p q => p.servesOne = some k → q.servesOne = some k)
      (fun _ _ => id) (hone k) u) (fun k _ hdn => ?_) hsv.waitCount.ge
    (fun wait hwt => .inl ((hsv.queue wait).mp hwt).1) hfl
    (fun wait k stamp hw => ?_), hsv.waitInv h.wait hl⟩
  · rw [hntf]
    exact (h.notify.running u k (hr u k hu)).2
  · rw [hntf] at hdn ⊢
    rcases hdn with hdn | ⟨u, hu⟩
    · exact .inl (.inl hdn)
    · rcases hm.split (P := fun p => p = .notified k) hu with ⟨_, rfl⟩ | ⟨_, hu⟩
      · cases hp
        exact .inr (hsvd rfl hl)
      · exact .inl (.inr ⟨u, hu⟩)
  · rcases hsv.outcome wait _ hw with hold | ⟨_, k', heq, hk'⟩
    · exact .inl hold
    · obtain ⟨rfl, rfl⟩ := Outcome.woken.inj heq
      obtain ⟨hk, hf⟩ := h.notify.running t k (notifies_of_serves hk')
      exact .inr ⟨rfl, hk, by rw [hntf]; exact hf⟩

theorem NotifyInv.flag_of_others (h : s.NotifyInv) (hots : ∀ u ≠ t, s'.place u = s.place u)
    (hn : ∀ m, s.place t ≠ .unparkAll m) (hne : s.queue ≠ []) :
    s.hasWaiters = true ∨ ∃ m, s'.Pending m := by
  rcases h.flag hne with htr | ⟨m, u, hu⟩
  · exact .inl htr
  · have hut : u ≠ t := fun heq => hn m (heq ▸ hu)
    exact .inr ⟨m, u, (hots u hut).trans hu⟩

theorem Inv.served_of_flag (h : s.Inv) (hfl : s.hasWaiters = false)
    (ht : (s.place t).serves = some n) : ∀ wait ∈ (s.notify n).waiting,
      s.Safe (s.notify n) wait := by
  intro wait hwt
  rcases h.notify.tracked t n ht wait hwt with hw | hw | hw
  · exact .inl hw
  · exact .inr (.inl hw)
  · rcases h.notify.flag (ne_nil_of_mem hw) with htr | ⟨m, u, hu⟩
    · simp [hfl] at htr
    · have hm := (h.notify.running u m (by rw [hu]; rfl)).2
      have hn := (h.notify.running t n (notifies_of_serves ht)).2
      exact .inr (.inr ⟨hw, m, ⟨u, hu⟩, overlaps_of_unfinished hm hn⟩)

variable [DecidableEq Thread]

section

variable (h : s.Inv)

include h

theorem serves_goTo {hasWaiters : Bool} {notify : Nat → Notify} {notifyCount : Nat}
    (hq : Aside (s.place t)) (hp : Aside p) :
    Serves s ({ s with hasWaiters, notify, notifyCount }.goTo t p).stamped t where
  stamp := rfl
  waitCount := rfl
  now := rfl
  owner := rfl
  others u hu := update_of_ne hu _ _
  before := hq
  after := by
    show Aside (update s.place t p t)
    rwa [update_self]
  queue wait := h.wait.queue.mem_iff wait
  sublist := List.Sublist.refl _
  outcome _ _ ho := .inl ho
  kept _ _ ho := ho

/-- A notifying call goes on and leaves the queue alone. -/
theorem Inv.serve (ht : s.place t = q) (hq : q.serves = some n) (hp : p.notifies = some n)
    (hone : ∀ k, p.servesOne = some k → q.servesOne = some k) (hnot : ∀ m, q ≠ .unparkAll m)
    (hsvd : p = .notified n → s.hasWaiters = false) :
    (s.goTo t p).stamped.Inv := by
  have hsv : Serves s (s.goTo t p).stamped t :=
    serves_goTo h (ht ▸ aside_of_notifies (notifies_of_serves hq)) (aside_of_notifies hp)
  have ht' : (s.place t).serves = some n := by rw [ht, hq]
  refine hsv.inv h rfl rfl ht (update_self ..) hq hp hone
    (fun m hm => absurd hm (hnot m)) (fun hdn hl => .inr fun w hw => ?_)
    (h.notify.flag_of_others hsv.others fun m => ht ▸ hnot m)
  have hn := (h.notify.running t n (notifies_of_serves ht')).1
  exact (h.served_of_flag (hsvd hdn) ht' w hw).later h.notify hl hn

theorem Inv.storeFalse (ht : s.place t = .storeFalse n) :
    ({ s with hasWaiters := false }.goTo t (.unparkAll n)).stamped.Inv := by
  have hsv : Serves s ({ s with hasWaiters := false }.goTo t (.unparkAll n)).stamped t :=
    serves_goTo h (ht ▸ aside_of_notifies (n := n) rfl) (aside_of_notifies (n := n) rfl)
  exact hsv.inv (n := n) h rfl rfl ht (update_self ..) rfl rfl nofun nofun nofun
    fun _ => .inr ⟨n, t, update_self ..⟩

/-- All threads are unparked. -/
theorem Inv.unparkAll (ht : s.place t = .unparkAll n) :
    ((s.unparkAll n).goTo t (.notified n)).stamped.Inv := by
  set s' := ((s.unparkAll n).goTo t (.notified n)).stamped
  have hsf : s'.place t = .notified n := update_self ..
  have hout : ∀ wait, s'.outcome wait =
      if wait ∈ s.queue then some (.woken n s.stamp) else s.outcome wait := fun _ => rfl
  have hsv : Serves s s' t := by
    refine ⟨rfl, rfl, rfl, rfl, fun u hu => update_of_ne hu _ _,
      ht ▸ aside_of_notifies (n := n) rfl, hsf ▸ aside_of_notifies (n := n) rfl,
      fun wait => ?_, nil_sublist _, fun wait o ho => ?_, fun wait o ho => ?_⟩
    · rw [hout]
      refine iff_of_false not_mem_nil fun hm => ?_
      simp [hm.1] at hm
    · rw [hout] at ho
      split at ho
      case isTrue hm => exact .inr ⟨hm, n, (some.inj ho).symm, by rw [ht]; rfl⟩
      case isFalse => exact .inl ho
    · rw [hout, if_neg (h.wait.queue.ended wait o ho).2]
      exact ho
  have ht' : (s.place t).serves = some n := by rw [ht]; rfl
  obtain ⟨hn, hr⟩ := h.notify.running t n (notifies_of_serves ht')
  refine hsv.inv h rfl rfl ht hsf rfl rfl nofun (fun _ _ => rfl)
    (fun _ hl => .inr fun w hw => ?_) fun hne => absurd rfl hne
  exact ((h.notify.tracked t n ht' w hw).later h.notify hl hn hr).safe not_mem_nil

/-- There is no thread to unpark. -/
theorem Inv.unparkNone (ht : s.place t = .unparkOne n) (hq : s.queue = []) :
    ({ s with hasWaiters := false }.goTo t (.notified n)).stamped.Inv := by
  have hsv : Serves s ({ s with hasWaiters := false }.goTo t (.notified n)).stamped t :=
    serves_goTo h (ht ▸ aside_of_notifies (n := n) rfl) (aside_of_notifies (n := n) rfl)
  have ht' : (s.place t).serves = some n := by rw [ht]; rfl
  refine hsv.inv (n := n) h rfl rfl ht (update_self ..) rfl rfl nofun nofun
    (fun _ hl => .inr fun w hw => ?_) fun hne => absurd hq hne
  have hn := (h.notify.running t n (notifies_of_serves ht')).1
  exact ((h.notify.tracked t n ht' w hw).safe (by simp [hq])).later h.notify hl hn

/-- The first thread of the queue is unparked. -/
theorem Inv.unparkOne {w : Nat} {rest : List Nat} {ots : Bool} (ht : s.place t = .unparkOne n)
    (hq : s.queue = w :: rest) :
    ({ s with
        queue := rest
        outcome := update s.outcome w (some (.woken n s.stamp))
        hasWaiters := if !rest.isEmpty || ots then s.hasWaiters else false }.goTo t
      (.notified n)).stamped.Inv := by
  set s' := (goTo { s with
    queue := rest
    outcome := update s.outcome w (some (.woken n s.stamp))
    hasWaiters := if !rest.isEmpty || ots then s.hasWaiters else false } t (.notified n)).stamped
  have hsf : s'.place t = .notified n := update_self ..
  have hfl : rest ≠ [] → s'.hasWaiters = s.hasWaiters := by
    intro hne
    show (if !rest.isEmpty || ots then s.hasWaiters else false) = s.hasWaiters
    rw [isEmpty_eq_false_iff.mpr hne, if_pos (by simp)]
  have hsrt := h.wait.queue.sorted
  rw [hq] at hsrt
  obtain ⟨hfst, hsrt⟩ := pairwise_cons.mp hsrt
  have hw : w ∈ s.queue := hq ▸ mem_cons_self
  have hwok : s'.outcome w = some (.woken n s.stamp) := update_self ..
  have hkp : ∀ wait ≠ w, s'.outcome wait = s.outcome wait := fun _ hne => update_of_ne hne _ _
  have ht' : (s.place t).serves = some n := by rw [ht]; rfl
  have hsv : Serves s s' t := by
    refine ⟨rfl, rfl, rfl, rfl, fun u hu => update_of_ne hu _ _,
      ht ▸ aside_of_notifies (n := n) rfl, hsf ▸ aside_of_notifies (n := n) rfl, fun wait => ?_,
      by rw [hq]; exact sublist_cons_self _ _, fun wait o ho => ?_, fun wait o ho => ?_⟩
    · rw [hq, mem_cons]
      constructor
      · intro hm
        have hne : wait ≠ w := (ne_of_lt (hfst wait hm)).symm
        refine ⟨.inr hm, ?_⟩
        rw [hkp wait hne]
        exact ((h.wait.queue.mem_iff wait).mp (hq ▸ mem_cons_of_mem w hm)).2
      · rintro ⟨rfl | hm, hno⟩
        · simp [hwok] at hno
        · exact hm
    · by_cases heq : wait = w
      · rw [heq, hwok] at ho
        exact .inr ⟨heq ▸ hw, n, (some.inj ho).symm, ht'⟩
      · rw [hkp wait heq] at ho
        exact .inl ho
    · rw [hkp wait fun heq => (h.wait.queue.ended wait o ho).2 (heq ▸ hw)]
      exact ho
  obtain ⟨hn, hr⟩ := h.notify.running t n (notifies_of_serves ht')
  refine hsv.inv h rfl rfl ht hsf rfl rfl nofun nofun (fun _ hl => ?_) fun hne => ?_
  · by_cases hm : w ∈ (s.notify n).waiting
    · refine .inl ⟨h.notify.one t n (by rw [ht]; rfl), w, hm, ?_⟩
      exact wokenNear_of_running h.notify hl hn hr (overlaps_of_unfinished hr hr) hwok
    -- the first thread came later, so none of them is in the queue
    refine .inr fun x hx => ?_
    obtain ⟨bound, _, hwtg, hb⟩ := h.notify.first n hn
    have hnot : x ∉ s.queue := by
      intro hxq
      have hle : w ≤ x := by
        rw [hq] at hxq
        rcases mem_cons.mp hxq with rfl | hxq
        · exact le_rfl
        · exact le_of_lt (hfst x hxq)
      exact hm (hb w hw (hle.trans_lt (hwtg x hx)))
    exact ((h.notify.tracked t n ht' x hx).safe hnot).later h.notify hl hn
  · rw [hfl hne]
    exact h.notify.flag_of_others hsv.others (by simp [ht]) (ne_nil_of_mem hw)

/-- A notifying call returns. -/
theorem Inv.endNotify (ht : s.place t = .notified n) :
    ((s.endNotify n).goTo t .outside).stamped.Inv := by
  set s' := ((s.endNotify n).goTo t .outside).stamped
  have hsf : s'.place t = .outside := update_self ..
  have hntf : Moved s.notify s'.notify n { s.notify n with finished := some s.stamp } :=
    moved_update ..
  have hsv : Serves s s' t := serves_goTo h (ht ▸ aside_of_notifies (n := n) rfl) aside_outside
  have hmv := hsv.moved hsf
  obtain ⟨hn, hr⟩ := h.notify.running t n (by rw [ht]; rfl)
  -- no other thread is inside the call
  have hne : ∀ u ≠ t, ∀ k, (s.place u).notifies = some k → k ≠ n := by
    intro u hu k hk heq
    exact hu (h.notify.unique u t n (heq ▸ hk) (by rw [ht]; rfl))
  have hl : s.Later s' := by
    refine hsv.later h.wait.queue le_rfl (fun k _ => hntf.rel
      (R := fun _ r r' => Extends s.stamp r' r) (fun _ => Extends.refl _)
      ⟨rfl, rfl, rfl, .inr ⟨hr, rfl⟩⟩ k) (fun u k hu => ?_)
      fun m hm => absurd (ht.symm.trans hm) (by simp)
    have hut : u ≠ t := by
      rintro rfl
      rw [ht] at hu
      cases hu
    rw [hntf.others k (hne u hut k (notifies_of_serves hu))]
    exact (h.notify.running u k (notifies_of_serves hu)).2
  refine ⟨h.notify.next hl rfl (fun u k hu => ?_) (fun u k hu => (hmv.old rfl hu).2)
    (fun u k hu => (hmv.old rfl hu).2) (fun k _ hdn => .inl ?_) le_rfl (fun _ => .inl)
    (fun hne => ?_) (fun _ _ _ => .inl), hsv.waitInv h.wait hl⟩
  · obtain ⟨hut, hu⟩ := hmv.old rfl hu
    rw [hntf.others k (hne u hut k hu)]
    exact ⟨hu, (h.notify.running u k hu).2⟩
  · rcases hdn with hdn | ⟨u, hu⟩
    · rcases hntf.split (P := fun r => r.finished ≠ none) hdn with ⟨rfl, _⟩ | ⟨_, hdn⟩
      · exact .inr ⟨t, ht⟩
      · exact .inl hdn
    · exact .inr ⟨u, (hmv.back (P := fun p => p = .notified k) (by simp) hu).2⟩
  · exact h.notify.flag_of_others hsv.others (by simp [ht]) hne

/-- A notifying call begins. -/
theorem Inv.beginNotify {all : Bool} (ht : s.place t = .outside)
    (hp : p.serves = some s.notifyCount) (hone : ∀ k, p.servesOne = some k → all = false) :
    ((s.beginNotify all).goTo t p).stamped.Inv := by
  set s' := ((s.beginNotify all).goTo t p).stamped
  have hsf : s'.place t = p := update_self ..
  have hc : s'.notifyCount = s.notifyCount + 1 := rfl
  have hnew : s'.notify s.notifyCount = ⟨all, s.queue, s.stamp, none⟩ := update_self ..
  have hntf : ∀ k < s.notifyCount, s'.notify k = s.notify k := fun k hk => update_of_ne hk.ne _ _
  have hsv : Serves s s' t :=
    serves_goTo h (ht ▸ aside_outside) (aside_of_notifies (notifies_of_serves hp))
  have hmv := hsv.moved hsf
  have hp' := notifies_of_serves hp
  have hr : ∀ u k, (s.place u).notifies = some k → s'.notify k = s.notify k :=
    fun u k hu => hntf k (h.notify.running u k hu).1
  have hl : s.Later s' := by
    refine hsv.later h.wait.queue (hc ▸ Nat.le_succ _) (fun k hk => ?_) (fun u k hu => ?_)
      fun m hm => absurd (ht.symm.trans hm) (by simp)
    · rw [hntf k hk]
      exact Extends.refl _ _
    · rw [hr u k (notifies_of_serves hu)]
      exact (h.notify.running u k (notifies_of_serves hu)).2
  have hnt : ∀ k u, s'.place u = .notified k → s.place u = .notified k := by
    refine fun k u hu => (hmv.back (P := fun p => p = .notified k) ?_ hu).2
    rintro rfl
    cases hp
  refine ⟨⟨fun k hk => ?_, fun u k hu => ?_, fun u v k hu hv => ?_, fun k hk => ?_, fun hne => ?_,
    fun u k hu => ?_, fun u k hu wait hwt => ?_, fun k hk hdn => ?_, fun wait k stamp hw => ?_⟩,
    hsv.waitInv h.wait hl⟩
  · rcases Nat.lt_succ_iff_lt_or_eq.mp hk with hk | rfl
    · rw [hntf k hk]
      exact Nat.lt_succ_of_lt (h.notify.began k hk)
    · rw [hnew]
      exact Nat.lt_succ_self _
  · rcases hmv.cases hu with ⟨_, hk⟩ | ⟨_, hu⟩
    · rw [← some.inj (hp'.symm.trans hk), hnew]
      exact ⟨Nat.lt_succ_self _, rfl⟩
    · rw [hr u k hu]
      exact ⟨Nat.lt_succ_of_lt (h.notify.running u k hu).1, (h.notify.running u k hu).2⟩
  · -- no other thread is inside the new call
    have hne : ∀ v, (s.place v).notifies = some k → p.notifies ≠ some k := by
      intro v hv hk
      rw [← some.inj (hp'.symm.trans hk)] at hv
      exact absurd (h.notify.running v _ hv).1 (lt_irrefl _)
    rcases hmv.cases hu with ⟨rfl, hk⟩ | ⟨_, hu⟩
    · rcases hmv.cases hv with ⟨rfl, _⟩ | ⟨_, hv⟩
      · rfl
      · exact absurd hk (hne v hv)
    · rcases hmv.cases hv with ⟨_, hk⟩ | ⟨_, hv⟩
      · exact absurd hk (hne u hu)
      · exact h.notify.unique u v k hu hv
  · rcases Nat.lt_succ_iff_lt_or_eq.mp hk with hk | rfl
    · rw [hntf k hk]
      exact h.notify.first k hk
    · rw [hnew]
      exact ⟨s.waitCount, le_rfl, h.wait.queue.queue_lt, fun wait hwt _ => hwt⟩
  · exact h.notify.flag_of_others hsv.others (by simp [ht]) hne
  · rcases hmv.cases hu with ⟨_, hk⟩ | ⟨_, hu⟩
    · rw [← some.inj (hp.symm.trans (serves_of_servesOne hk)), hnew]
      exact hone k hk
    · rw [hr u k (notifies_of_serves (serves_of_servesOne hu))]
      exact h.notify.one u k hu
  · rcases hmv.cases hu with ⟨_, hk⟩ | ⟨_, hu⟩
    · rw [← some.inj (hp.symm.trans hk)] at hwt ⊢
      rw [hnew] at hwt
      exact .inr (.inr hwt)
    obtain ⟨hk, hf⟩ := h.notify.running u k (notifies_of_serves hu)
    rw [hntf k hk] at hwt
    refine (h.notify.tracked u k hu wait hwt).later h.notify hl hk ?_
    rw [hntf k hk]
    exact hf
  · rcases Nat.lt_succ_iff_lt_or_eq.mp hk with hk | rfl
    · refine (h.notify.served k hk ?_).later h.notify hl hk
      rw [hntf k hk] at hdn
      exact hdn.imp_right (Exists.imp (hnt k))
    rcases hdn with hdn | ⟨u, hu⟩
    · rw [hnew] at hdn
      exact absurd rfl hdn
    · have hlt := (h.notify.running u s.notifyCount (by rw [hnt _ u hu]; rfl)).1
      exact absurd hlt (lt_irrefl _)
  · obtain ⟨hk, hdur, hlt⟩ := h.notify.woken wait k stamp hw
    rw [hntf k hk]
    exact ⟨Nat.lt_succ_of_lt hk, hdur, Nat.lt_succ_of_lt hlt⟩

end

end

/-! ### All steps -/

theorem Inv.outside [DecidableEq Thread] {s : State Thread Lock} {t : Thread}
    {owner : Lock → Option Thread} (h : s.Inv) (ht : s.place t = .outside)
    (ho : ∀ u ≠ t, ∀ lock, s.owner lock = some u → owner lock = some u) :
    Inv { s with owner := owner, stamp := s.stamp + 1 } := by
  have hmv := h.move (p := .outside) ht rfl rfl nofun nofun nofun nofun nofun ho
  rwa [← ht, update_eq_self] at hmv

section

variable [DecidableEq Thread] [DecidableEq Lock] {s s' : State Thread Lock} {t : Thread}

/-- Every step of a thread keeps the invariant. -/
theorem inv_run (h : s.Inv) (hrun : s.run t = some s') : s'.stamped.Inv := by
  revert hrun
  fun_cases run s t <;> rintro ⟨⟩
  case case1 call hp =>
    have hlk : ∀ lock, some call.lock = some lock → s.owner lock = some t := by
      rintro _ ⟨⟩
      exact h.wait.holds t call.lock (by rw [hp]; rfl)
    split
    case isTrue hps =>
      refine h.move hp rfl rfl nofun (fun call' hc => .inl hc) (fun call' hc => .inr ?_) nofun
        hlk fun _ _ _ hu => hu
      rw [← some.inj hc]
      exact hps.le
    case isFalse =>
      exact h.move hp rfl rfl nofun (fun call' hc => .inl hc) nofun nofun hlk fun _ _ _ hu => hu
  case case2 call hp =>
    refine h.relock hp rfl ⟨h.wait.expired t call (by rw [hp]; rfl), by simp⟩ ?_
    exact owner_of_release (h.wait.holds t call.lock (by rw [hp]; rfl))
  case case3 call hp => exact h.enqueue hp
  case case4 call wait hp =>
    refine h.move hp rfl rfl (fun _ _ hw => hw) nofun nofun nofun nofun ?_
    exact owner_of_release (h.wait.holds t call.lock (by rw [hp]; rfl))
  case case5 call wait hp n stamp ho =>
    exact h.relock hp rfl (h.wait.resultRight_of_not_mem (by rw [hp]; rfl)
      (h.wait.queue.ended wait _ ho).2) fun _ _ _ hu => hu
  case case7 call wait hp hm => exact h.leave hp hm
  case case8 call wait hp hm =>
    exact h.relock hp rfl (h.wait.resultRight_of_not_mem (by rw [hp]; rfl) hm) fun _ _ _ hu => hu
  case case9 call wait res hp hfr =>
    refine h.move hp rfl rfl nofun nofun nofun (fun _ _ _ hr => .inl hr) (fun lock hl => ?_)
      (owner_of_acquire hfr)
    rw [← some.inj hl]
    exact update_self ..
  case case11 hp =>
    exact h.move hp rfl rfl nofun nofun nofun nofun nofun fun _ _ _ hu => hu
  case case12 n hp =>
    split
    case isTrue => exact h.serve hp rfl rfl (fun _ hk => hk) (by simp) (by simp)
    case isFalse hfl =>
      exact h.serve hp rfl rfl nofun (by simp) fun _ => Bool.eq_false_iff.mpr hfl
  case case13 n hp =>
    split
    case isTrue => exact h.serve hp rfl rfl nofun (by simp) (by simp)
    case isFalse hfl =>
      exact h.serve hp rfl rfl nofun (by simp) fun _ => Bool.eq_false_iff.mpr hfl
  case case14 n hp => exact h.storeFalse hp
  case case15 n hp => exact h.unparkAll hp
  case case16 n hp => exact h.endNotify hp

/-- Every event keeps the invariant. -/
theorem inv_act {e : Event Thread Lock} (h : s.Inv) (ha : s.act e = some s') : s'.stamped.Inv := by
  revert ha
  fun_cases act s e <;> intro ha <;> try cases ha
  case case1.refl =>
    exact h.quiet (Nat.le_succ _) (fun u => .inl rfl) (fun _ _ _ hu => hu)
      (fun _ _ hu => .inl hu) (fun _ _ hu => .inl hu) (fun _ _ _ _ hu => .inl hu) h.wait.holds
  case case2.refl t lock hp hfr => exact h.outside hp (owner_of_acquire hfr)
  case case5.refl t lock hp hlk => exact h.outside hp (owner_of_release hlk)
  case case8.refl t lock timeout hp hlk =>
    refine h.move hp rfl rfl nofun (fun call hc => .inr ?_) nofun nofun (fun l hl => ?_)
      fun _ _ _ hu => hu
    · rw [← some.inj hc]
    · rw [← some.inj hl]
      exact hlk
  case case11.refl t hp => exact h.beginNotify hp rfl fun _ _ => rfl
  case case13.refl t hp => exact h.beginNotify hp rfl nofun
  case case15 t => exact inv_run h ha
  case case16.refl t others n hp =>
    unfold State.unparkOne
    split
    case h_1 hq => exact h.unparkNone hp hq
    case h_2 hq => exact h.unparkOne hp hq
  case case18.refl t call wait hp hexp =>
    refine h.move hp rfl rfl (fun _ _ hw => hw) nofun (fun call' hc => .inr ?_) nofun nofun
      fun _ _ _ hu => hu
    rw [← some.inj hc]
    exact hexp

end

/-- **Notifications are not lost.** In every state: of the threads that were waiting when a
`notifyOne` began that has returned, one was woken while this call or an overlapping one was
running, or each has timed out or is about to be woken by an overlapping `notifyAll`. Each thread
that was waiting when a `notifyAll` began that has returned was woken so, has timed out, or is about
to be woken. `waitUntil` returns true only if a call had not returned when the wait began, returns
false only after the timeout, and returns with the lock. -/
theorem condition_correct [DecidableEq Thread] [DecidableEq Lock]
    (events : List (Event Thread Lock)) :
    Runs.AllStates step Correct (initial : State Thread Lock) events := by
  refine (Runs.invariant (fun s e s' h hstep => ?_) inv_initial events).mono fun _ h => h.correct
  obtain ⟨s₁, hact, rfl⟩ := Option.map_eq_some_iff.mp hstep
  exact inv_act h hact

/-- A timeout passes while a `notifyOne` is running, which then wakes no thread. And one of two
calls of `notifyAll` has stored false, so the other returns while a thread still waits. -/
theorem notified_but_not_woken : (∃ s : State Nat Unit, Runs.run step initial
        [.lock 0 (), .waitUntil 0 () 1, .run 0, .run 0, .run 0, .notifyOne 1, .tick, .timeOut 0,
          .run 0, .run 1, .unpark 1 false, .run 1] = some s ∧
      s.notifyCount = 1 ∧ (s.notify 0).waiting = [0] ∧ (s.notify 0).finished = some 11 ∧
      s.outcome 0 = some .timedOut) ∧
    ∃ s : State Nat Unit, Runs.run step initial
        [.lock 0 (), .waitUntil 0 () 1, .run 0, .run 0, .run 0, .notifyAll 1, .run 1, .run 1,
          .notifyAll 2, .run 2, .run 2] = some s ∧
      s.notify 1 = ⟨true, [0], 8, some 10⟩ ∧ s.queue = [0] ∧ s.outcome 0 = none :=
  ⟨⟨_, rfl, rfl, rfl, rfl, rfl⟩, _, rfl, rfl, rfl, rfl⟩

end State

end ConditionBase

end WebKit.Wtf
