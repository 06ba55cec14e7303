import WebKit.Wtf.WordLock

/-!
# The invariant of `WordLock`

For each lock: at most one thread owns the lock, at most one owns the queue, and the bits of the
word say whether there are such threads. While no thread owns the queue, the records of the
enqueued threads form it; otherwise the place of the owner says how far it has changed them
(`Stage`).

For each thread: a thread that waits and has to park is in the queue of its lock, or another one
is going to wake it. While a lock is free and its queue is not empty, some thread is inside
`lockSlow` and not parked, or is going to wake one that was parked (`Awake`).
-/

namespace WebKit.Wtf.WordLock

open LinkedQueue List

namespace Place

variable {Lock Thread : Type}

/-- The lock that is going to be released. -/
def owns : Place Lock Thread → Option Lock
  | .unlock l | .unlockSlow l | .unlockExchange l | .lockQueueToUnlock l _ | .loadHead l
  | .readNext l _ | .readQueueTail l _ _ | .writeQueueTail l _ _ _ | .loadDequeued l _ _
  | .storeDequeued l _ _ _ => some l
  | _ => none

/-- The lock whose queue is owned. -/
def ownsQueue : Place Lock Thread → Option Lock
  | .setShouldPark l _ _ | .readTail l _ _ | .writeNext l _ _ _ | .writeTail l _ _
  | .createQueue l _ | .loadEnqueued l _ _ | .storeEnqueued l _ _ _ | .loadHead l
  | .readNext l _ | .readQueueTail l _ _ | .writeQueueTail l _ _ _ | .loadDequeued l _ _
  | .storeDequeued l _ _ _ => some l
  | _ => none

/-- The lock that the thread waits for, as a thread that is or was enqueued. -/
def waits : Place Lock Thread → Option Lock
  | .park l _ | .checkShouldPark l _ | .beforeWait l _ | .sleeping l _ => some l
  | _ => none

/-- The lock that the thread is about to acquire, or to wait for. -/
def locks : Place Lock Thread → Option Lock
  | .lock l | .lockSlow l _ | .barge l _ _ | .reload l _ | .lockQueue l _ _
  | .setShouldPark l _ _ | .readTail l _ _ | .writeNext l _ _ _ | .writeTail l _ _
  | .createQueue l _ | .loadEnqueued l _ _ | .storeEnqueued l _ _ _ => some l
  | _ => none

/-- The lock and the thread that was dequeued and has to park until its field is cleared. -/
def wakes : Place Lock Thread → Option (Lock × Thread)
  | .clearNext l h | .clearTail l h | .lockParking l h | .clearShouldPark l h => some (l, h)
  | _ => none

/-- The thread that does not have to park any more, and is going to be notified. -/
def notifies : Place Lock Thread → Option (Lock × Thread)
  | .unlockParking l h | .notify l h => some (l, h)
  | _ => none

/-- The pointer to the next thread is not cleared yet. -/
def clearsNext : Place Lock Thread → Bool
  | .clearNext _ _ => true
  | _ => false

/-- The record whose mutex the thread has. -/
def parking (me : Thread) : Place Lock Thread → Option Thread
  | .checkShouldPark _ _ | .beforeWait _ _ => some me
  | .clearShouldPark _ h | .unlockParking _ h => some h
  | _ => none

/-- The only lock that the place is about. -/
def Concerns (l : Lock) (p : Place Lock Thread) : Prop :=
  (∀ l', p.owns = some l' → l' = l) ∧ (∀ l', p.ownsQueue = some l' → l' = l) ∧
    (∀ l', p.waits = some l' → l' = l) ∧ (∀ l', p.locks = some l' → l' = l) ∧
    ∀ l' h, p.wakes = some (l', h) → l' = l

theorem concerns_outside (l : Lock) : (outside : Place Lock Thread).Concerns l := by
  simp [Concerns, owns, ownsQueue, waits, locks, wakes]

variable {p q : Place Lock Thread} {l : Lock}

theorem concerns_of_owns (h : p.owns = some l) : p.Concerns l := by
  cases p <;> simp_all [Concerns, owns, ownsQueue, waits, locks, wakes]

theorem concerns_of_locks (h : p.locks = some l) : p.Concerns l := by
  cases p <;> simp_all [Concerns, owns, ownsQueue, waits, locks, wakes]

theorem concerns_of_waits (h : p.waits = some l) : p.Concerns l := by
  cases p <;> simp_all [Concerns, owns, ownsQueue, waits, locks, wakes]

theorem concerns_of_wakes {x : Thread} (h : p.wakes = some (l, x)) : p.Concerns l := by
  cases p <;> simp_all [Concerns, owns, ownsQueue, waits, locks, wakes]

/-- Values that are loaded are compared before the thread goes on. -/
def Possible : Place Lock Thread → Prop
  | .barge _ _ current => current.locked = false
  | .lockQueue _ _ current => current.locked = true ∧ current.queueLocked = false
  | .lockQueueToUnlock _ current => current.queueLocked = false ∧ current ≠ .isLocked
  | .crashed => False
  | _ => True

/-- The places say the same about threads that wait or are woken. -/
structure Kept (p q : Place Lock Thread) : Prop where
  waits : p.waits = q.waits
  wakes : p.wakes = q.wakes
  clearsNext : p.clearsNext = q.clearsNext

theorem Kept.refl (p : Place Lock Thread) : Kept p p := ⟨rfl, rfl, rfl⟩

/-- The places say the same about what is owned, too. -/
structure Alike (p q : Place Lock Thread) : Prop extends Kept p q where
  owns : p.owns = q.owns
  ownsQueue : p.ownsQueue = q.ownsQueue
  parking : ∀ me, p.parking me = q.parking me

theorem Alike.refl (p : Place Lock Thread) : Alike p p := ⟨Kept.refl p, rfl, rfl, fun _ => rfl⟩

/-- The places say the same about the thread that is notified, too. -/
structure Same (p q : Place Lock Thread) : Prop extends Alike p q where
  notifies : p.notifies = q.notifies

theorem Same.refl (p : Place Lock Thread) : Same p p := ⟨Alike.refl p, rfl⟩

/-- A thread that does not wait or wake another one. -/
def Plain (p : Place Lock Thread) : Prop :=
  Kept .outside p ∧ p.notifies = none

theorem plain_of_locks (h : p.locks = some l) : p.Plain := by
  cases p <;> first | exact ⟨⟨rfl, rfl, rfl⟩, rfl⟩ | cases h

theorem plain_of_owns (h : p.owns = some l) : p.Plain := by
  cases p <;> first | exact ⟨⟨rfl, rfl, rfl⟩, rfl⟩ | cases h

theorem Plain.kept (hp : p.Plain) (hq : q.Plain) : Kept p q :=
  ⟨hp.1.waits.symm.trans hq.1.waits, hp.1.wakes.symm.trans hq.1.wakes,
    hp.1.clearsNext.symm.trans hq.1.clearsNext⟩

theorem Plain.waits (hp : p.Plain) : p.waits = none := hp.1.waits.symm

theorem same_of_locks (hp : p.locks = some l) (hq : q.locks = some l)
    (hque : p.ownsQueue = q.ownsQueue) : Same p q := by
  have how : ∀ r : Place Lock Thread, r.locks = some l → r.owns = none ∧
      ∀ me, r.parking me = none := by
    intro r hr
    cases r <;> first | exact ⟨rfl, fun _ => rfl⟩ | cases hr
  exact ⟨⟨(plain_of_locks hp).kept (plain_of_locks hq), (how p hp).1.trans (how q hq).1.symm,
    hque, fun me => ((how p hp).2 me).trans ((how q hq).2 me).symm⟩,
    (plain_of_locks hp).2.trans (plain_of_locks hq).2.symm⟩

theorem same_of_owns (hp : p.owns = some l) (hq : q.owns = some l)
    (hque : p.ownsQueue = q.ownsQueue) : Same p q := by
  have hpkg : ∀ r : Place Lock Thread, r.owns = some l → ∀ me, r.parking me = none := by
    intro r hr
    cases r <;> first | exact fun _ => rfl | cases hr
  exact ⟨⟨(plain_of_owns hp).kept (plain_of_owns hq), hp.trans hq.symm, hque,
    fun me => (hpkg p hp me).trans (hpkg q hq me).symm⟩,
    (plain_of_owns hp).2.trans (plain_of_owns hq).2.symm⟩

theorem waits_of_ownsQueue (h : p.ownsQueue = some l) : p.waits = none := by
  cases p <;> first | rfl | cases h

theorem not_parked_of_waits (h : p.waits = none) (l : Lock) (n : Nat) :
    p ≠ .beforeWait l n ∧ p ≠ .sleeping l n := by
  constructor
  · rintro rfl
    cases h
  · rintro rfl
    cases h

/-- Inside `lock` or `unlock` of this lock, and not asleep. -/
def Running (l : Lock) (p : Place Lock Thread) : Prop :=
  p.owns = some l ∨ p.locks = some l ∨ (p.waits = some l ∧ ∀ n, p ≠ .sleeping l n) ∨
    (∃ h, p.wakes = some (l, h)) ∨ ∃ h, p.notifies = some (l, h)

end Place

/-- The records of the threads form the queue. -/
def Intact {Thread : Type} (data : Thread → ThreadData Thread) (q : List Thread) : Prop :=
  Linked (fun v => (data v).nextInQueue) q ∧
    ∀ h, q.head? = some h → (data h).queueTail = q.getLast?

/-- The fields of the record that belong to the queue. -/
structure SameData {Thread : Type} (d d' : ThreadData Thread) : Prop where
  shouldPark : d'.shouldPark = d.shouldPark
  nextInQueue : d'.nextInQueue = d.nextInQueue
  queueTail : d'.queueTail = d.queueTail

theorem SameData.refl {Thread : Type} (d : ThreadData Thread) : SameData d d := ⟨rfl, rfl, rfl⟩

theorem Intact.congr {Thread : Type} {data data' : Thread → ThreadData Thread} {q : List Thread}
    (h : Intact data q) (heq : ∀ v ∈ q, SameData (data v) (data' v)) : Intact data' q := by
  refine ⟨h.1.congr fun v hv => (heq v hv).nextInQueue, fun v hv => ?_⟩
  rw [(heq v (mem_of_mem_head? hv)).queueTail]
  exact h.2 v hv

namespace State

open Place

variable {Lock Thread : Type}

/-- Between the acquisition of the lock and its release. -/
def Owns (s : State Lock Thread) (l : Lock) (t : Thread) : Prop :=
  s.holds t l = true ∨ (s.place t).owns = some l

structure Correct (s : State Lock Thread) : Prop where
  exclusive : ∀ l t u, s.Owns l t → s.Owns l u → t = u
  queue : ∀ l, (s.word l).queueLocked = false → (s.enqueued l).Nodup ∧
    (s.word l).queueHead = (s.enqueued l).head? ∧ Intact s.data (s.enqueued l)
  awake : ∀ l t n, s.place t = .sleeping l n → (s.word l).locked = false →
    ∃ u, (s.place u).Running l
  no_crash : ∀ t, s.place t ≠ .crashed

/-- How far the owner of the queue has changed the records. -/
def Stage (data : Thread → ThreadData Thread) (q : List Thread) (w : Word Thread) (t : Thread) :
    Place Lock Thread → Prop
  | .setShouldPark _ _ head => head = q.head? ∧ Intact data q
  | .readTail _ _ h => q.head? = some h ∧ Intact data q ∧ (data t).shouldPark = true
  | .writeNext _ _ h tail => q.head? = some h ∧ q.getLast? = some tail ∧ Intact data q ∧
      (data t).shouldPark = true
  | .writeTail _ _ h => q.head? = some h ∧ Linked (fun v => (data v).nextInQueue) (q ++ [t]) ∧
      (data t).shouldPark = true
  | .createQueue _ _ => q = [] ∧ (data t).shouldPark = true
  | .loadEnqueued _ _ creates => (creates = true ↔ q = []) ∧ Intact data (q ++ [t]) ∧
      (data t).shouldPark = true
  | .storeEnqueued _ _ creates current => (creates = true ↔ q = []) ∧ Intact data (q ++ [t]) ∧
      (data t).shouldPark = true ∧ current = w
  | .loadHead _ => q ≠ [] ∧ Intact data q
  | .readNext _ h => q.head? = some h ∧ Intact data q
  | .readQueueTail _ h new => (∃ rest, q = h :: new :: rest) ∧ Intact data q
  | .writeQueueTail _ h new tail =>
    (∃ rest, q = h :: new :: rest ∧ tail = (new :: rest).getLast?) ∧ Intact data q
  | .loadDequeued _ h new | .storeDequeued _ h new _ =>
    ∃ rest, q = h :: rest ∧ new = rest.head? ∧ Intact data rest
  | _ => True

/-- A thread that is going to acquire the lock or to wake another one. -/
def Awake (s : State Lock Thread) (l : Lock) (u : Thread) : Prop :=
  (s.place u).locks = some l ∨ (∃ h, (s.place u).wakes = some (l, h)) ∨
    ((s.place u).waits = some l ∧ (s.data u).shouldPark = false)

structure LockInv (s : State Lock Thread) (l : Lock) : Prop where
  owner : ∃ o : Option Thread, (∀ t, s.Owns l t ↔ o = some t) ∧
    ((s.word l).locked = true ↔ o ≠ none)
  queueOwner : ∃ o : Option Thread, (∀ t, (s.place t).ownsQueue = some l ↔ o = some t) ∧
    ((s.word l).queueLocked = true ↔ o ≠ none)
  locked : (s.word l).queueLocked = true → (s.word l).locked = true
  head : (s.word l).queueHead = (s.enqueued l).head?
  nodup : (s.enqueued l).Nodup
  queued : ∀ t ∈ s.enqueued l, (s.place t).waits = some l ∧ (s.data t).shouldPark = true
  intact : (s.word l).queueLocked = false → Intact s.data (s.enqueued l)
  stage : ∀ t, (s.place t).ownsQueue = some l →
    Stage s.data (s.enqueued l) (s.word l) t (s.place t)
  awake : s.enqueued l ≠ [] → (s.word l).locked = false → ∃ u, s.Awake l u

/-- What is known of a thread by its place. -/
structure PlaceInv (s : State Lock Thread) : Prop where
  beforeWait : ∀ t l n, s.place t = .beforeWait l n → (s.data t).shouldPark = true
  sleeping : ∀ t l n, s.place t = .sleeping l n →
    (s.data t).shouldPark = true ∨ ∃ u, (s.place u).notifies = some (l, t)
  mutex : ∀ t v, (s.place t).parking t = some v → (s.data v).parkingLock = some t
  /-- A thread inside `unlock` is not between `lock` and `unlock`. -/
  released : ∀ t l, (s.place t).owns = some l → s.holds t l = false
  possible : ∀ t, (s.place t).Possible

structure ThreadInv (s : State Lock Thread) : Prop extends PlaceInv s where
  /-- Only the record of a thread that has to park points to another one. -/
  next : ∀ t, (s.place t).waits = none ∨ (s.data t).shouldPark = false →
    (s.data t).nextInQueue = none
  waking : ∀ u l h, (s.place u).wakes = some (l, h) → (s.place h).waits = some l ∧
    (∀ l', h ∉ s.enqueued l') ∧ (s.data h).shouldPark = true ∧
      ((s.place u).clearsNext = false → (s.data h).nextInQueue = none)
  waker : ∀ u v l l' h, (s.place u).wakes = some (l, h) → (s.place v).wakes = some (l', h) → u = v
  parked : ∀ t l, (s.place t).waits = some l → (s.data t).shouldPark = true →
    t ∈ s.enqueued l ∨ ∃ u, (s.place u).wakes = some (l, t)

structure Inv (s : State Lock Thread) : Prop where
  lock : ∀ l, s.LockInv l
  thread : s.ThreadInv

/-! ## What the invariant says -/

theorem Inv.correct {s : State Lock Thread} (h : s.Inv) : s.Correct := by
  refine ⟨fun l t u ht hu => ?_, fun l hfr => ?_, fun l t n ht hfr => ?_, fun t ht => ?_⟩
  · obtain ⟨o, how, _⟩ := (h.lock l).owner
    exact Option.some.inj (((how t).mp ht).symm.trans ((how u).mp hu))
  · exact ⟨(h.lock l).nodup, (h.lock l).head, (h.lock l).intact hfr⟩
  · rcases h.thread.sleeping t l n ht with hpr | ⟨u, hu⟩
    · rcases h.thread.parked t l (by rw [ht]; rfl) hpr with hm | ⟨u, hu⟩
      · obtain ⟨u, hu⟩ := (h.lock l).awake (ne_nil_of_mem hm) hfr
        rcases hu with hu | hu | ⟨hu, hfl⟩
        · exact ⟨u, .inr (.inl hu)⟩
        · exact ⟨u, .inr (.inr (.inr (.inl hu)))⟩
        · -- a thread that does not have to park is running, or is going to be notified
          by_cases hslp : ∃ n', s.place u = .sleeping l n'
          · obtain ⟨n', hn'⟩ := hslp
            rcases h.thread.sleeping u l n' hn' with htr | ⟨v, hv⟩
            · simp [hfl] at htr
            · exact ⟨v, .inr (.inr (.inr (.inr ⟨u, hv⟩)))⟩
          · exact ⟨u, .inr (.inr (.inl ⟨hu, fun n' hn' => hslp ⟨n', hn'⟩⟩))⟩
      · exact ⟨u, .inr (.inr (.inr (.inl ⟨t, hu⟩)))⟩
    · exact ⟨u, .inr (.inr (.inr (.inr ⟨t, hu⟩)))⟩
  · have hps := h.thread.possible t
    rw [ht] at hps
    exact hps

theorem inv_initial : (initial : State Lock Thread).Inv where
  lock l :=
    { owner := ⟨none, fun t => iff_of_false (fun h => h.elim (by simp [initial])
        (by simp [initial, owns])) (by simp), iff_of_false (by simp [initial, Word.zero])
        fun h => h rfl⟩
      queueOwner := ⟨none, fun t => iff_of_false (by simp [initial, ownsQueue]) (by simp),
        iff_of_false (by simp [initial, Word.zero]) fun h => h rfl⟩
      locked := nofun
      head := rfl
      nodup := nodup_nil
      queued := forall_mem_nil _
      intact := fun _ => ⟨trivial, nofun⟩
      stage := nofun
      awake := fun h => absurd rfl h }
  thread :=
    { next := fun t _ => rfl
      waking := nofun
      waker := nofun
      parked := nofun
      beforeWait := nofun
      sleeping := nofun
      mutex := nofun
      released := fun t l _ => rfl
      possible := fun t => trivial }

/-! ## Records that do not change -/

section

variable {data data' : Thread → ThreadData Thread} {q : List Thread} {t : Thread}

theorem Stage.congr {w : Word Thread} {p : Place Lock Thread} (h : Stage data q w t p)
    (heq : ∀ v ∈ q, SameData (data v) (data' v)) (ht : SameData (data t) (data' t)) :
    Stage data' q w t p := by
  have happ : ∀ v ∈ q ++ [t], SameData (data v) (data' v) :=
    forall_mem_append.mpr ⟨heq, forall_mem_singleton.mpr ht⟩
  cases p with
  | setShouldPark _ _ head | loadHead _ | readNext _ h' | readQueueTail _ h' new
  | writeQueueTail _ h' new tail => exact ⟨h.1, Intact.congr h.2 heq⟩
  | readTail _ _ h' => exact ⟨h.1, Intact.congr h.2.1 heq, ht.shouldPark.trans h.2.2⟩
  | writeNext _ _ h' tail =>
    exact ⟨h.1, h.2.1, Intact.congr h.2.2.1 heq, ht.shouldPark.trans h.2.2.2⟩
  | writeTail _ _ h' =>
    exact ⟨h.1, h.2.1.congr fun v hv => (happ v hv).nextInQueue, ht.shouldPark.trans h.2.2⟩
  | createQueue _ _ => exact ⟨h.1, ht.shouldPark.trans h.2⟩
  | loadEnqueued _ _ creates =>
    exact ⟨h.1, Intact.congr h.2.1 happ, ht.shouldPark.trans h.2.2⟩
  | storeEnqueued _ _ creates cur =>
    exact ⟨h.1, Intact.congr h.2.1 happ, ht.shouldPark.trans h.2.2.1, h.2.2.2⟩
  | loadDequeued _ h' new | storeDequeued _ h' new _ =>
    obtain ⟨rest, rfl, hnew, hit⟩ := h
    exact ⟨rest, rfl, hnew, hit.congr fun v hv => heq v (mem_cons_of_mem h' hv)⟩
  | _ => trivial

end

/-! ## Other locks -/

/-- A step that is about one lock. -/
structure On (l : Lock) (s s' : State Lock Thread) : Prop where
  word : ∀ l' ≠ l, s'.word l' = s.word l'
  enqueued : ∀ l' ≠ l, s'.enqueued l' = s.enqueued l'
  holds : ∀ t, ∀ l' ≠ l, s'.holds t l' = s.holds t l'
  place : ∀ u, s'.place u = s.place u ∨ ((s.place u).Concerns l ∧ (s'.place u).Concerns l)
  data : ∀ u, SameData (s.data u) (s'.data u) ∨ (s.place u).Concerns l

section

variable {s s' : State Lock Thread} {l l' : Lock}

theorem On.place_eq (hon : On l s s') {u : Thread} (hu : ¬ (s.place u).Concerns l) :
    s'.place u = s.place u ∧ SameData (s.data u) (s'.data u) := by
  refine ⟨?_, ?_⟩
  · rcases hon.place u with heq | ⟨hcn, _⟩
    · exact heq
    · exact absurd hcn hu
  · rcases hon.data u with heq | hcn
    · exact heq
    · exact absurd hcn hu

theorem On.place_iff (hon : On l s s') {P : Place Lock Thread → Prop}
    (hP : ∀ p, P p → ¬ p.Concerns l) (u : Thread) : P (s'.place u) ↔ P (s.place u) := by
  rcases hon.place u with heq | ⟨hq, hp⟩
  · rw [heq]
  · exact iff_of_false (fun h => hP _ h hp) fun h => hP _ h hq

theorem LockInv.next (h : s.LockInv l) (hwr : s'.word l = s.word l)
    (henq : s'.enqueued l = s.enqueued l) (how : ∀ u, s'.Owns l u ↔ s.Owns l u)
    (hownsQueue : ∀ u, (s'.place u).ownsQueue = some l ↔ (s.place u).ownsQueue = some l)
    (hqud : ∀ v ∈ s.enqueued l, (s'.place v).waits = some l ∧ (s'.data v).shouldPark = true)
    (hit : (s.word l).queueLocked = false → Intact s'.data (s.enqueued l))
    (hstg : ∀ u, (s'.place u).ownsQueue = some l →
      Stage s'.data (s.enqueued l) (s.word l) u (s'.place u))
    (hawk : (∃ u, s.Awake l u) → ∃ u, s'.Awake l u) : s'.LockInv l := by
  obtain ⟨o, ho, hlkd⟩ := h.owner
  obtain ⟨o', ho', hqueueLocked⟩ := h.queueOwner
  refine ⟨⟨o, fun u => (how u).trans (ho u), ?_⟩, ⟨o', fun u => (hownsQueue u).trans (ho' u), ?_⟩,
    ?_, ?_, ?_, fun v hv => ?_, ?_, fun u hu => ?_, fun hne hfr => ?_⟩
  · rwa [hwr]
  · rwa [hwr]
  · rw [hwr]
    exact h.locked
  · rw [hwr, henq]
    exact h.head
  · rw [henq]
    exact h.nodup
  · rw [henq] at hv
    exact hqud v hv
  · rw [hwr, henq]
    exact hit
  · rw [hwr, henq]
    exact hstg u hu
  · rw [henq] at hne
    rw [hwr] at hfr
    exact hawk (h.awake hne hfr)

theorem LockInv.other (h : s.LockInv l') (hon : On l s s') (hne : l' ≠ l) : s'.LockInv l' := by
  have hq : ∀ t, (s'.place t).ownsQueue = some l' ↔ (s.place t).ownsQueue = some l' :=
    hon.place_iff (P := fun p => p.ownsQueue = some l') fun p hp hcn => hne (hcn.2.1 l' hp)
  have hmbr : ∀ t ∈ s.enqueued l', s'.place t = s.place t ∧ SameData (s.data t) (s'.data t) :=
    fun t ht => hon.place_eq fun hcn => hne (hcn.2.2.1 l' (h.queued t ht).1)
  refine h.next (hon.word l' hne) (hon.enqueued l' hne) (fun t => ?_) hq (fun t ht => ?_)
    (fun hfr => (h.intact hfr).congr fun v hv => (hmbr v hv).2) (fun t ht => ?_)
    (Exists.imp fun u hu => ?_)
  · unfold Owns
    rw [hon.holds t l' hne]
    exact or_congr Iff.rfl (hon.place_iff (P := fun p => p.owns = some l')
      (fun p hp hcn => hne (hcn.1 l' hp)) t)
  · obtain ⟨hpla, hdt⟩ := hmbr t ht
    rw [hpla, hdt.shouldPark]
    exact h.queued t ht
  · have ht' := (hq t).mp ht
    obtain ⟨hpla, hdt⟩ := hon.place_eq fun hcn => hne (hcn.2.1 l' ht')
    rw [hpla]
    exact (h.stage t ht').congr (fun v hv => (hmbr v hv).2) hdt
  · have hcn : ¬ (s.place u).Concerns l := by
      intro hcn
      rcases hu with hu | ⟨v, hu⟩ | ⟨hu, _⟩
      · exact hne (hcn.2.2.2.1 l' hu)
      · exact hne (hcn.2.2.2.2 l' v hu)
      · exact hne (hcn.2.2.1 l' hu)
    obtain ⟨hpla, hdt⟩ := hon.place_eq hcn
    unfold Awake
    rwa [hpla, hdt.shouldPark]

end

end State

end WebKit.Wtf.WordLock
