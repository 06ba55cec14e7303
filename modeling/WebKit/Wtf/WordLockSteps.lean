import WebKit.Wtf.WordLockInvariant

/-!
# Steps of a `WordLock` that leave its word alone

Each kind keeps the invariant: steps that only move a thread, steps that change a record while the
queue is owned, and the steps of a thread that parks or of one that wakes another.
-/

namespace WebKit.Wtf.WordLock

open LinkedQueue Threads List Function Option

namespace State

open Place

variable {Lock Thread : Type}

section

variable {s s' : State Lock Thread} {l : Lock} {t : Thread} {p q : Place Lock Thread}

/-! ## Steps that keep most of the invariant -/

theorem PlaceInv.step (h : s.PlaceInv) (hm : Moved s.place s'.place t p)
    (hhd : ∀ u ≠ t, s'.holds u = s.holds u)
    (hshd : ∀ u ≠ t, (s'.data u).shouldPark = (s.data u).shouldPark ∨
      (s'.data u).shouldPark = true ∨ (∀ l n, s.place u ≠ .beforeWait l n) ∧
        ∀ l n, s.place u = .sleeping l n → p.notifies = some (l, u))
    (hmtx : ∀ v, (s'.data v).parkingLock = (s.data v).parkingLock ∨
      ∀ u ≠ t, (s.place u).parking u ≠ some v)
    (hnt : ∀ l v, (s.place t).notifies = some (l, v) →
      p.notifies = some (l, v) ∨ ∀ n, s.place v ≠ .sleeping l n)
    (hbef : ∀ l n, p = .beforeWait l n → (s'.data t).shouldPark = true)
    (hslp : ∀ l n, p = .sleeping l n → (s'.data t).shouldPark = true)
    (hpkg : ∀ v, p.parking t = some v → (s'.data v).parkingLock = some t)
    (hr : ∀ l, p.owns = some l → s'.holds t l = false)
    (hps : p.Possible) : s'.PlaceInv := by
  refine ⟨fun u l n hu => ?_, fun u l n hu => ?_, fun u v hu => ?_, fun u l hu => ?_,
    hm.all hps h.possible⟩
  · rcases hm.split (P := fun p => p = .beforeWait l n) hu with ⟨rfl, hp⟩ | ⟨hne, hu⟩
    · exact hbef l n hp
    · rcases hshd u hne with hsm | htr | ⟨hn, _⟩
      · exact hsm.trans (h.beforeWait u l n hu)
      · exact htr
      · exact absurd hu (hn l n)
  · rcases hm.split (P := fun p => p = .sleeping l n) hu with ⟨rfl, hp⟩ | ⟨hne, hu⟩
    · exact .inl (hslp l n hp)
    rcases hshd u hne with hsm | htr | ⟨_, hntf⟩
    · rw [hsm]
      rcases h.sleeping u l n hu with htr | ⟨v, hv⟩
      · exact .inl htr
      by_cases hvt : v = t
      · rcases hnt l u (hvt ▸ hv) with hv' | hn
        · exact .inr ⟨t, by rw [hm.self]; exact hv'⟩
        · exact absurd hu (hn n)
      · exact .inr ⟨v, by rwa [hm.others v hvt]⟩
    · exact .inl htr
    · exact .inr ⟨t, by rw [hm.self]; exact hntf l n hu⟩
  · rcases hm.split (P := fun p => p.parking u = some v) hu with ⟨rfl, hp⟩ | ⟨hne, hu⟩
    · exact hpkg v hp
    · rcases hmtx v with hsm | hn
      · exact hsm.trans (h.mutex u v hu)
      · exact absurd hu (hn u hne)
  · rcases hm.cases hu with ⟨rfl, hp⟩ | ⟨hne, hu⟩
    · exact hr l hp
    · rw [hhd u hne]
      exact h.released u l hu

section

variable (h : s.Inv) (hp : s'.PlaceInv) (henq : s'.enqueued = s.enqueued)
  (hshd : ∀ u, (s'.data u).shouldPark = (s.data u).shouldPark ∨
    ((s.place u).waits = none ∧ (s'.data u).shouldPark = true))

include h hp henq hshd

/-- A step that changes no queue and after which the same threads are woken. A thread that does not
have to park may have stopped to wait, and one that is woken has a cleared record. -/
theorem Inv.threadInv_of_wakes (hwks : ∀ u, (s'.place u).wakes = (s.place u).wakes)
    (hwts : ∀ u, (s'.place u).waits = (s.place u).waits ∨
      ((s.data u).shouldPark = false ∧ (s'.place u).waits = none))
    (hcl : ∀ u l v, (s.place u).wakes = some (l, v) → (s'.place u).clearsNext = false →
      (s.place u).clearsNext = false ∨ (s'.data v).nextInQueue = none)
    (hnx : ∀ u, (s'.data u).nextInQueue = (s.data u).nextInQueue ∨
      (s'.data u).nextInQueue = none ∨ ∃ l, u ∈ s.enqueued l) : s'.ThreadInv := by
  have hwtg : ∀ u l, (s.place u).waits = some l →
      (s'.data u).shouldPark = (s.data u).shouldPark := by
    intro u l hu
    rcases hshd u with heq | ⟨hno, _⟩
    · exact heq
    · simp [hno] at hu
  refine ⟨hp, fun u hu => ?_, fun u l v hu => ?_, fun u v l l' x hu hv => ?_, fun u l hu hpr => ?_⟩
  · have hu' : (s.place u).waits = none ∨ (s.data u).shouldPark = false := by
      rcases hu with hu | hu
      · exact (hwts u).imp (fun heq => heq.symm.trans hu) And.left
      · rcases hshd u with heq | ⟨_, htr⟩
        · exact .inr (heq.symm.trans hu)
        · simp [htr] at hu
    rcases hnx u with heq | hno | ⟨l, hm⟩
    · exact heq.trans (h.thread.next u hu')
    · exact hno
    · obtain ⟨hwts, htr⟩ := (h.lock l).queued u hm
      rcases hu' with hu' | hu'
      · simp [hwts] at hu'
      · simp [htr] at hu'
  · rw [hwks] at hu
    obtain ⟨hv, hn, hpr, hcr⟩ := h.thread.waking u l v hu
    refine ⟨?_, fun l' hm => hn l' (henq ▸ hm), (hwtg v l hv).trans hpr, fun hclr => ?_⟩
    · rcases hwts v with heq | ⟨hfl, _⟩
      · exact heq.trans hv
      · simp [hfl] at hpr
    · rcases hcl u l v hu hclr with hold | hno
      · rcases hnx v with heq | hno | ⟨l', hm⟩
        · exact heq.trans (hcr hold)
        · exact hno
        · exact absurd hm (hn l')
      · exact hno
  · rw [hwks] at hu hv
    exact h.thread.waker u v l l' x hu hv
  · rcases hwts u with heq | ⟨_, hno⟩
    · rw [heq] at hu
      rw [hwtg u l hu] at hpr
      rw [henq]
      exact (h.thread.parked u l hu hpr).imp_right (Exists.imp fun v hv => (hwks v).trans hv)
    · simp [hno] at hu

theorem Inv.threadInv (hkp : ∀ u, Kept (s'.place u) (s.place u))
    (hnx : ∀ u, (s'.data u).nextInQueue = (s.data u).nextInQueue ∨ ∃ l, u ∈ s.enqueued l) :
    s'.ThreadInv :=
  h.threadInv_of_wakes hp henq hshd (fun u => (hkp u).wakes) (fun u => .inl (hkp u).waits)
    (fun u _ _ _ hclr => .inl ((hkp u).clearsNext ▸ hclr)) fun u => (hnx u).imp_right .inr

end

theorem Inv.member (h : s.Inv) {v : Thread} (hv : v ∈ s.enqueued l)
    (ht : (s.place t).waits = none) : v ≠ t := by
  intro heq
  have hwts := ((h.lock l).queued v hv).1
  rw [heq, ht] at hwts
  cases hwts

variable {u x head : Thread} {d : ThreadData Thread} {n : Nat}

theorem Inv.queueOwner_unique (h : s.Inv) (ht : (s.place t).ownsQueue = some l)
    (hu : (s.place u).ownsQueue = some l) : u = t := by
  obtain ⟨o, ho, _⟩ := (h.lock l).queueOwner
  exact some.inj (((ho u).mp hu).symm.trans ((ho t).mp ht))

theorem Inv.queueLocked (h : s.Inv) (ht : (s.place t).ownsQueue = some l) :
    (s.word l).queueLocked = true := by
  obtain ⟨o, ho, hlkd⟩ := (h.lock l).queueOwner
  rw [hlkd, (ho t).mp ht]
  simp

theorem Inv.locked (h : s.Inv) (ht : s.Owns l t) : (s.word l).locked = true := by
  obtain ⟨o, ho, hlkd⟩ := (h.lock l).owner
  rw [hlkd, (ho t).mp ht]
  simp

theorem Inv.owner_unique (h : s.Inv) (ht : s.Owns l t) (hu : s.Owns l u) : u = t := by
  obtain ⟨o, ho, _⟩ := (h.lock l).owner
  exact some.inj (((ho u).mp hu).symm.trans ((ho t).mp ht))

theorem Inv.not_ownsQueue (h : s.Inv) (hfr : (s.word l).queueLocked = false) (u : Thread) :
    (s.place u).ownsQueue ≠ some l :=
  fun hu => absurd ((h.queueLocked hu).symm.trans hfr) (by simp)

/-- A step that stores the word of a lock, where a thread goes on and records are not touched. -/
structure Stores (s s' : State Lock Thread) (l : Lock) (t : Thread) : Prop where
  word : ∀ l' ≠ l, s'.word l' = s.word l'
  enqueued : ∀ l' ≠ l, s'.enqueued l' = s.enqueued l'
  holds : ∀ u l', u ≠ t ∨ l' ≠ l → s'.holds u l' = s.holds u l'
  others : ∀ u ≠ t, s'.place u = s.place u
  data : s'.data = s.data
  before : (s.place t).Concerns l
  after : (s'.place t).Concerns l

section

variable (hsts : Stores s s' l t)

include hsts

theorem Stores.moved (hsf : s'.place t = p) :
    Moved s.place s'.place t p := ⟨hsf, hsts.others⟩

theorem Stores.on : On l s s' := by
  refine ⟨hsts.word, hsts.enqueued, fun u l' hl' => hsts.holds u l' (.inr hl'),
    (hsts.moved rfl).rel (R := fun _ p q => p = q ∨ q.Concerns l ∧ p.Concerns l)
      (fun _ _ => .inl rfl) (.inr ⟨hsts.before, hsts.after⟩), fun u => .inl ?_⟩
  rw [hsts.data]
  exact SameData.refl _

theorem Stores.owns_of_ne (hu : u ≠ t) : s'.Owns l u ↔ s.Owns l u := by
  unfold Owns
  rw [hsts.holds u l (.inl hu), hsts.others u hu]

theorem Stores.next (h : s.Inv) (hwts : (s.place t).waits = none)
    (u : Thread) (hu : (s'.place u).waits = none ∨ (s'.data u).shouldPark = false) :
    (s'.data u).nextInQueue = none := by
  rw [hsts.data] at hu ⊢
  refine h.thread.next u (hu.imp_left fun hno => ?_)
  by_cases heq : u = t
  · exact heq ▸ hwts
  · rwa [← hsts.others u heq]

theorem Stores.not_owns (h : s.Inv) (hsf : s'.place t = p) (hq : (s.place t).owns = some l)
    (hp : p.owns = none) (hhd : s'.holds = s.holds) (u : Thread) : ¬s'.Owns l u := by
  intro hu
  by_cases heq : u = t
  · rw [heq] at hu
    rcases hu with hu | hu
    · simp [hhd, h.thread.released t l hq] at hu
    · simp [hsf, hp] at hu
  · rw [hsts.owns_of_ne heq] at hu
    exact heq (h.owner_unique (.inr hq) hu)

/-- What is known of the threads by their places, where the thread does not sleep. -/
theorem Stores.placeInv (h : s.Inv) (hsf : s'.place t = p)
    (hpkd : ∀ l n, p ≠ .beforeWait l n ∧ p ≠ .sleeping l n) (hpln : (s.place t).Plain)
    (hpkg : p.parking t = none) (hr : ∀ l', p.owns = some l' → s'.holds t l' = false)
    (hps : p.Possible) :
    s'.PlaceInv := by
  refine h.thread.toPlaceInv.step (hsts.moved hsf)
    (fun u hu => funext fun l' => hsts.holds u l' (.inl hu))
    (fun u _ => .inl (by rw [hsts.data])) (fun v => .inl (by rw [hsts.data]))
    (fun l' v hv => ?_) (fun l' n hp => absurd hp (hpkd l' n).1)
    (fun l' n hp => absurd hp (hpkd l' n).2) (fun v hv => ?_) hr hps
  · exact absurd (hpln.2.symm.trans hv) (by simp)
  · simp [hpkg] at hv

theorem Stores.threadInv (h : s.Inv) (hp : s'.PlaceInv) (henq : s'.enqueued = s.enqueued)
    (hsf : s'.place t = p) (hkp : Kept p (s.place t)) :
    s'.ThreadInv :=
  h.threadInv hp henq (fun u => .inl (by rw [hsts.data]))
    ((hsts.moved hsf).rel (R := fun _ => Kept) (fun _ => Kept.refl) hkp)
    fun u => .inl (by rw [hsts.data])

/-- The invariant of the lock, where the queue stays as it is and the thread is not in it. -/
theorem Stores.lockInv (h : s.Inv) (henq : s'.enqueued = s.enqueued)
    (hwts : (s.place t).waits = none) (hhd : (s'.word l).queueHead = (s.word l).queueHead)
    (ho : ∃ o : Option Thread, (∀ u, s'.Owns l u ↔ o = some u) ∧ ((s'.word l).locked = true ↔
      o ≠ none)) (hqo : ∃ o : Option Thread, (∀ u, (s'.place u).ownsQueue = some l ↔ o =
      some u) ∧ ((s'.word l).queueLocked = true ↔ o ≠ none))
    (hlkd : (s'.word l).queueLocked = true → (s'.word l).locked = true)
    (hit : (s'.word l).queueLocked = false → Intact s.data (s.enqueued l))
    (hstg : ∀ u, (s'.place u).ownsQueue = some l → Stage s.data (s.enqueued l) (s'.word l) u
      (s'.place u)) (hawk : s.enqueued l ≠ [] → (s'.word l).locked = false → ∃ u, s'.Awake l u) :
    s'.LockInv l := by
  refine ⟨ho, hqo, hlkd, ?_, ?_, fun v hv => ?_, ?_, ?_, ?_⟩ <;> rw [henq] at *
  · exact hhd.trans (h.lock l).head
  · exact (h.lock l).nodup
  · rw [hsts.others v (h.member hv hwts), hsts.data]
    exact (h.lock l).queued v hv
  · rwa [hsts.data]
  · rwa [hsts.data]
  · exact hawk

theorem Stores.inv (h : s.Inv) (hlk : s'.LockInv l) (hth : s'.ThreadInv) : s'.Inv := by
  refine ⟨fun l' => ?_, hth⟩
  by_cases hl' : l' = l
  · exact hl' ▸ hlk
  · exact (h.lock l').other hsts.on hl'

end

/-- A step that writes to a record, where a thread goes on and no word is stored. -/
structure Writes (s s' : State Lock Thread) (t x : Thread) : Prop where
  word : s'.word = s.word
  enqueued : s'.enqueued = s.enqueued
  holds : s'.holds = s.holds
  others : ∀ u ≠ t, s'.place u = s.place u
  data : ∀ u ≠ x, s'.data u = s.data u
  owns : (s'.place t).owns = (s.place t).owns
  before : (s.place t).ownsQueue = none
  after : (s'.place t).ownsQueue = none

theorem Writes.moved (hwrs : Writes s s' t x) (hsf : s'.place t = p) :
    Moved s.place s'.place t p := ⟨hsf, hwrs.others⟩

theorem Writes.written (hwrs : Writes s s' t x) (hsf : s'.data x = d) :
    Moved s.data s'.data x d := ⟨hsf, hwrs.data⟩

theorem Writes.lockInv (hwrs : Writes s s' t x) (h : s.Inv)
    (hx : SameData (s.data x) (s'.data x) ∨ (∀ l, x ∉ s.enqueued l) ∧ (s.place x).ownsQueue = none)
    (hwts : ∀ l, t ∈ s.enqueued l → (s'.place t).waits = some l)
    (hawk : ∀ l, (∃ u, s.Awake l u) → ∃ u, s'.Awake l u) (l : Lock) : s'.LockInv l := by
  have hm := hwrs.moved rfl
  have hdt : ∀ u, (∃ l, u ∈ s.enqueued l ∨ (s.place u).ownsQueue = some l) →
      SameData (s.data u) (s'.data u) := by
    refine (hwrs.written rfl).rel (R := fun u d d' => (∃ l, u ∈ s.enqueued l ∨
      (s.place u).ownsQueue = some l) → SameData d' d) (fun _ d _ => SameData.refl d) ?_
    rintro ⟨l, hu⟩
    rcases hx with hx | ⟨hn, hno⟩
    · exact hx
    · rcases hu with hu | hu
      · exact absurd hu (hn l)
      · simp [hno] at hu
  refine (h.lock l).next (by rw [hwrs.word]) (by rw [hwrs.enqueued]) (fun u => ?_)
    (hm.iff (P := fun p => p.ownsQueue = some l) (by rw [hwrs.before, hwrs.after]))
    (fun v hv => ⟨?_, ?_⟩) (fun hfr => ?_) (fun u hu => ?_) (hawk l)
  · unfold Owns
    rw [hwrs.holds, hm.iff (P := fun p => p.owns = some l) (by rw [hwrs.owns])]
  · by_cases hvt : v = t
    · rw [hvt] at hv ⊢
      exact hwts l hv
    · rw [hwrs.others v hvt]
      exact ((h.lock l).queued v hv).1
  · rw [(hdt v ⟨l, .inl hv⟩).shouldPark]
    exact ((h.lock l).queued v hv).2
  · exact ((h.lock l).intact hfr).congr fun v hv => hdt v ⟨l, .inl hv⟩
  · obtain ⟨hne, hu⟩ := hm.old hwrs.after hu
    rw [hwrs.others u hne]
    exact ((h.lock l).stage u hu).congr (fun v hv => hdt v ⟨l, .inl hv⟩) (hdt u ⟨l, .inr hu⟩)

/-- The step does not change what a thread waits for or which thread it wakes. -/
theorem Writes.inv (hwrs : Writes s s' t x) (h : s.Inv) (hp : s'.PlaceInv)
    (hkp : Kept (s'.place t) (s.place t)) (hlks : (s.place t).locks = none)
    (hshd : (s'.data x).shouldPark = (s.data x).shouldPark)
    (hnx : (s'.data x).nextInQueue = (s.data x).nextInQueue)
    (hx : (s'.data x).queueTail = (s.data x).queueTail ∨
      (∀ l, x ∉ s.enqueued l) ∧ (s.place x).ownsQueue = none) : s'.Inv := by
  have hm := hwrs.moved rfl
  have hwr := hwrs.written rfl
  have hkp' : ∀ u, Kept (s'.place u) (s.place u) :=
    hm.rel (R := fun _ => Kept) (fun _ => Kept.refl) hkp
  have hshd' := hwr.rel (R := fun _ d d' => d.shouldPark = d'.shouldPark) (fun _ _ => rfl) hshd
  refine ⟨hwrs.lockInv h (hx.imp_left fun htl => ⟨hshd, hnx, htl⟩) (fun l hl => ?_)
    fun l => Exists.imp fun u hu => ?_,
    h.threadInv hp hwrs.enqueued (fun u => .inl (hshd' u)) hkp'
      (hwr.rel (R := fun u d d' => d.nextInQueue = d'.nextInQueue ∨ ∃ l, u ∈ s.enqueued l)
        (fun _ _ => .inl rfl) (.inl hnx))⟩
  · rw [hkp.waits]
    exact ((h.lock l).queued t hl).1
  · unfold Awake at hu ⊢
    rw [(hkp' u).wakes, (hkp' u).waits, hshd']
    exact hu.imp_left (hm.forth (P := fun p => p.locks = some l) (by simp [hlks]))

theorem Inv.mutex_free (h : s.Inv) (hfr : (s.data x).parkingLock = none) (u : Thread) :
    (s.place u).parking u ≠ some x :=
  fun hu => absurd ((h.thread.mutex u x hu).symm.trans hfr) (by simp)

theorem Inv.mutex_unique (h : s.Inv) (ht : (s.place t).parking t = some x) :
    ∀ u ≠ t, (s.place u).parking u ≠ some x :=
  fun u hne hu => hne (some.inj ((h.thread.mutex u x hu).symm.trans (h.thread.mutex t x ht)))

theorem Inv.not_queued (h : s.Inv) (ht : (s.place t).wakes = some (l, x)) :
    (∀ l, x ∉ s.enqueued l) ∧ (s.place x).ownsQueue = none := by
  obtain ⟨hwts, hn, _, _⟩ := h.thread.waking t l x ht
  refine ⟨hn, ?_⟩
  cases hq : (s.place x).ownsQueue with
  | none => rfl
  | some l' => exact absurd ((waits_of_ownsQueue hq).symm.trans hwts) (by simp)

theorem Inv.stage (h : s.Inv) (ht : s.place t = q) (hq : q.ownsQueue = some l) :
    Stage s.data (s.enqueued l) (s.word l) t q := by
  subst ht
  exact (h.lock l).stage t hq

theorem possible_afterBarge (l : Lock) (n : Nat) (w : Word Thread) :
    (afterBarge l n w).locks = some l ∧ (afterBarge l n w).ownsQueue = none ∧
      (afterBarge l n w).Possible := by
  unfold afterBarge
  split
  · exact ⟨rfl, rfl, trivial⟩
  · exact ⟨rfl, rfl, trivial⟩

variable [DecidableEq Thread]

theorem place_goTo_self (s : State Lock Thread) (t : Thread) (p : Place Lock Thread) :
    (s.goTo t p).place t = p := update_self ..

theorem place_goTo_of_ne (hu : u ≠ t) : (s.goTo t p).place u = s.place u := update_of_ne hu _ _

theorem moved_goTo (s : State Lock Thread) (t : Thread) (p : Place Lock Thread) :
    Moved s.place (s.goTo t p).place t p := moved_update ..

section

variable (h : s.Inv) (ht : s.place t = q)

include h ht

section

variable (hlks : ∀ l, q.locks = some l → p.locks = some l)
  (hstg : ∀ l, p.ownsQueue = some l → Stage s.data (s.enqueued l) (s.word l) t p)
  (hps : p.Possible) (hbef : ∀ l n, p = .beforeWait l n → (s.data t).shouldPark = true)
  (hsle : ∀ l n, p ≠ .sleeping l n)

include hlks hstg hps hbef hsle

theorem Inv.goOn (halk : Alike p q) (hnt : ∀ l v, q.notifies = some (l, v) → p.notifies =
      some (l, v) ∨ ∀ n, s.place v ≠ .sleeping l n) : (s.goTo t p).Inv := by
  subst ht
  have hm := moved_goTo s t p
  have hpla : ∀ u, Alike ((s.goTo t p).place u) (s.place u) :=
    hm.rel (R := fun _ => Alike) (fun _ => Alike.refl) halk
  refine ⟨fun l => (h.lock l).next rfl rfl (fun u => ?_) (fun u => by rw [(hpla u).ownsQueue])
    (fun v hv => ?_) (h.lock l).intact (fun u hu => ?_) (Exists.imp fun u hu => ?_),
    h.threadInv (h.thread.toPlaceInv.step hm (fun _ _ => rfl) (fun _ _ => .inl rfl)
      (fun _ => .inl rfl) hnt hbef (fun l n hp => absurd hp (hsle l n))
      (fun v hv => h.thread.mutex t v (halk.parking t ▸ hv))
      (fun l hl => h.thread.released t l (halk.owns ▸ hl)) hps)
      rfl (fun _ => .inl rfl) (fun u => (hpla u).toKept) fun _ => .inl rfl⟩
  · unfold Owns
    rw [(hpla u).owns]
    rfl
  · rw [(hpla v).waits]
    exact (h.lock l).queued v hv
  · rcases hm.cases hu with ⟨rfl, hp⟩ | ⟨hne, hu⟩
    · rw [place_goTo_self]
      exact hstg l hp
    · rw [place_goTo_of_ne hne]
      exact (h.lock l).stage u hu
  · unfold Awake at hu ⊢
    rw [(hpla u).wakes, (hpla u).waits]
    exact hu.imp_left (hm.rel (R := fun _ p q => q.locks = some l → p.locks = some l)
      (fun _ _ => id) (hlks l) u)

/-- A thread goes on, and nothing else changes. -/
theorem Inv.move (hsm : Same p q) : (s.goTo t p).Inv :=
  h.goOn ht hlks hstg hps hbef hsle hsm.toAlike fun _ _ hv => .inl (hsm.notifies.trans hv)

end

/-- The owner of a queue changes a record of it. -/
theorem Inv.edit (hq : q.ownsQueue = some l) (hsm : Same p q)
    (hlks : ∀ l, q.locks = some l → p.locks = some l) (hx : x ∈ s.enqueued l ∨ x = t)
    (hmtx : d.parkingLock = (s.data x).parkingLock)
    (hshd : d.shouldPark = (s.data x).shouldPark ∨ (x = t ∧ d.shouldPark = true))
    (hnx : x = t → d.nextInQueue = (s.data t).nextInQueue)
    (hstg : Stage (s.write x d).data (s.enqueued l) (s.word l) t p) (hps : p.Possible) :
    ((s.write x d).goTo t p).Inv := by
  subst ht
  set s' := (s.write x d).goTo t p
  have hwts := waits_of_ownsQueue hq
  have hm : Moved s.place s'.place t p := moved_goTo ..
  have hwr : Moved s.data s'.data x d := moved_update ..
  have hpla : ∀ u, Same (s'.place u) (s.place u) :=
    hm.rel (R := fun _ => Same) (fun _ => Same.refl) hsm
  have hdt : ∀ u ≠ x, SameData (s.data u) (s'.data u) := by
    intro u hu
    rw [hwr.others u hu]
    exact SameData.refl _
  have hxl : ∀ l', x ∈ s.enqueued l' → l' = l := by
    intro l' hmem
    have hwts' := ((h.lock l').queued x hmem).1
    rcases hx with hx | rfl
    · exact some.inj (hwts'.symm.trans ((h.lock l).queued x hx).1)
    · simp [hwts'] at hwts
  have hshd' := hwr.rel (R := fun u d d' => d.shouldPark = d'.shouldPark ∨
    (u = t ∧ d.shouldPark = true)) (fun _ _ => .inl rfl) hshd
  have hmtx' := hwr.rel (R := fun _ d d' => d.parkingLock = d'.parkingLock) (fun _ _ => rfl) hmtx
  have hkp : ∀ u l, (s.place u).waits = some l →
      (s'.data u).shouldPark = (s.data u).shouldPark := by
    intro u l hu
    rcases hshd' u with heq | ⟨rfl, _⟩
    · exact heq
    · simp [hwts] at hu
  have hpkd := not_parked_of_waits (hsm.waits.trans hwts)
  refine ⟨fun l' => (h.lock l').next rfl rfl (fun u => ?_) (fun u => by rw [(hpla u).ownsQueue])
    (fun v hv => ?_) (fun hfr => ?_) (fun u hu => ?_) (Exists.imp fun u hu => ?_),
    h.threadInv (h.thread.toPlaceInv.step hm (fun _ _ => rfl)
      (fun u hu => (hshd' u).imp_right fun hu' => absurd hu'.1 hu) (fun v => .inl (hmtx' v))
      (fun l' v hv => .inl (hsm.notifies.trans hv)) (fun l' n hp => absurd hp (hpkd l' n).1)
      (fun l' n hp => absurd hp (hpkd l' n).2)
      (fun v hv => (hmtx' v).trans (h.thread.mutex t v (hsm.parking t ▸ hv)))
      (fun l' hl' => h.thread.released t l' (hsm.owns ▸ hl')) hps)
      rfl (fun u => (hshd' u).imp_right (And.imp_left fun heq : u = t => heq ▸ hwts))
      (fun u => (hpla u).toKept)
      (hwr.rel (R := fun u d d' => d.nextInQueue = d'.nextInQueue ∨ ∃ l, u ∈ s.enqueued l)
        (fun _ _ => .inl rfl) ?_)⟩
  · unfold Owns
    rw [(hpla u).owns]
    rfl
  · obtain ⟨hv', hpr⟩ := (h.lock l').queued v hv
    exact ⟨(hpla v).waits.trans hv', (hkp v l' hv').trans hpr⟩
  · -- the queue of the lock is owned, and the record is not in another queue
    refine ((h.lock l').intact hfr).congr fun v hv => hdt v ?_
    rintro rfl
    exact h.not_ownsQueue hfr t (hxl l' hv ▸ hq)
  · rcases hm.cases hu with ⟨rfl, hp⟩ | ⟨hne, hu'⟩
    · obtain rfl : l = l' := some.inj ((hsm.ownsQueue.trans hq).symm.trans hp)
      rw [hm.self]
      exact hstg
    rw [hm.others u hne]
    refine ((h.lock l').stage u hu').congr (fun v hv => hdt v ?_) (hdt u ?_)
    · rintro rfl
      obtain rfl := hxl l' hv
      exact hne (h.queueOwner_unique hq hu')
    · rintro rfl
      rcases hx with hx | rfl
      · exact h.member hx (waits_of_ownsQueue hu') rfl
      · exact hne rfl
  · unfold Awake at hu ⊢
    rw [(hpla u).wakes, (hpla u).waits]
    refine hu.imp (hm.rel (R := fun _ p q => q.locks = some l' → p.locks = some l')
      (fun _ _ => id) (hlks l') u) (Or.imp_right fun hu => ⟨hu.1, ?_⟩)
    exact (hkp u l' hu.1).trans hu.2
  · rcases hx with hx | rfl
    · exact .inr ⟨l, hx⟩
    · exact .inl (hnx rfl)

/-! ## Steps inside `lock` and inside `unlock` -/

/-- A step inside `lock` that only moves the thread. -/
theorem Inv.keepLocking (hps : p.Possible)
    (hstg : ∀ l, p.ownsQueue = some l → Stage s.data (s.enqueued l) (s.word l) t p :=
      by simp [ownsQueue]) (hq : q.locks = some l := by rfl) (hp : p.locks = some l := by rfl)
    (hque : p.ownsQueue = q.ownsQueue := by rfl) : (s.goTo t p).Inv := by
  refine h.move ht (fun l' hl' => ?_) hstg hps (fun l' n hp' => ?_) (fun l' n hp' => ?_)
    (same_of_locks hp hq hque)
  · rw [hp, ← hl', hq]
  · rw [hp'] at hp
    cases hp
  · rw [hp'] at hp
    cases hp

/-- A step inside `unlock` that only moves the thread. -/
theorem Inv.keepUnlocking (hps : p.Possible)
    (hstg : ∀ l, p.ownsQueue = some l → Stage s.data (s.enqueued l) (s.word l) t p :=
      by simp [ownsQueue]) (hq : q.owns = some l := by rfl) (hp : p.owns = some l := by rfl)
    (hque : p.ownsQueue = q.ownsQueue := by rfl) : (s.goTo t p).Inv := by
  have hlks : q.locks = none := by
    cases q <;> first | rfl | cases hq
  refine h.move ht (fun l' hl' => ?_) hstg hps (fun l' n hp' => ?_) (fun l' n hp' => ?_)
    (same_of_owns hp hq hque)
  · simp [hlks] at hl'
  · rw [hp'] at hp
    cases hp
  · rw [hp'] at hp
    cases hp

theorem Inv.afterBarge (hq : q.locks = some l) (hque : q.ownsQueue = none) (n : Nat)
    (w : Word Thread) :
    (s.goTo t (afterBarge l n w)).Inv := by
  obtain ⟨hlks, hno, hps⟩ := possible_afterBarge l n w
  refine h.keepLocking ht hps (fun l' hl' => ?_) hq hlks (hno.trans hque.symm)
  simp [hno] at hl'

end

theorem Inv.setShouldPark (h : s.Inv) {head : Option Thread}
    (ht : s.place t = .setShouldPark l n head) (hp : p.locks = some l)
    (hq : p.ownsQueue = some l) (hps : p.Possible)
    (hstg : ∀ data : Thread → ThreadData Thread, Intact data (s.enqueued l) →
      (data t).shouldPark = true → Stage data (s.enqueued l) (s.word l) t p) :
    ((s.write t { s.data t with shouldPark := true }).goTo t p).Inv := by
  obtain ⟨_, hit⟩ := h.stage ht rfl
  refine h.edit ht rfl (same_of_locks hp rfl hq) (fun l' hl' => ?_) (.inr rfl) rfl
    (.inr ⟨rfl, rfl⟩) (fun _ => rfl) (hstg _ (hit.congr fun v hv => ?_) ?_) hps
  · rw [hp, ← hl']
    rfl
  · have hne : v ≠ t := h.member hv (by rw [ht]; rfl)
    show SameData (s.data v) (update s.data t _ v)
    rw [update_of_ne hne]
    exact SameData.refl _
  · show (update s.data t _ t).shouldPark = true
    rw [update_self]

theorem Inv.writeNext (h : s.Inv) {tail : Thread} (ht : s.place t = .writeNext l n head tail) :
    ((s.write tail { s.data tail with nextInQueue := some t }).goTo t
      (.writeTail l n head)).Inv := by
  obtain ⟨hhd, hls, hit, hpr⟩ := h.stage ht rfl
  have hm : tail ∈ s.enqueued l := mem_of_getLast? hls
  have hwts : (s.place t).waits = none := by rw [ht]; rfl
  have hne : tail ≠ t := h.member hm hwts
  have hsf : (s.write tail { s.data tail with nextInQueue := some t }).data t = s.data t :=
    update_of_ne hne.symm _ _
  refine h.edit ht rfl (same_of_locks rfl rfl rfl) (fun _ hl => hl) (.inl hm) rfl (.inl rfl)
    (fun heq => absurd heq hne) ⟨hhd, ?_, by rw [hsf]; exact hpr⟩ trivial
  refine hit.1.append hls ?_ ?_ (fun v _ hv => ?_) (h.lock l).nodup
  · show (update s.data tail _ tail).nextInQueue = some t
    rw [update_self]
  · rw [hsf]
    exact h.thread.next t (.inl hwts)
  · show (update s.data tail _ v).nextInQueue = _
    rw [update_of_ne hv]

theorem Inv.writeTail (h : s.Inv) (ht : s.place t = .writeTail l n head) :
    ((s.write head { s.data head with queueTail := some t }).goTo t
      (.loadEnqueued l n false)).Inv := by
  obtain ⟨hhd, hlnk, hpr⟩ := h.stage ht rfl
  have hm : head ∈ s.enqueued l := mem_of_mem_head? hhd
  have hne : head ≠ t := h.member hm (by rw [ht]; rfl)
  have hnx : ∀ v, (update s.data head { s.data head with queueTail := some t }
      v).nextInQueue = (s.data v).nextInQueue := by
    intro v
    by_cases hv : v = head
    · rw [hv, update_self]
    · rw [update_of_ne hv]
  refine h.edit ht rfl (same_of_locks rfl rfl rfl) (fun _ hl => hl) (.inl hm) rfl (.inl rfl)
    (fun heq => absurd heq hne) ⟨?_, ⟨hlnk.congr fun v _ => hnx v, fun v hv => ?_⟩, ?_⟩ trivial
  · exact iff_of_false (by simp) (ne_nil_of_mem hm)
  · rw [head?_append, hhd] at hv
    obtain rfl : head = v := by simpa using hv
    show (update s.data head _ head).queueTail = _
    rw [update_self, getLast?_concat]
  · show (update s.data head _ t).shouldPark = true
    rw [update_of_ne hne.symm]
    exact hpr

theorem Inv.createQueue (h : s.Inv) (ht : s.place t = .createQueue l n) :
    ((s.write t { s.data t with queueTail := some t }).goTo t (.loadEnqueued l n true)).Inv := by
  obtain ⟨hemp, hpr⟩ := h.stage ht rfl
  have hsf : (s.write t { s.data t with queueTail := some t }).data t =
    { s.data t with queueTail := some t } := update_self ..
  refine h.edit ht rfl (same_of_locks rfl rfl rfl) (fun _ hl => hl) (.inr rfl) rfl (.inl rfl)
    (fun _ => rfl) ⟨iff_of_true rfl hemp, ?_, by rw [hsf]; exact hpr⟩ trivial
  rw [hemp]
  refine ⟨linked_singleton ?_, fun v hv => ?_⟩
  · rw [hsf]
    exact h.thread.next t (.inl (by rw [ht]; rfl))
  · obtain rfl : t = v := by simpa using hv
    rw [hsf]
    rfl

theorem Inv.writeQueueTail (h : s.Inv) {new : Thread} {tail : Option Thread}
    (ht : s.place t = .writeQueueTail l head new tail) :
    ((s.write new { s.data new with queueTail := tail }).goTo t
      (.loadDequeued l head (some new))).Inv := by
  obtain ⟨⟨rest, hq, htl⟩, hit⟩ := h.stage ht rfl
  have hm : new ∈ s.enqueued l := by simp [hq]
  have hne : new ≠ t := h.member hm (by rw [ht]; rfl)
  refine h.edit ht rfl (same_of_owns rfl rfl rfl) (fun _ hl => hl) (.inl hm) rfl (.inl rfl)
    (fun heq => absurd heq hne) ⟨new :: rest, hq, rfl, ?_, fun v hv => ?_⟩ trivial
  · rw [hq] at hit
    refine hit.1.2.congr fun v _ => ?_
    show (update s.data new _ v).nextInQueue = _
    by_cases hv : v = new
    · rw [hv, update_self]
    · rw [update_of_ne hv]
  · obtain rfl : new = v := by simpa using hv
    show (update s.data new _ new).queueTail = _
    rw [update_self, htl]

theorem Inv.wakeUp (h : s.Inv) (ht : s.place t = .sleeping l n) : (s.goTo t (.park l n)).Inv :=
  h.move ht (by simp [locks]) (by simp [ownsQueue]) trivial (by simp) (by simp)
    ⟨⟨⟨rfl, rfl, rfl⟩, rfl, rfl, fun _ => rfl⟩, rfl⟩

/-! ## Steps of a thread that parks -/

theorem writes_goTo (ht : s.place t = q) (how : p.owns = q.owns) (hq : q.ownsQueue = none)
    (hp : p.ownsQueue = none) :
    Writes s ((s.write x d).goTo t p) t x where
  word := rfl
  enqueued := rfl
  holds := rfl
  others _ hu := update_of_ne hu _ _
  data _ hu := update_of_ne hu _ _
  owns := by rw [place_goTo_self, ht, how]
  before := by rw [ht, hq]
  after := by rw [place_goTo_self, hp]

attribute [local simp] parking notifies

theorem Inv.placeInv_write (h : s.Inv) (ht : s.place t = q)
    (hmtx : d.parkingLock = (s.data x).parkingLock ∨ ∀ u ≠ t, (s.place u).parking u ≠ some x)
    (hpkg : ∀ v, p.parking t = some v → v = x ∧ d.parkingLock = some t)
    (hslp : ∀ l n, p = .sleeping l n → (s.data t).shouldPark = true)
    (hnt : ∀ l v, q.notifies = some (l, v) → p.notifies = some (l, v))
    (hbef : ∀ l n, p ≠ .beforeWait l n) (how : p.owns = q.owns)
    (hshd : d.shouldPark = (s.data x).shouldPark) (hps : p.Possible) :
    ((s.write x d).goTo t p).PlaceInv := by
  subst ht
  have hwr : Moved s.data ((s.write x d).goTo t p).data x d := moved_update ..
  have hshd' := hwr.rel (R := fun _ d d' => d.shouldPark = d'.shouldPark) (fun _ _ => rfl) hshd
  refine h.thread.toPlaceInv.step (moved_goTo (s.write x d) t p) (fun _ _ => rfl)
    (fun u _ => .inl (hshd' u))
    (hwr.rel (R := fun v d d' => d.parkingLock = d'.parkingLock ∨
      ∀ u ≠ t, (s.place u).parking u ≠ some v) (fun _ _ => .inl rfl) hmtx)
    (fun l v hv => .inl (hnt l v hv)) (fun l n hp => absurd hp (hbef l n))
    (fun l n hp => (hshd' t).trans (hslp l n hp)) (fun v hv => ?_)
    (fun l hl => h.thread.released t l (how ▸ hl)) hps
  obtain ⟨rfl, hlk⟩ := hpkg v hv
  rw [hwr.self]
  exact hlk

theorem Inv.write (h : s.Inv) (ht : s.place t = q)
    (hpla : ((s.write x d).goTo t p).PlaceInv) (hx : d.queueTail = (s.data x).queueTail ∨
      (∀ l, x ∉ s.enqueued l) ∧ (s.place x).ownsQueue = none)
    (hsm : p.owns = q.owns ∧ q.ownsQueue = none ∧ p.ownsQueue = none ∧ q.locks = none ∧ Kept p q)
    (hshd : d.shouldPark = (s.data x).shouldPark)
    (hnx : d.nextInQueue = (s.data x).nextInQueue) :
    ((s.write x d).goTo t p).Inv := by
  obtain ⟨how, hq, hp, hlks, hkp⟩ := hsm
  have hdt : ((s.write x d).goTo t p).data x = d := update_self ..
  refine (writes_goTo ht how hq hp).inv h hpla ?_ ?_ ?_ ?_ ?_
  · rw [place_goTo_self, ht]
    exact hkp
  · rw [ht, hlks]
  · rw [hdt, hshd]
  · rw [hdt, hnx]
  · rw [hdt]
    exact hx

theorem Inv.lockOwnParking (h : s.Inv) (ht : s.place t = .park l n)
    (hfr : (s.data t).parkingLock = none) :
    ((s.write t { s.data t with parkingLock := some t }).goTo t (.checkShouldPark l n)).Inv := by
  refine h.write ht ?_ (.inl rfl) ⟨rfl, rfl, rfl, rfl, rfl, rfl, rfl⟩ rfl rfl
  exact h.placeInv_write ht (.inr fun u _ => h.mutex_free hfr u)
    (fun v hv => ⟨(some.inj hv).symm, rfl⟩) (by simp) (by simp) (by simp) rfl rfl trivial

/-- A thread waits on its condition variable. -/
theorem Inv.sleep (h : s.Inv) (ht : s.place t = .beforeWait l n) :
    ((s.write t { s.data t with parkingLock := none }).goTo t (.sleeping l n)).Inv := by
  refine h.write ht ?_ (.inl rfl) ⟨rfl, rfl, rfl, rfl, rfl, rfl, rfl⟩ rfl rfl
  exact h.placeInv_write ht (.inr (h.mutex_unique (by rw [ht]; rfl))) (by simp)
    (fun _ _ _ => h.thread.beforeWait t l n ht) (by simp) (by simp) rfl rfl trivial

theorem Inv.unparked (h : s.Inv) (ht : s.place t = .checkShouldPark l n)
    (hfl : (s.data t).shouldPark = false) :
    ((s.write t { s.data t with parkingLock := none }).goTo t (.lockSlow l n)).Inv := by
  have hp := h.placeInv_write (x := t) (d := { s.data t with parkingLock := none })
    (p := .lockSlow l n) ht (.inr (h.mutex_unique (by rw [ht]; rfl))) (by simp) (by simp)
    (by simp) (by simp) rfl rfl trivial
  generalize hs' : goTo _ t _ = s' at hp ⊢
  have hwrs : Writes s s' t t := hs' ▸ writes_goTo ht rfl rfl rfl
  have hm : Moved s.place s'.place t (.lockSlow l n) := hs' ▸ moved_update ..
  have hwr : Moved s.data s'.data t { s.data t with parkingLock := none } := hs' ▸ moved_update ..
  have hdt : ∀ u, SameData (s.data u) (s'.data u) :=
    hwr.rel (R := fun _ d d' => SameData d' d) (fun _ => SameData.refl) ⟨rfl, rfl, rfl⟩
  have hkp := hm.rel (R := fun _ p q => p.wakes = q.wakes ∧ p.clearsNext = q.clearsNext)
    (fun _ _ => ⟨rfl, rfl⟩) (by rw [ht]; exact ⟨rfl, rfl⟩)
  refine ⟨hwrs.lockInv h (.inl (hdt t)) (fun l' hl' => ?_)
      (fun l' => Exists.imp fun u hu => ?_),
    h.threadInv_of_wakes hp hwrs.enqueued (fun u => .inl (hdt u).shouldPark) (fun u => (hkp u).1)
      (hm.rel (R := fun u p q => p.waits = q.waits ∨ ((s.data u).shouldPark = false ∧
        p.waits = none)) (fun _ _ => .inl rfl) (.inr ⟨hfl, rfl⟩))
      (fun u _ _ _ hclr => .inl ((hkp u).2 ▸ hclr)) fun u => .inl (hdt u).nextInQueue⟩
  · exact absurd (((h.lock l').queued t hl').2.symm.trans hfl) (by simp)
  · by_cases hut : u = t
    · rw [hut] at hu ⊢
      refine .inl ?_
      rw [hm.self]
      unfold Awake at hu
      rw [ht] at hu
      simpa [locks, wakes, waits, hfl] using hu
    · unfold Awake at hu ⊢
      rwa [hwrs.others u hut, (hdt u).shouldPark]

/-! ## Steps of a thread that wakes another one -/

section

variable {x : Thread}

theorem Inv.clearNext (h : s.Inv) (ht : s.place t = .clearNext l x) :
    ((s.write x { s.data x with nextInQueue := none }).goTo t (.clearTail l x)).Inv := by
  have hwkn : (s.place t).wakes = some (l, x) := by rw [ht]; rfl
  have hp := h.placeInv_write (x := x) (d := { s.data x with nextInQueue := none })
    (p := .clearTail l x) ht (.inl rfl) (by simp) (by simp) (by simp) (by simp) rfl rfl trivial
  generalize hs' : goTo _ t _ = s' at hp ⊢
  have hwrs : Writes s s' t x := hs' ▸ writes_goTo ht rfl rfl rfl
  have hm : Moved s.place s'.place t (.clearTail l x) := hs' ▸ moved_update ..
  have hwr : Moved s.data s'.data x { s.data x with nextInQueue := none } := hs' ▸ moved_update ..
  have hshd := hwr.rel (R := fun _ d d' => d.shouldPark = d'.shouldPark) (fun _ _ => rfl) rfl
  have hkp := hm.rel (R := fun _ p q => p.waits = q.waits ∧ p.wakes = q.wakes)
    (fun _ _ => ⟨rfl, rfl⟩) (by rw [ht]; exact ⟨rfl, rfl⟩)
  refine ⟨hwrs.lockInv h (.inr (h.not_queued hwkn)) (fun l' hl' => ?_)
    (fun l' => Exists.imp fun u hu => ?_),
    h.threadInv_of_wakes hp hwrs.enqueued (fun u => .inl (hshd u)) (fun u => (hkp u).2)
      (fun u => .inl (hkp u).1) (fun u l' v hu hclr => ?_)
      (hwr.rel (R := fun u d d' => d.nextInQueue = d'.nextInQueue ∨ d.nextInQueue = none ∨
        ∃ l, u ∈ s.enqueued l) (fun _ _ => .inl rfl) (.inr (.inl rfl)))⟩
  · rw [(hkp t).1]
    exact ((h.lock l').queued t hl').1
  · unfold Awake at hu ⊢
    rw [(hkp u).1, (hkp u).2, hshd]
    exact hu.imp_left (hm.forth (P := fun p => p.locks = some l') (by simp [ht, locks]))
  · rcases hm.split (P := fun p => p.clearsNext = false) hclr with ⟨rfl, _⟩ | ⟨_, hclr⟩
    · rw [hwkn] at hu
      obtain ⟨_, rfl⟩ := Prod.mk.inj (some.inj hu)
      exact .inr (by rw [hwr.self])
    · exact .inl hclr

theorem Inv.clearTail (h : s.Inv) (ht : s.place t = .clearTail l x) :
    ((s.write x { s.data x with queueTail := none }).goTo t (.lockParking l x)).Inv := by
  refine h.write ht ?_ (.inr (h.not_queued (by rw [ht]; rfl)))
    ⟨rfl, rfl, rfl, rfl, rfl, rfl, rfl⟩ rfl rfl
  exact h.placeInv_write ht (.inl rfl) (by simp) (by simp) (by simp) (by simp) rfl rfl trivial

theorem Inv.lockParking (h : s.Inv) (ht : s.place t = .lockParking l x)
    (hfr : (s.data x).parkingLock = none) :
    ((s.write x { s.data x with parkingLock := some t }).goTo t (.clearShouldPark l x)).Inv := by
  refine h.write ht ?_ (.inl rfl) ⟨rfl, rfl, rfl, rfl, rfl, rfl, rfl⟩ rfl rfl
  exact h.placeInv_write ht (.inr fun u _ => h.mutex_free hfr u)
    (fun v hv => ⟨(some.inj hv).symm, rfl⟩) (by simp) (by simp) (by simp) rfl rfl trivial

theorem Inv.unlockParking (h : s.Inv) (ht : s.place t = .unlockParking l x) :
    ((s.write x { s.data x with parkingLock := none }).goTo t (.notify l x)).Inv := by
  refine h.write ht ?_ (.inl rfl) ⟨rfl, rfl, rfl, rfl, rfl, rfl, rfl⟩ rfl rfl
  exact h.placeInv_write ht (.inr (h.mutex_unique (by rw [ht]; rfl))) (by simp)
    (by simp) (fun _ _ hv => hv) (by simp) rfl rfl trivial

/-- A thread is told not to park any more. -/
theorem Inv.clearShouldPark (h : s.Inv) (ht : s.place t = .clearShouldPark l x) :
    ((s.write x { s.data x with shouldPark := false }).goTo t (.unlockParking l x)).Inv := by
  have hwkn : (s.place t).wakes = some (l, x) := by rw [ht]; rfl
  obtain ⟨hxw, hxn, hxp, hxc⟩ := h.thread.waking t l x hwkn
  generalize hs' : goTo _ t _ = s'
  have hwrs : Writes s s' t x := hs' ▸ writes_goTo ht rfl rfl rfl
  have hm : Moved s.place s'.place t (.unlockParking l x) := hs' ▸ moved_update ..
  have hwr : Moved s.data s'.data x { s.data x with shouldPark := false } := hs' ▸ moved_update ..
  have hxt : x ≠ t := by
    rintro rfl
    rw [ht] at hxw
    cases hxw
  have hlk : (s.data x).parkingLock = some t := h.thread.mutex t x (by rw [ht]; rfl)
  have hmtx := hwr.rel (R := fun _ d d' => d.parkingLock = d'.parkingLock) (fun _ _ => rfl) rfl
  have hp : s'.PlaceInv := by
    refine h.thread.toPlaceInv.step hm (fun u _ => by rw [hwrs.holds])
      (fun u hu => ?_) (fun v => .inl (hmtx v)) (fun l' v hv => ?_) nofun nofun
      (fun v hv => ?_) nofun trivial
    · by_cases hux : u = x
      · -- the thread does not have its mutex, so it is not about to sleep
        refine .inr (.inr ⟨fun l' n hbef => ?_, fun l' n hslp => ?_⟩)
        · have ho := h.thread.mutex u u (by rw [hbef]; rfl)
          rw [hux, hlk] at ho
          exact hxt (some.inj ho).symm
        · rw [hux] at hslp ⊢
          rw [hslp] at hxw
          rw [some.inj hxw]
          rfl
      · rw [hwrs.data u hux]
        exact .inl rfl
    · rw [ht] at hv
      cases hv
    · rw [hmtx, ← some.inj hv]
      exact hlk
  have hnx := hwr.rel (R := fun _ d d' => d.nextInQueue = d'.nextInQueue) (fun _ _ => rfl) rfl
  have hwts := hm.rel (R := fun _ p q => p.waits = q.waits) (fun _ _ => rfl) (by rw [ht]; rfl)
  -- a thread that is still woken is another one
  have hwks : ∀ u l' v, (s'.place u).wakes = some (l', v) →
      u ≠ t ∧ v ≠ x ∧ (s.place u).wakes = some (l', v) := by
    intro u l' v hu
    obtain ⟨hut, hu⟩ := hm.old rfl hu
    refine ⟨hut, ?_, hu⟩
    rintro rfl
    exact hut (h.thread.waker u t l' l v hu hwkn)
  refine ⟨hwrs.lockInv h (.inr (h.not_queued hwkn)) (fun l' hl' => ?_)
    (fun l' hawk => ?_), hp, fun u hu => ?_, fun u l' v hu => ?_,
    fun u v l' l'' y hu hv => ?_, fun u l' hu hpr => ?_⟩
  · rw [hwts]
    exact ((h.lock l').queued t hl').1
  · obtain ⟨u, hu⟩ := hawk
    by_cases hut : u = t
    · -- the woken thread takes over
      rw [hut] at hu
      unfold Awake at hu
      rw [ht] at hu
      obtain ⟨y, hu⟩ : ∃ y, some (l, x) = some (l', y) := by
        simpa [locks, wakes, waits] using hu
      rw [← (Prod.mk.inj (some.inj hu)).1]
      exact ⟨x, .inr (.inr ⟨(hwts x).trans hxw, by rw [hwr.self]⟩)⟩
    · refine ⟨u, ?_⟩
      unfold Awake at hu ⊢
      rw [hwrs.others u hut]
      refine hu.imp_right fun hu => hu.imp_right (And.imp_right ?_)
      exact hwr.rel (R := fun _ d d' => d'.shouldPark = false → d.shouldPark = false)
        (fun _ _ => id) (fun _ => rfl) u
  · rw [hwts] at hu
    rw [hnx]
    by_cases hux : u = x
    · rw [hux]
      exact hxc (by rw [ht]; rfl)
    · rw [hwrs.data u hux] at hu
      exact h.thread.next u hu
  · obtain ⟨hut, hvx, hu⟩ := hwks u l' v hu
    rw [hwts, hnx, hwrs.data v hvx, hwrs.enqueued, hwrs.others u hut]
    exact h.thread.waking u l' v hu
  · exact h.thread.waker u v l' l'' y (hwks u l' y hu).2.2 (hwks v l'' y hv).2.2
  · obtain ⟨hux, hpr⟩ := hwr.back (P := fun d => d.shouldPark = true) (by simp) hpr
    rw [hwts] at hu
    rw [hwrs.enqueued]
    refine (h.thread.parked u l' hu hpr).imp_right (Exists.imp fun v => ?_)
    refine hm.forth (P := fun p => p.wakes = some (l', u)) fun hv => ?_
    rw [hwkn] at hv
    exact hux (Prod.mk.inj (some.inj hv)).2.symm

/-- The condition variable of a thread is notified. -/
theorem Inv.notify (h : s.Inv) {x : Thread} (ht : s.place t = .notify l x) :
    ((s.notifyOne x).goTo t .outside).Inv := by
  have hi : (s.notifyOne x).Inv := by
    unfold notifyOne
    split
    next l' n hx => exact h.wakeUp hx
    · exact h
  have hx : ∀ l' n, (s.notifyOne x).place x ≠ .sleeping l' n := by
    intro l' n
    unfold notifyOne
    split
    · rw [place_goTo_self]
      simp
    next hn => exact hn l' n
  have ht' : (s.notifyOne x).place t = .notify l x := by
    unfold notifyOne
    split
    next l' n hx =>
      have hne : t ≠ x := by
        rintro rfl
        simp [ht] at hx
      rw [place_goTo_of_ne hne, ht]
    · exact ht
  refine hi.goOn ht' (by simp [locks]) (by simp [ownsQueue]) trivial (by simp) (by simp)
    ⟨⟨rfl, rfl, rfl⟩, rfl, rfl, fun _ => rfl⟩ fun l' v hv => .inr fun n => ?_
  rw [← (Prod.mk.inj (some.inj hv)).2]
  exact hx l' n

end

end

end State

end WebKit.Wtf.WordLock
