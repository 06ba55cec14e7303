import WebKit.Wtf.WordLockSteps

/-!
# `WordLock` is a mutex

The steps that are left store the word: a thread acquires the lock, takes its queue, releases the
lock, or has changed the queue.
-/

namespace WebKit.Wtf.WordLock.State

open LinkedQueue Threads List Function Place

variable {Lock Thread : Type} {s s' : State Lock Thread} {l : Lock} {t : Thread}
  {p q : Place Lock Thread}

theorem stage_of_eq {data : Thread → ThreadData Thread} {que : Lock → List Thread}
    {word : Lock → Word Thread} (hp : p.ownsQueue = some l)
    (h : Stage data (que l) (word l) t p) (l' : Lock) (hl' : p.ownsQueue = some l') :
    Stage data (que l') (word l') t p := by
  obtain rfl : l = l' := Option.some.inj (hp.symm.trans hl')
  exact h

theorem Inv.next_of_readNext (h : s.Inv) {x : Thread} (ht : s.place t = .readNext l x) :
    ∃ rest, s.enqueued l = x :: rest ∧ (s.data x).nextInQueue = rest.head? ∧
      Intact s.data (s.enqueued l) := by
  obtain ⟨hhd, hit⟩ := h.stage ht rfl
  obtain ⟨rest, hq⟩ := head?_eq_some_iff.mp hhd
  refine ⟨rest, hq, ?_, hit⟩
  have hlnk := hit.1
  rw [hq] at hlnk
  exact hlnk.1

variable [DecidableEq Lock] [DecidableEq Thread]

/-! ## Steps that store the word -/

theorem holds_setHolds_self (s : State Lock Thread) (t : Thread) (l : Lock) (b : Bool) :
    (s.setHolds t l b).holds t l = b := by
  show update s.holds t (update (s.holds t) l b) t l = b
  rw [update_self, update_self]

theorem holds_setHolds_of_ne {u : Thread} {l' : Lock} (hne : u ≠ t ∨ l' ≠ l) (b : Bool) :
    (s.setHolds t l b).holds u l' = s.holds u l' := by
  show update s.holds t (update (s.holds t) l b) u l' = s.holds u l'
  by_cases hu : u = t
  · rw [hu, update_self, update_of_ne (hne.resolve_left fun h => h hu)]
  · rw [update_of_ne hu]

/-- A thread acquires a free lock. -/
theorem Inv.acquired (h : s.Inv) (ht : s.place t = q) (hq : q.locks = some l)
    (hfr : (s.word l).locked = false) :
    (s.acquired t l (s.word l)).Inv := by
  subst ht
  set s' := s.acquired t l (s.word l)
  have hsf : s'.place t = .outside := update_self ..
  have hwr : s'.word l = { s.word l with locked := true } := update_self ..
  have hhd : s'.holds t l = true := holds_setHolds_self ..
  have hsts : Stores s s' l t :=
    ⟨fun _ hl' => update_of_ne hl' _ _, fun _ _ => rfl,
      fun _ _ hne => holds_setHolds_of_ne hne _, fun _ hu => update_of_ne hu _ _, rfl,
      concerns_of_locks hq, by rw [hsf]; exact concerns_outside l⟩
  -- nobody owns the lock, so nobody owns the queue
  have hqf : (s.word l).queueLocked = false := by
    by_contra hque
    simp [(h.lock l).locked (by simpa using hque)] at hfr
  have hn : ∀ u, (s'.place u).ownsQueue ≠ some l :=
    (hsts.moved hsf).all (P := fun p => p.ownsQueue ≠ some l) (by simp [ownsQueue])
      (h.not_ownsQueue hqf)
  have hpln := plain_of_locks hq
  refine hsts.inv h (hsts.lockInv h rfl hpln.waits (by rw [hwr])
    ⟨some t, fun u => ?_, by simp [hwr]⟩ ⟨none, fun u => iff_of_false (hn u) (by simp), ?_⟩
    (fun _ => by rw [hwr]) (fun _ => (h.lock l).intact hqf)
    (fun u hu => absurd hu (hn u)) fun _ hfr' => ?_)
    (hsts.threadInv h (hsts.placeInv h hsf (by simp) hpln rfl (by simp [owns]) trivial)
      rfl hsf hpln.1)
  · by_cases hu : u = t
    · rw [hu]
      exact iff_of_true (.inl hhd) rfl
    · rw [hsts.owns_of_ne hu]
      refine iff_of_false (fun how => ?_) fun heq => hu (Option.some.inj heq).symm
      simp [h.locked how] at hfr
  · simp [hwr, hqf]
  · simp [hwr] at hfr'

variable {w : Word Thread}

theorem stores_store (hbef : (s.place t).Concerns l) (haft : p.Concerns l) :
    Stores s ((s.store l w).goTo t p) l t :=
  ⟨fun _ hl' => update_of_ne hl' _ _, fun _ _ => rfl, fun _ _ _ => rfl,
    fun _ hu => update_of_ne hu _ _, rfl, hbef, by simpa [goTo] using haft⟩

theorem stores_setEnqueued {que : List Thread}
    (hbef : (s.place t).Concerns l) (haft : p.Concerns l) :
    Stores s (((s.store l w).setEnqueued l que).goTo t p) l t :=
  { stores_store (w := w) hbef haft with enqueued := fun _ hl' => update_of_ne hl' _ _ }

/-- A thread takes the queue of a lock that is held. -/
theorem Inv.takeQueue (h : s.Inv) (ht : s.place t = q) (hlkd : (s.word l).locked = true)
    (hfr : (s.word l).queueLocked = false) (hq : q.Plain) (hp : p.Plain)
    (how : p.owns = q.owns) (hque : p.ownsQueue = some l) (hbef : q.Concerns l)
    (haft : p.Concerns l) (hpkg : p.parking t = none) (hps : p.Possible)
    (hstg : Intact s.data (s.enqueued l) → Stage s.data (s.enqueued l)
      { s.word l with queueLocked := true } t p) :
    ((s.store l { s.word l with queueLocked := true }).goTo t p).Inv := by
  subst ht
  set s' := (s.store l { s.word l with queueLocked := true }).goTo t p
  have hsf : s'.place t = p := update_self ..
  have hwr : s'.word l = { s.word l with queueLocked := true } := update_self ..
  have hsts : Stores s s' l t := stores_store hbef haft
  have hm := hsts.moved hsf
  obtain ⟨o, ho, hlki⟩ := (h.lock l).owner
  have hqo : ∀ u, (s'.place u).ownsQueue = some l ↔ some t = some u := by
    intro u
    by_cases hu : u = t
    · rw [hu, hsf]
      exact iff_of_true hque rfl
    · rw [hsts.others u hu]
      exact iff_of_false (h.not_ownsQueue hfr u) fun heq => hu (Option.some.inj heq).symm
  refine hsts.inv h (hsts.lockInv h rfl hq.waits (by rw [hwr])
    ⟨o, fun u => (Iff.trans ?_ (ho u)), by rw [hwr]; exact hlki⟩
    ⟨some t, hqo, by simp [hwr]⟩ (fun _ => by rw [hwr]; exact hlkd)
    (fun _ => (h.lock l).intact hfr) (fun u hu => ?_) fun _ hfr' => ?_)
    (hsts.threadInv h (hsts.placeInv h hsf (not_parked_of_waits hp.waits) hq hpkg
      (by rw [how]; exact h.thread.released t) hps) rfl hsf (hp.kept hq))
  · unfold Owns
    rw [hm.iff (P := fun p => p.owns = some l) (by rw [how])]
    rfl
  · obtain rfl := Option.some.inj ((hqo u).mp hu)
    rw [hwr, hsf]
    exact hstg ((h.lock l).intact hfr)
  · simp [hwr, hlkd] at hfr'

/-- The owner calls `unlock`. -/
theorem Inv.callUnlock (h : s.Inv) (ht : s.place t = .outside) (hhd : s.holds t l = true) :
    ((s.setHolds t l false).goTo t (.unlock l)).Inv := by
  set s' := (s.setHolds t l false).goTo t (.unlock l)
  have hsf : s'.place t = .unlock l := update_self ..
  have hhd' : s'.holds t l = false := holds_setHolds_self ..
  have hsts : Stores s s' l t :=
    ⟨fun _ _ => rfl, fun _ _ => rfl, fun _ _ hne => holds_setHolds_of_ne hne _,
      fun _ hu => update_of_ne hu _ _, rfl, by rw [ht]; exact concerns_outside l,
      by rw [hsf]; exact concerns_of_owns rfl⟩
  have hm := hsts.moved hsf
  have how : ∀ u, s'.Owns l u ↔ s.Owns l u := by
    intro u
    by_cases hu : u = t
    · rw [hu]
      exact iff_of_true (.inr (by rw [hsf]; rfl)) (.inl hhd)
    · exact hsts.owns_of_ne hu
  have hpln : (s.place t).Plain := by
    rw [ht]
    exact ⟨Kept.refl _, rfl⟩
  have hr : ∀ l', (Place.unlock l : Place Lock Thread).owns = some l' →
      s'.holds t l' = false := fun l' hl' => Option.some.inj hl' ▸ hhd'
  refine hsts.inv h ((h.lock l).next rfl rfl how
    (hm.iff (P := fun p => p.ownsQueue = some l) (by rw [ht]; rfl)) (fun v hv => ?_)
    (h.lock l).intact (fun u hu => ?_) (Exists.imp fun u hu => ?_))
    (hsts.threadInv h (hsts.placeInv h hsf (by simp) hpln rfl hr trivial)
      rfl hsf ((plain_of_owns rfl).kept hpln))
  · rw [hsts.others v (h.member hv hpln.waits)]
    exact (h.lock l).queued v hv
  · obtain ⟨hne, hu⟩ := hm.old rfl hu
    rw [hsts.others u hne]
    exact (h.lock l).stage u hu
  · have hne : u ≠ t := by
      rintro rfl
      unfold Awake at hu
      rw [ht] at hu
      simp [locks, wakes, waits] at hu
    unfold Awake at hu ⊢
    rwa [hsts.others u hne, hsts.data]

/-- The lock is released, and no thread waits for it. -/
theorem Inv.release (h : s.Inv) (ht : s.place t = q) (hq : q.owns = some l)
    (hwr : s.word l = .isLocked) :
    ((s.store l .zero).goTo t .outside).Inv := by
  subst ht
  set s' := (s.store l .zero).goTo t .outside
  have hsf : s'.place t = .outside := update_self ..
  have hwr' : s'.word l = .zero := update_self ..
  have hsts : Stores s s' l t := stores_store (concerns_of_owns hq) (concerns_outside l)
  have hemp : s.enqueued l = [] := by
    have hhe := (h.lock l).head
    rw [hwr] at hhe
    exact head?_eq_none_iff.mp hhe.symm
  have hfr : (s.word l).queueLocked = false := by rw [hwr]; rfl
  have hn : ∀ u, (s'.place u).ownsQueue ≠ some l :=
    (hsts.moved hsf).all (P := fun p => p.ownsQueue ≠ some l) (by simp [ownsQueue])
      (h.not_ownsQueue hfr)
  have hpln := plain_of_owns hq
  exact hsts.inv h (hsts.lockInv h rfl hpln.waits (by rw [hwr', hwr]; rfl)
    ⟨none, fun u => iff_of_false (hsts.not_owns h hsf hq rfl rfl u) (by simp),
      by simp [hwr', Word.zero]⟩
    ⟨none, fun u => iff_of_false (hn u) (by simp), by simp [hwr', Word.zero]⟩
    (by simp [hwr', Word.zero]) (fun _ => (h.lock l).intact hfr)
    (fun u hu => absurd hu (hn u)) fun hne => absurd hemp hne)
    (hsts.threadInv h (hsts.placeInv h hsf (by simp) hpln rfl (by simp [owns]) trivial)
      rfl hsf hpln.1)

/-- The word is stored with the thread at the end of the queue. -/
theorem Inv.storeEnqueued (h : s.Inv) {n : Nat} {creates : Bool}
    (ht : s.place t = .storeEnqueued l n creates (s.word l)) :
    (((s.store l ⟨(s.word l).locked, false,
        if creates then some t else (s.word l).queueHead⟩).setEnqueued l
        (s.enqueued l ++ [t])).goTo t (.park l n)).Inv := by
  set s' := ((s.store l ⟨(s.word l).locked, false,
    if creates then some t else (s.word l).queueHead⟩).setEnqueued l
    (s.enqueued l ++ [t])).goTo t (.park l n)
  have hsf : s'.place t = .park l n := update_self ..
  have hwr : s'.word l = ⟨(s.word l).locked, false,
      if creates then some t else (s.word l).queueHead⟩ := update_self ..
  have henq : s'.enqueued l = s.enqueued l ++ [t] := update_self ..
  have hsts : Stores s s' l t :=
    stores_setEnqueued (by rw [ht]; exact concerns_of_locks rfl) (concerns_of_waits rfl)
  have hmv := hsts.moved hsf
  have hq : (s.place t).ownsQueue = some l := by rw [ht]; rfl
  have hwts : (s.place t).waits = none := by rw [ht]; rfl
  have hlkd := (h.lock l).locked (h.queueLocked hq)
  obtain ⟨hcrs, hit, hpr, _⟩ : Stage s.data (s.enqueued l) (s.word l) t
      (.storeEnqueued l n creates (s.word l)) := ht ▸ (h.lock l).stage t hq
  obtain ⟨o, ho, hlki⟩ := (h.lock l).owner
  have how : ∀ u, s'.Owns l u ↔ s.Owns l u := by
    intro u
    unfold Owns
    rw [hmv.iff (P := fun p => p.owns = some l) (by rw [ht]; rfl)]
    rfl
  have hn : ∀ u, (s'.place u).ownsQueue ≠ some l := fun u hu =>
    (hmv.old rfl hu).1 (h.queueOwner_unique hq (hmv.old rfl hu).2)
  have hnotMem : ∀ l', t ∉ s.enqueued l' := fun l' hm => h.member hm hwts rfl
  have hm : ∀ l' v, v ∈ s'.enqueued l' ↔ v ∈ s.enqueued l' ∨ (l' = l ∧ v = t) := by
    intro l' v
    by_cases hl' : l' = l
    · rw [hl', henq, mem_append, mem_singleton]
      simp
    · rw [hsts.enqueued l' hl']
      simp [hl']
  have hlk : s'.LockInv l := by
    refine ⟨⟨o, fun u => (how u).trans (ho u), by rw [hwr]; exact hlki⟩,
      ⟨none, fun u => iff_of_false (hn u) (by simp), ?_⟩, fun htr => ?_, ?_, ?_,
      fun v hv => ?_, fun _ => ?_, fun u hu => absurd hu (hn u), fun _ hfr => ?_⟩
    · rw [hwr]
      simp
    · rw [hwr] at htr
      cases htr
    · rw [hwr, henq]
      show (if creates then some t else (s.word l).queueHead) = _
      by_cases hc : creates = true
      · rw [if_pos hc, hcrs.mp hc]
        rfl
      · have hne : s.enqueued l ≠ [] := fun hemp => hc (hcrs.mpr hemp)
        rw [if_neg hc, (h.lock l).head, head?_append_of_ne_nil _ hne]
    · rw [henq]
      refine nodup_append.mpr ⟨(h.lock l).nodup, nodup_singleton t, ?_⟩
      intro a ha b hb heq
      exact hnotMem l (mem_singleton.mp hb ▸ heq ▸ ha)
    · rcases (hm l v).mp hv with hv | ⟨_, rfl⟩
      · rw [hsts.others v (h.member hv hwts)]
        exact (h.lock l).queued v hv
      · rw [hsf]
        exact ⟨rfl, hpr⟩
    · rw [henq]
      exact hit
    · rw [hwr] at hfr
      simp [hlkd] at hfr
  have hwks := hmv.rel (R := fun _ p q => p.wakes = q.wakes) (fun _ _ => rfl) (by rw [ht]; rfl)
  have hpli : s'.PlaceInv := hsts.placeInv h hsf (by simp)
    (by rw [ht]; exact plain_of_locks rfl) rfl (by simp [owns]) trivial
  refine hsts.inv h hlk ⟨hpli, hsts.next h hwts, fun u l' v hu => ?_,
    fun u v l' l'' x hu hv => ?_, fun u l' hu hpr' => ?_⟩
  · rw [hwks] at hu
    obtain ⟨hv, hnotIn, hpr', hcl⟩ := h.thread.waking u l' v hu
    have hvt : v ≠ t := by
      rintro rfl
      simp [hwts] at hv
    rw [hsts.others v hvt]
    refine ⟨hv, fun l'' hm' => ?_, hpr', fun hclr => hcl ?_⟩
    · rcases (hm l'' v).mp hm' with hm' | ⟨_, heq⟩
      · exact hnotIn l'' hm'
      · exact hvt heq
    · rwa [← hmv.iff (P := fun p => p.clearsNext = false) (by rw [ht]; exact Iff.rfl)]
  · rw [hwks] at hu hv
    exact h.thread.waker u v l' l'' x hu hv
  · rcases hmv.cases hu with ⟨heq, hp⟩ | ⟨_, hu⟩
    · exact .inl ((hm l' u).mpr (.inr ⟨(Option.some.inj hp).symm, heq⟩))
    · refine (h.thread.parked u l' hu hpr').imp (fun hm' => (hm l' u).mpr (.inl hm')) ?_
      exact Exists.imp fun v hv => (hwks v).trans hv

/-- The word is stored without the first thread of the queue. -/
theorem Inv.storeDequeued (h : s.Inv) {x : Thread} {new : Option Thread}
    (ht : s.place t = .storeDequeued l x new w) :
    (((s.store l ⟨false, false, new⟩).setEnqueued l (s.enqueued l).tail).goTo t
      (.clearNext l x)).Inv := by
  set s' := ((s.store l ⟨false, false, new⟩).setEnqueued l (s.enqueued l).tail).goTo t
    (.clearNext l x)
  have hsf : s'.place t = .clearNext l x := update_self ..
  have hwr : s'.word l = ⟨false, false, new⟩ := update_self ..
  have htl : s'.enqueued l = (s.enqueued l).tail := update_self ..
  have hsts : Stores s s' l t :=
    stores_setEnqueued (by rw [ht]; exact concerns_of_owns rfl) (concerns_of_wakes rfl)
  have hmv := hsts.moved hsf
  have hq : (s.place t).ownsQueue = some l := by rw [ht]; rfl
  have ho : (s.place t).owns = some l := by rw [ht]; rfl
  have hwts : (s.place t).waits = none := by rw [ht]; rfl
  obtain ⟨rest, hrest, hnew, hit⟩ : Stage s.data (s.enqueued l) (s.word l) t
      (.storeDequeued l x new w) := ht ▸ (h.lock l).stage t hq
  have henq : s'.enqueued l = rest := by rw [htl, hrest]; rfl
  have hnd := (h.lock l).nodup
  rw [hrest] at hnd
  obtain ⟨hxr, hnd⟩ := nodup_cons.mp hnd
  have hx : x ∈ s.enqueued l := hrest ▸ mem_cons_self
  obtain ⟨hxw, hxp⟩ := (h.lock l).queued x hx
  have hxt : x ≠ t := h.member hx hwts
  have hnotOwner := hsts.not_owns h hsf ho rfl rfl
  have hn : ∀ u, (s'.place u).ownsQueue ≠ some l := fun u hu =>
    (hmv.old rfl hu).1 (h.queueOwner_unique hq (hmv.old rfl hu).2)
  -- the threads in the queues afterwards
  have hm : ∀ l' v, v ∈ s'.enqueued l' → v ∈ s.enqueued l' ∧ v ≠ x := by
    intro l' v hv
    by_cases hl' : l' = l
    · rw [hl', henq] at hv
      rw [hl', hrest]
      exact ⟨mem_cons_of_mem x hv, fun heq => hxr (heq ▸ hv)⟩
    · rw [hsts.enqueued l' hl'] at hv
      refine ⟨hv, ?_⟩
      rintro rfl
      exact hl' (Option.some.inj (((h.lock l').queued v hv).1.symm.trans hxw))
  have hlk : s'.LockInv l := by
    refine ⟨⟨none, fun u => iff_of_false (hnotOwner u) (by simp), by rw [hwr]; simp⟩,
      ⟨none, fun u => iff_of_false (hn u) (by simp), by rw [hwr]; simp⟩, fun htr => ?_,
      by rw [hwr, henq]; exact hnew, by rw [henq]; exact hnd, fun v hv => ?_,
      fun _ => by rw [henq]; exact hit, fun u hu => absurd hu (hn u),
      fun _ _ => ⟨t, .inr (.inl ⟨x, by rw [hsf]; rfl⟩)⟩⟩
    · rw [hwr] at htr
      cases htr
    · have hv' := (hm l v hv).1
      rw [hsts.others v (h.member hv' hwts)]
      exact (h.lock l).queued v hv'
  have hwks : ∀ u l' v, (s'.place u).wakes = some (l', v) →
      (u = t ∧ l' = l ∧ v = x) ∨ (u ≠ t ∧ (s.place u).wakes = some (l', v) ∧ v ≠ x) := by
    intro u l' v hu
    rcases hmv.cases hu with ⟨heq, hp⟩ | ⟨hne, hu'⟩
    · cases hp
      exact .inl ⟨heq, rfl, rfl⟩
    · refine .inr ⟨hne, hu', ?_⟩
      rintro rfl
      exact (h.thread.waking u l' v hu').2.1 l hx
  have hpli : s'.PlaceInv := hsts.placeInv h hsf (by simp)
    (by rw [ht]; exact plain_of_owns rfl) rfl (by simp [owns]) trivial
  refine hsts.inv h hlk ⟨hpli, hsts.next h hwts, fun u l' v hu => ?_,
    fun u v l' l'' y hu hv => ?_, fun u l' hu hpr' => ?_⟩
  · rcases hwks u l' v hu with ⟨rfl, rfl, rfl⟩ | ⟨hut, hu, hvx⟩
    · rw [hsts.others v hxt]
      refine ⟨hxw, fun l'' hm' => (hm l'' v hm').2 rfl, hxp, fun hclr => ?_⟩
      rw [hsf] at hclr
      cases hclr
    · obtain ⟨hv, hnotIn, hpr', hcl⟩ := h.thread.waking u l' v hu
      have hvt : v ≠ t := by
        rintro rfl
        simp [hwts] at hv
      rw [hsts.others v hvt, hsts.others u hut]
      exact ⟨hv, fun l'' hm' => hnotIn l'' (hm l'' v hm').1, hpr', hcl⟩
  · rcases hwks u l' y hu with ⟨rfl, _, rfl⟩ | ⟨_, hu, hyx⟩
    · rcases hwks v l'' y hv with ⟨rfl, _⟩ | ⟨_, _, hyx⟩
      · rfl
      · exact absurd rfl hyx
    · rcases hwks v l'' y hv with ⟨_, _, rfl⟩ | ⟨_, hv, _⟩
      · exact absurd rfl hyx
      · exact h.thread.waker u v l' l'' y hu hv
  · obtain ⟨_, hu⟩ := hmv.old rfl hu
    rcases h.thread.parked u l' hu hpr' with hm' | ⟨v, hv⟩
    · by_cases hl' : l' = l
      · rw [hl', hrest] at hm'
        rcases mem_cons.mp hm' with rfl | hm'
        · exact .inr ⟨t, by rw [hsf, hl']; rfl⟩
        · rw [hl', henq]
          exact .inl hm'
      · rw [hsts.enqueued l' hl']
        exact .inl hm'
    · exact .inr ⟨v, hmv.forth (P := fun p => p.wakes = some (l', u)) (by simp [ht, wakes]) hv⟩

/-! ## The runs -/

/-- Every step inside `lock` keeps the invariant. -/
theorem inv_runLock (h : s.Inv) {b : Bool} (ht : s.place t = q)
    (hr : s.runLock t b q = some s') : s'.Inv := by
  have hps : q.Possible := ht ▸ h.thread.possible t
  revert hr
  fun_cases runLock s t b q <;> rintro ⟨⟩
  case case1 l hz =>
    rw [← hz.1]
    exact h.acquired ht rfl (by rw [hz.1]; rfl)
  case case2 => exact h.keepLocking ht trivial
  case case3 l n =>
    split
    next hfr => exact h.keepLocking ht hfr
    · exact h.afterBarge ht rfl rfl n _
  case case4 l n cur hwr =>
    have hfr : cur.locked = false := hps
    rw [← hwr.1] at hfr ⊢
    exact h.acquired ht rfl hfr
  case case5 l n cur _ => exact h.afterBarge ht rfl rfl n cur
  case case6 l n =>
    split
    · exact h.keepLocking ht trivial
    next hn =>
      refine h.keepLocking ht ?_
      simpa [Possible, and_comm] using hn
  case case7 l n cur hwr =>
    obtain ⟨hlkd, hfr⟩ := hps
    rw [← hwr.1] at hlkd hfr ⊢
    exact h.takeQueue ht hlkd hfr (plain_of_locks rfl) (plain_of_locks rfl) rfl rfl
      (concerns_of_locks rfl) (concerns_of_locks rfl) rfl trivial
      fun hit => ⟨(h.lock l).head, hit⟩
  case case8 => exact h.keepLocking ht trivial
  case case9 =>
    exact h.setShouldPark ht rfl rfl trivial fun _ hit hpr => ⟨(h.stage ht rfl).1.symm, hit, hpr⟩
  case case10 =>
    exact h.setShouldPark ht rfl rfl trivial
      fun _ _ hpr => ⟨head?_eq_none_iff.mp (h.stage ht rfl).1.symm, hpr⟩
  case case11 l n head tail hso =>
    obtain ⟨hhd, hit, hpr⟩ := h.stage ht rfl
    exact h.keepLocking ht trivial (stage_of_eq rfl
      ⟨hhd, (hit.2 head hhd).symm.trans hso, hit, hpr⟩)
  case case12 l n head hno =>
    -- the queue has a head, so it has a tail
    obtain ⟨hhd, hit, _⟩ := h.stage ht rfl
    have hemp := List.getLast?_eq_none_iff.mp ((hit.2 head hhd).symm.trans hno)
    exact absurd (List.mem_of_mem_head? hhd) (by simp [hemp])
  case case13 => exact h.writeNext ht
  case case14 => exact h.writeTail ht
  case case15 => exact h.createQueue ht
  case case16 =>
    obtain ⟨hcrs, hit, hpr⟩ := h.stage ht rfl
    exact h.keepLocking ht trivial (stage_of_eq rfl ⟨hcrs, hit, hpr, rfl⟩)
  case case17 l n creates cur hcsh =>
    obtain ⟨hcrs, _, _, rfl⟩ := h.stage ht rfl
    refine absurd ?_ hcsh.2
    rw [(h.lock l).head, hcrs.mp hcsh.1]
    rfl
  case case18 l n creates cur _ _ =>
    obtain ⟨_, _, _, rfl⟩ := h.stage ht rfl
    exact h.storeEnqueued ht
  case case19 hfr => exact h.lockOwnParking ht hfr
  case case21 hpr =>
    exact h.move ht (by simp [locks]) (by simp [ownsQueue]) trivial (fun _ _ _ => hpr) (by simp)
      ⟨⟨⟨rfl, rfl, rfl⟩, rfl, rfl, fun _ => rfl⟩, rfl⟩
  case case22 hpr => exact h.unparked ht (by simpa using hpr)
  case case23 => exact h.sleep ht

/-- Every step inside `unlock` keeps the invariant. -/
theorem inv_runUnlock (h : s.Inv) {b : Bool} (ht : s.place t = q)
    (hr : s.runUnlock t b q = some s') : s'.Inv := by
  have hps : q.Possible := ht ▸ h.thread.possible t
  revert hr
  fun_cases runUnlock s t b q <;> rintro ⟨⟩
  case case1 hwr => exact h.release ht rfl hwr.1
  case case2 => exact h.keepUnlocking ht trivial
  case case3 l =>
    split
    · exact h.keepUnlocking ht trivial
    next hne =>
      split
      · exact h.keepUnlocking ht trivial
      next hfr =>
        exact h.keepUnlocking ht ⟨by simpa using hfr, hne⟩
  case case4 hwr => exact h.release ht rfl hwr.1
  case case5 => exact h.keepUnlocking ht trivial
  case case6 l cur hwr =>
    obtain ⟨hfr, hne⟩ := hps
    rw [← hwr.1] at hfr hne ⊢
    have hlkd := h.locked (l := l) (t := t) (.inr (by rw [ht]; rfl))
    refine h.takeQueue ht hlkd hfr (plain_of_owns rfl) (plain_of_owns rfl) rfl rfl
      (concerns_of_owns rfl) (concerns_of_owns rfl) rfl trivial
      fun hit => ⟨fun hemp => hne ?_, hit⟩
    -- a word without a queue is the one that was compared before
    have hhd := (h.lock l).head
    rw [hemp] at hhd
    exact Word.ext hlkd hfr hhd
  case case7 => exact h.keepUnlocking ht trivial
  case case8 l x hso =>
    exact h.keepUnlocking ht trivial (stage_of_eq rfl
      ⟨(h.lock l).head.symm.trans hso, (h.stage ht rfl).2⟩)
  case case9 l hno =>
    exact absurd (head?_eq_none_iff.mp ((h.lock l).head.symm.trans hno)) (h.stage ht rfl).1
  case case10 l x new hso =>
    obtain ⟨rest, hq, hnx, hit⟩ := h.next_of_readNext ht
    obtain ⟨rest', rfl⟩ := head?_eq_some_iff.mp (hnx.symm.trans hso)
    exact h.keepUnlocking ht trivial (stage_of_eq rfl ⟨⟨rest', hq⟩, hit⟩)
  case case11 l x hno =>
    obtain ⟨rest, hq, hnx, _⟩ := h.next_of_readNext ht
    obtain rfl := head?_eq_none_iff.mp (hnx.symm.trans hno)
    exact h.keepUnlocking ht trivial (stage_of_eq rfl ⟨[], hq, rfl, trivial, by simp⟩)
  case case12 l x new =>
    obtain ⟨⟨rest, hq⟩, hit⟩ := h.stage ht rfl
    refine h.keepUnlocking ht trivial (stage_of_eq rfl ⟨⟨rest, hq, ?_⟩, hit⟩)
    rw [hit.2 x (by simp [hq]), hq, getLast?_cons_cons]
  case case13 => exact h.writeQueueTail ht
  case case14 =>
    exact h.keepUnlocking ht trivial (stage_of_eq rfl (h.stage ht rfl :))
  case case15 => exact h.storeDequeued ht
  case case16 => exact h.clearNext ht
  case case17 => exact h.clearTail ht
  case case18 hfr => exact h.lockParking ht hfr
  case case20 => exact h.clearShouldPark ht
  case case21 => exact h.unlockParking ht
  case case22 => exact h.notify ht

/-- Every step keeps the invariant. -/
theorem inv_step (h : s.Inv) (e : Event Lock Thread) (hst : s.step e = some s') : s'.Inv := by
  revert hst
  fun_cases step s e
  case case1 ht _ =>
    rintro ⟨⟩
    exact h.move ht (by simp [locks]) (by simp [ownsQueue]) trivial (by simp) (by simp)
      ⟨⟨⟨rfl, rfl, rfl⟩, rfl, rfl, fun _ => rfl⟩, rfl⟩
  case case4 ht hhd =>
    rintro ⟨⟩
    exact h.callUnlock ht hhd
  case case7 t b =>
    intro hst
    rcases Option.or_eq_some_iff.mp hst with hr | ⟨_, hr⟩
    · exact inv_runLock h rfl hr
    · exact inv_runUnlock h rfl hr
  case case8 ht =>
    rintro ⟨⟩
    exact h.wakeUp ht
  all_goals rintro ⟨⟩

/-- **The word lock.** In every state, with any number of locks and threads, a lock has at most one
owner; while no thread owns the queue of a lock, the word points to its first thread and the records
form the queue, each thread once; if a thread sleeps and the lock is free, another one is awake
inside `lock` or `unlock`; and no null pointer is followed. -/
theorem wordLock_correct (events : List (Event Lock Thread)) :
    Runs.AllStates step Correct (initial : State Lock Thread) events :=
  (Runs.invariant (fun _ _ _ h hstep => inv_step h _ hstep) inv_initial events).mono
    fun _ h => h.correct

end WebKit.Wtf.WordLock.State
