import WebKit.Ipc.SyncMessages

/-!
# Synchronous replies

Which reply a call of `sendSyncMessage` returns, and when the main thread may be blocked.

The pending replies of a connection are the requests on the stack of the main thread, in its order.
A reply is kept at the request with its identifier, so the last pending reply, which the innermost
call looks at, is its own. A signal of the semaphore may be meant for an outer call and wake up an
inner one. It is not lost, since every call looks at everything again before it waits.

The one way to go wrong is the table of the secondary threads, which reserves two keys.
-/

namespace WebKit.Ipc

open Runs List State PendingSyncReply Option

/-! ## Requests on the stack -/

variable (c : Nat)

/-- The request that a frame has made on a connection. -/
def Frame.requestOn : Frame → Option Nat
  | .waitForSyncReply d id _ _ => if d = c then some id else none
  | _ => none

/-- The active requests on a connection, the innermost last. -/
def requestsOn (stack : List Frame) : List Nat :=
  (stack.filterMap (Frame.requestOn c)).reverse

theorem requestsOn_cons (frame : Frame) (stack : List Frame) :
    requestsOn c (frame :: stack) = requestsOn c stack ++ (frame.requestOn c).toList := by
  unfold requestsOn
  cases h : frame.requestOn c with
  | none => simp [h]
  | some id => simp [h]

theorem requestsOn_wait_self (c id : Nat) (spin : Bool) (phase : WaitPhase) (stack : List Frame) :
    requestsOn c (.waitForSyncReply c id spin phase :: stack) = requestsOn c stack ++ [id] := by
  rw [requestsOn_cons]
  simp [Frame.requestOn]

theorem requestsOn_wait_of_ne {c d : Nat} (h : d ≠ c) (id : Nat) (spin : Bool) (phase : WaitPhase)
    (stack : List Frame) :
    requestsOn c (.waitForSyncReply d id spin phase :: stack) = requestsOn c stack := by
  rw [requestsOn_cons]
  simp [Frame.requestOn, h]

theorem requestsOn_wait_ne_nil {c id : Nat} {spin : Bool} {phase : WaitPhase} {stack : List Frame} :
    requestsOn c (.waitForSyncReply c id spin phase :: stack) ≠ [] := by
  simp [requestsOn_wait_self]

/-! ## Handing a reply to a pending request -/

variable {isLast : Bool} {l l' : List PendingSyncReply}

/-- The reply goes to the last request with its identifier. -/
theorem receiveReply_spec {reply : SyncReply} (h : receiveReply reply l = some (l', isLast)) :
    ∃ bef pend after, l = bef ++ pend :: after ∧
      pend.syncRequestID = reply.destinationID ∧
      l' = bef ++ { pend with replyDecoder := some reply, didReceiveReply := true } :: after ∧
      isLast = after.isEmpty := by
  fun_induction State.receiveReply reply l generalizing l' isLast with
  | case1 => cases h
  | case2 pend rest rest' isLast' hrest ih =>
    cases h
    obtain ⟨bef, pend', after, rfl, hid, rfl, hls⟩ := ih hrest
    exact ⟨pend :: bef, pend', after, rfl, hid, rfl, hls⟩
  | case3 pend rest _ hid =>
    cases h
    exact ⟨[], pend, rest, rfl, hid, rfl, rfl⟩
  | case4 => cases h

theorem map_receiveReply {reply : SyncReply} (h : receiveReply reply l = some (l', isLast)) :
    l'.map syncRequestID = l.map syncRequestID := by
  obtain ⟨bef, pend, after, rfl, _, rfl, _⟩ := receiveReply_spec h
  simp

theorem getLast?_receiveReply {reply : SyncReply}
    (h : receiveReply reply l = some (l', false)) : l'.getLast? = l.getLast? := by
  obtain ⟨bef, pend, after, rfl, _, rfl, hls⟩ := receiveReply_spec h
  cases after with
  | nil => cases hls
  | cons q rest => simp [getLast?_append, getLast?_cons]

/-! ## The pending replies are the requests -/

/-- The pending replies are the requests on the stack, none with a reserved identifier. -/
structure Requested (s : State) : Prop where
  requests : ∀ c, (s.connection c).pendingSyncReplies.map PendingSyncReply.syncRequestID =
    requestsOn c s.stack
  ids : ∀ c, ∀ id ∈ requestsOn c s.stack, emptyKey < id ∧ id < deletedKey

variable {s s' : State} {e : Event}

namespace Requested

theorem initial : Requested {} := ⟨fun _ => rfl, by simp [requestsOn]⟩

theorem of_eq (h : Requested s) (hs : ∀ c, requestsOn c s'.stack = requestsOn c s.stack)
    (hpn : ∀ c, (s'.connection c).pendingSyncReplies.map syncRequestID =
      (s.connection c).pendingSyncReplies.map syncRequestID) : Requested s' := by
  refine ⟨?_, ?_⟩
  · intro c
    rw [hpn, hs]
    exact h.requests c
  · intro c
    rw [hs]
    exact h.ids c

theorem of_set (h : Requested s) {c : Nat} {connection : Connection}
    (hcn : s'.connection = (s.setConnection c connection).connection)
    (hs : s'.stack = s.stack)
    (hpn : connection.pendingSyncReplies.map syncRequestID =
      (s.connection c).pendingSyncReplies.map syncRequestID) : Requested s' := by
  refine h.of_eq (fun _ => by rw [hs]) ?_
  intro d
  rw [hcn, connection_setConnection]
  split
  case isTrue hd => rw [hd, hpn]
  case isFalse => rfl

theorem requestsOn_returnFromDispatchMessages (stack : List Frame) :
    requestsOn c (returnFromDispatchMessages stack) = requestsOn c stack := by
  unfold returnFromDispatchMessages
  split
  · rw [requestsOn_cons, requestsOn_cons]
    rfl
  · rfl

theorem send (h : Requested s) (c : Nat) (spin : Bool)
    (hid : (s.connection c).syncRequestID + 1 < deletedKey) :
    Requested
      { s.setConnection c
          { s.connection c with
            syncRequestID := (s.connection c).syncRequestID + 1
            pendingSyncReplies := (s.connection c).pendingSyncReplies ++
              [{ syncRequestID := (s.connection c).syncRequestID + 1 }] } with
        stack :=
          .waitForSyncReply c ((s.connection c).syncRequestID + 1) spin .loop :: s.stack } := by
  refine ⟨?_, ?_⟩
  · intro d
    show List.map _ ((s.setConnection c _).connection d).pendingSyncReplies = _
    rw [connection_setConnection]
    split
    case isTrue hd =>
      rw [hd, requestsOn_wait_self, ← h.requests c, map_append]
      rfl
    case isFalse hd =>
      rw [requestsOn_wait_of_ne (Ne.symm hd)]
      exact h.requests d
  · intro d id hm
    by_cases hd : c = d
    · subst hd
      rw [requestsOn_wait_self] at hm
      rcases mem_append.mp hm with hm | hm
      · exact h.ids c id hm
      · rw [mem_singleton.mp hm]
        exact ⟨Nat.succ_pos _, hid⟩
    · rw [requestsOn_wait_of_ne hd] at hm
      exact h.ids d id hm

variable {stack : List Frame} {spin : Bool} {c id : Nat}

theorem pop (h : Requested s) {reply : Option SyncReply}
    (hs : s.stack = .waitForSyncReply c id spin (.done reply) :: stack)
    (returned : List Returned) :
    Requested
      { s.setConnection c
          { s.connection c with
            pendingSyncReplies := (s.connection c).pendingSyncReplies.dropLast } with
        stack := stack
        returned := returned } := by
  refine ⟨?_, ?_⟩
  · intro d
    show List.map _ ((s.setConnection c _).connection d).pendingSyncReplies = requestsOn d stack
    have hreq := h.requests d
    rw [hs] at hreq
    rw [connection_setConnection]
    split
    case isTrue hd =>
      subst hd
      rw [requestsOn_wait_self] at hreq
      rw [map_dropLast, hreq, dropLast_concat]
    case isFalse hd =>
      rwa [requestsOn_wait_of_ne (Ne.symm hd)] at hreq
  · intro d id' hm
    refine h.ids d id' ?_
    rw [hs, requestsOn_cons]
    exact mem_append_left _ hm

theorem step (h : Requested s) (hs : Step s e s') : Requested s' := by
  cases hs with
  | reply r met hrc => exact h.of_set rfl rfl (map_receiveReply hrc)
  | close c | failToSend c _ | invalidate c _ | sendFromSecondaryThread c _
  | secondaryThreadReturns _ => exact h.of_set rfl rfl rfl
  | runCallback hstk _ | callbackDispatches hstk | dispatch hstk _ _ | discard hstk _ _
  | putAside hstk _ | handlerReturns hstk =>
    exact h.of_eq (fun c => by rw [hstk]; rfl) (fun _ => rfl)
  | loopDispatches hstk =>
    refine h.of_eq (fun c => ?_) (fun _ => rfl)
    rw [hstk]
    simp [dispatchMessages, requestsOn_cons, Frame.requestOn]
  | endLoop hstk =>
    refine h.of_eq (fun c => ?_) (fun _ => rfl)
    rw [hstk]
    exact requestsOn_returnFromDispatchMessages c _
  | send c spin _ hid => exact h.send c spin hid
  | check hstk _ | wake hstk _ | timeOut hstk =>
    refine h.of_eq (fun c => ?_) (fun _ => rfl)
    rw [hstk, requestsOn_cons, requestsOn_cons]
    rfl
  | pop hstk => exact h.pop hstk _
  | _ => exact h.of_eq (fun _ => rfl) (fun _ => rfl)

variable {phase : WaitPhase}

theorem last (h : Requested s)
    (hs : s.stack = .waitForSyncReply c id spin phase :: stack) {pend : PendingSyncReply}
    (hls : (s.connection c).pendingSyncReplies.getLast? = some pend) :
    pend.syncRequestID = id := by
  have hreq := h.requests c
  rw [hs, requestsOn_wait_self] at hreq
  have := congrArg List.getLast? hreq
  rw [getLast?_map, hls, getLast?_concat] at this
  exact some.inj this

theorem pending_ne_nil (h : Requested s)
    (hs : s.stack = .waitForSyncReply c id spin phase :: stack) :
    (s.connection c).pendingSyncReplies ≠ [] := by
  intro hnil
  have hreq := h.requests c
  rw [hs, hnil] at hreq
  exact requestsOn_wait_ne_nil hreq.symm

end Requested

/-! ## Every reply is kept for the request that it answers -/

/-- The reply, if there is one, is for this request on this connection. -/
def Answers (c id : Nat) (reply : Option SyncReply) : Prop :=
  ∀ r, reply = some r → r.connection = c ∧ r.destinationID = id

theorem Answers.none (c id : Nat) : Answers c id none := nofun

/-- A reply is only ever held by what belongs to the request that it answers. -/
structure Own (s : State) : Prop where
  pending : ∀ c, ∀ p ∈ (s.connection c).pendingSyncReplies,
    Answers c p.syncRequestID p.replyDecoder
  frames : ∀ c id spin r, .waitForSyncReply c id spin (.done (some r)) ∈ s.stack →
    r.connection = c ∧ r.destinationID = id
  secondary : ∀ p, some p ∈ s.secondaryThreads →
    Answers p.connection p.syncRequestID p.replyDecoder
  map : ∀ c id i, (id, i) ∈ (s.connection c).secondaryThreadPendingSyncReplyMap →
    ∃ p, s.secondaryThreads[i]? = some (some p) ∧ p.connection = c ∧ p.syncRequestID = id
  returned : ∀ r ∈ s.returned, Answers r.connection r.syncRequestID r.reply

namespace Own

theorem initial : Own {} := by
  refine ⟨?_, ?_, ?_, ?_, ?_⟩ <;> simp

variable {connection : Connection}

theorem pending_setConnection (h : Own s) {c : Nat}
    (hpn : ∀ p ∈ connection.pendingSyncReplies, Answers c p.syncRequestID p.replyDecoder)
    (d : Nat) : ∀ p ∈ ((s.setConnection c connection).connection d).pendingSyncReplies,
      Answers d p.syncRequestID p.replyDecoder := by
  rw [connection_setConnection]
  split
  case isTrue hd =>
    rw [hd]
    exact hpn
  case isFalse => exact h.pending d

section

variable (h : Own s)
    (hs : ∀ c id spin r, .waitForSyncReply c id spin (.done (some r)) ∈ s'.stack →
      .waitForSyncReply c id spin (.done (some r)) ∈ s.stack)
    (hsec : s'.secondaryThreads = s.secondaryThreads)

include h hs hsec

/-- The connections keep their pending replies and maps, or hold answers; no frame gets a reply. -/
theorem of_pending (hpn : ∀ c, ∀ p ∈ (s'.connection c).pendingSyncReplies,
      Answers c p.syncRequestID p.replyDecoder)
    (hmap : ∀ c, (s'.connection c).secondaryThreadPendingSyncReplyMap =
      (s.connection c).secondaryThreadPendingSyncReplyMap)
    (hret : ∀ r ∈ s'.returned, r ∈ s.returned ∨ Answers r.connection r.syncRequestID r.reply) :
    Own s' := by
  refine ⟨hpn, fun c id spin r hm => h.frames c id spin r (hs c id spin r hm), ?_, ?_, ?_⟩
  · rw [hsec]
    exact h.secondary
  · intro c
    rw [hmap, hsec]
    exact h.map c
  · intro r hr
    rcases hret r hr with hr | hr
    · exact h.returned r hr
    · exact hr

theorem of_stack (hcn : s'.connection = s.connection) (hret : s'.returned = s.returned) :
    Own s' := by
  refine h.of_pending hs hsec ?_ (fun _ => by rw [hcn]) (fun r hr => ?_)
  · rw [hcn]
    exact h.pending
  · exact .inl (hret ▸ hr)

theorem of_set {c : Nat} (hcn : s'.connection = (s.setConnection c connection).connection)
    (hpn : ∀ p ∈ connection.pendingSyncReplies, Answers c p.syncRequestID p.replyDecoder)
    (hm : connection.secondaryThreadPendingSyncReplyMap =
      (s.connection c).secondaryThreadPendingSyncReplyMap)
    (hret : ∀ r ∈ s'.returned, r ∈ s.returned ∨ Answers r.connection r.syncRequestID r.reply) :
    Own s' := by
  refine h.of_pending hs hsec ?_ ?_ hret
  · rw [hcn]
    exact h.pending_setConnection hpn
  · intro d
    rw [hcn, connection_setConnection]
    split
    case isTrue hd => rw [hd, hm]
    case isFalse => rfl

end

theorem answers_receiveReply (h : Own s) {reply : SyncReply} {l : List PendingSyncReply}
    {isLast : Bool}
    (hrc : receiveReply reply (s.connection reply.connection).pendingSyncReplies =
      some (l, isLast)) : ∀ p ∈ l, Answers reply.connection p.syncRequestID p.replyDecoder := by
  obtain ⟨bef, pend, after, hl, hid, rfl, _⟩ := receiveReply_spec hrc
  have hold := h.pending reply.connection
  rw [hl] at hold
  intro p hp
  rcases mem_append.mp hp with hp | hp
  · exact hold p (mem_append_left _ hp)
  rcases mem_cons.mp hp with rfl | hp
  · intro r hr
    rw [← some.inj hr]
    exact ⟨rfl, hid.symm⟩
  · exact hold p (mem_append_right _ (mem_cons_of_mem _ hp))

theorem setReply (h : Own s) {reply : SyncReply} {i : Nat} (hm : (reply.destinationID, i) ∈
      (s.connection reply.connection).secondaryThreadPendingSyncReplyMap) :
    Own { s with
      secondaryThreads := s.secondaryThreads.modify i
        (Option.map fun pend => { pend with replyDecoder := some reply }) } := by
  obtain ⟨q, hq, hcn, hid⟩ := h.map _ _ _ hm
  refine ⟨h.pending, h.frames, ?_, ?_, h.returned⟩
  · intro p hp
    obtain ⟨j, hj⟩ := mem_iff_getElem?.mp hp
    by_cases hij : i = j
    · subst hij
      rw [getElem?_modify_eq, hq] at hj
      obtain rfl : { q with replyDecoder := some reply } = p := by simpa using hj
      intro r hr
      rw [← Option.some.inj hr]
      exact ⟨hcn.symm, hid.symm⟩
    · exact h.secondary p (mem_of_getElem? ((getElem?_modify_ne _ _ hij).symm.trans hj))
  · intro c id j hj
    obtain ⟨p, hp, hpc, hpid⟩ := h.map c id j hj
    by_cases hij : i = j
    · subst hij
      refine ⟨{ p with replyDecoder := some reply }, ?_, hpc, hpid⟩
      rw [getElem?_modify_eq, hp]
      rfl
    · refine ⟨p, ?_, hpc, hpid⟩
      exact (getElem?_modify_ne _ _ hij).trans hp

/-- What the innermost call takes is the reply to its own request. -/
theorem check (h : Own s) (hreq : Requested s) {c id : Nat} {spin : Bool} {stack : List Frame}
    {pend : PendingSyncReply} (hs : s.stack = .waitForSyncReply c id spin .check :: stack)
    (hls : (s.connection c).pendingSyncReplies.getLast? = some pend) :
    Own { s with
      stack := .waitForSyncReply c id spin (afterCheck (s.connection c) pend spin) :: stack } := by
  have hpn := h.pending c pend (mem_of_getLast? hls)
  rw [hreq.last hs hls] at hpn
  refine ⟨h.pending, ?_, h.secondary, h.map, h.returned⟩
  intro d id' spin' r hm
  rcases mem_cons.mp hm with hm | hm
  · obtain ⟨rfl, rfl, rfl, hphs⟩ := Frame.waitForSyncReply.inj hm
    refine hpn r ?_
    unfold afterCheck at hphs
    repeat' split at hphs
    · exact (WaitPhase.done.inj hphs).symm
    · cases hphs
    · cases hphs
    · cases hphs
  · exact h.frames d id' spin' r (hs ▸ mem_cons_of_mem _ hm)

theorem sendFromSecondaryThread (h : Own s) (c id : Nat)
    (hpn : connection.pendingSyncReplies = (s.connection c).pendingSyncReplies)
    (hmap : connection.secondaryThreadPendingSyncReplyMap = (id, s.secondaryThreads.length) ::
      (s.connection c).secondaryThreadPendingSyncReplyMap) :
    Own { s.setConnection c connection with
      secondaryThreads := s.secondaryThreads ++ [some ⟨c, id, none⟩] } := by
  refine ⟨h.pending_setConnection (hpn ▸ h.pending c), h.frames, ?_, ?_, h.returned⟩
  · intro p hp
    rcases mem_append.mp hp with hp | hp
    · exact h.secondary p hp
    · rw [some.inj (mem_singleton.mp hp)]
      exact .none _ _
  · intro d id' i hm
    change (id', i) ∈
      ((s.setConnection c connection).connection d).secondaryThreadPendingSyncReplyMap at hm
    -- the new entry leads to the new frame
    by_cases hnew : d = c ∧ (id', i) = (id, s.secondaryThreads.length)
    · obtain ⟨rfl, ⟨⟩⟩ := hnew
      exact ⟨_, getElem?_concat_length, rfl, rfl⟩
    have hold : (id', i) ∈ (s.connection d).secondaryThreadPendingSyncReplyMap := by
      rw [connection_setConnection] at hm
      split at hm
      case isTrue hd =>
        rw [hmap] at hm
        rw [hd]
        exact (mem_cons.mp hm).resolve_left (fun heq => hnew ⟨hd, heq⟩)
      case isFalse => exact hm
    obtain ⟨p, hp, hrest⟩ := h.map d id' i hold
    exact ⟨p, (List.getElem?_append_left (List.getElem?_eq_some_iff.mp hp).1).trans hp, hrest⟩

theorem secondaryThreadReturns (h : Own s) {i : Nat} {pend : SecondaryThreadPendingSyncReply}
    (hi : s.secondaryThreads[i]? = some (some pend))
    (hpn : connection.pendingSyncReplies = (s.connection
      pend.connection).pendingSyncReplies) (hmap :
      connection.secondaryThreadPendingSyncReplyMap = (s.connection
      pend.connection).secondaryThreadPendingSyncReplyMap.filter (·.1 ≠ pend.syncRequestID)) :
    Own { s.setConnection pend.connection connection with
      secondaryThreads := s.secondaryThreads.set i none
      returned := s.returned ++ [⟨pend.connection, pend.syncRequestID, pend.replyDecoder⟩] } := by
  refine ⟨h.pending_setConnection (hpn ▸ h.pending _), h.frames, ?_, ?_, ?_⟩
  · intro p hp
    refine h.secondary p ?_
    rcases mem_or_eq_of_mem_set hp with hp | hp
    · exact hp
    · cases hp
  · intro d id j hm
    change (id, j) ∈ ((s.setConnection pend.connection
      connection).connection d).secondaryThreadPendingSyncReplyMap at hm
    -- an entry of another request does not lead to the frame that is gone
    have hoth : (id, j) ∈ (s.connection d).secondaryThreadPendingSyncReplyMap ∧
        (d = pend.connection → id ≠ pend.syncRequestID) := by
      rw [connection_setConnection] at hm
      split at hm
      case isTrue hd =>
        rw [hmap] at hm
        obtain ⟨hm, hne⟩ := mem_filter.mp hm
        exact ⟨hd ▸ hm, fun _ => by simpa using hne⟩
      case isFalse hd => exact ⟨hm, fun heq => absurd heq hd⟩
    obtain ⟨p, hp, hpc, hpid⟩ := h.map d id j hoth.1
    refine ⟨p, ?_, hpc, hpid⟩
    have hij : i ≠ j := by
      rintro rfl
      obtain rfl : pend = p := some.inj (some.inj (hi.symm.trans hp))
      exact hoth.2 hpc.symm hpid.symm
    exact (getElem?_set_ne hij).trans hp
  · exact forall_mem_append.mpr
      ⟨h.returned, forall_mem_singleton.mpr (h.secondary pend (mem_of_getElem? hi))⟩

theorem step (h : Own s) (hreq : Requested s) (hs : Step s e s') : Own s' := by
  cases hs with
  | reply r met hrc =>
    exact h.of_set (fun _ _ _ _ => id) rfl rfl (h.answers_receiveReply hrc) rfl (fun _ => .inl)
  | secondaryReply r met _ hmem => exact h.setReply hmem
  | close c | invalidate c _ =>
    exact h.of_set (fun _ _ _ _ => id) rfl rfl (h.pending c) rfl (fun _ => .inl)
  | loopDispatches hstk =>
    refine h.of_stack ?_ rfl rfl rfl
    intro c id spin r hm
    simpa [dispatchMessages, hstk] using hm
  | @endLoop _ _ stack hstk =>
    refine h.of_stack ?_ rfl rfl rfl
    intro c id spin r hm
    rw [hstk]
    refine mem_cons_of_mem _ ?_
    change _ ∈ returnFromDispatchMessages stack at hm
    unfold returnFromDispatchMessages at hm
    split at hm
    · simpa using hm
    · exact hm
  | send c spin _ _ =>
    refine h.of_set ?_ rfl rfl ?_ rfl (fun _ => .inl)
    · intro d id spin' r hm
      simpa using hm
    · exact forall_mem_append.mpr ⟨h.pending c, forall_mem_singleton.mpr (.none _ _)⟩
  | failToSend c _ =>
    refine h.of_set (fun _ _ _ _ => id) rfl rfl (h.pending c) rfl ?_
    exact forall_mem_append.mpr ⟨fun _ => .inl, forall_mem_singleton.mpr (.inr (.none _ _))⟩
  | check hstk hls => exact h.check hreq hstk hls
  | @pop c id spin reply stack hstk =>
    refine h.of_set ?_ rfl rfl (fun p hp => h.pending c p (dropLast_subset _ hp)) rfl ?_
    · exact fun d id' spin' r hm => hstk ▸ mem_cons_of_mem _ hm
    · refine forall_mem_append.mpr ⟨fun _ => .inl, forall_mem_singleton.mpr (.inr fun r' hr' => ?_)⟩
      refine h.frames c id spin r' ?_
      rw [hstk, ← show reply = some r' from hr']
      exact mem_cons_self
  | sendFromSecondaryThread c _ => exact h.sendFromSecondaryThread c _ rfl rfl
  | secondaryThreadReturns hi => exact h.secondaryThreadReturns hi rfl rfl
  | arrive c | signal _ | crash r met _ => exact h.of_stack (fun _ _ _ _ => id) rfl rfl rfl
  | ignoreReply r met _ => exact h
  | runCallback hstk _ => exact h.of_stack (fun _ _ _ _ hm => by simp at hm) rfl rfl rfl
  | callbackDispatches hstk =>
    refine h.of_stack (fun _ _ _ _ hm => ?_) rfl rfl rfl
    simpa [dispatchMessages, hstk] using hm
  | dispatch hstk _ _ | discard hstk _ _ | putAside hstk _ | handlerReturns hstk
  | wake hstk _ | timeOut hstk =>
    exact h.of_stack (fun _ _ _ _ hm => by simpa [hstk] using hm) rfl rfl rfl

end Own

/-! ## The frames of the main thread -/

/-- How frames lie on each other: a callback and its call of `dispatchMessages` are the outermost;
other calls come from the loop of `waitForSyncReply`, and put nothing back; requests are made by
clients. -/
def Nested : List Frame → Prop
  | [] => True
  | .callback _ :: rest => rest = []
  | .dispatchMessages none _ putBack _ :: rest =>
    putBack = [] ∧ (∃ c id spin r, rest = .waitForSyncReply c id spin .dispatching :: r) ∧
      Nested rest
  | .dispatchMessages (some _) _ _ _ :: rest => rest = []
  | .waitForSyncReply _ _ _ _ :: rest => State.clientRuns rest = true ∧ Nested rest

theorem Nested.step (h : Nested s.stack) (hs : Step s e s') : Nested s'.stack := by
  cases hs with
  | runCallback _ _ => exact rfl
  | callbackDispatches hstk | check hstk _ | wake hstk _ | timeOut hstk =>
    rw [hstk] at h
    exact h
  | loopDispatches hstk =>
    rw [hstk] at h
    exact ⟨rfl, ⟨_, _, _, _, rfl⟩, h⟩
  | @dispatch alw _ _ _ _ hstk _ _ | @discard alw _ _ _ _ hstk _ _
  | @handlerReturns alw _ _ _ hstk =>
    rw [hstk] at h
    cases alw with
    | none => exact h
    | some c => exact h
  | @putAside alw _ _ _ _ hstk halw =>
    rw [hstk] at h
    cases alw with
    | none => cases halw
    | some c => exact h
  | @endLoop alw _ _ hstk =>
    rw [hstk] at h
    cases alw with
    | none =>
      obtain ⟨_, ⟨c, id, spin, r, rfl⟩, hrest⟩ := h
      exact hrest
    | some c =>
      obtain rfl := show _ = [] from h
      trivial
  | send c spin hrn _ => exact ⟨hrn, h⟩
  | pop hstk =>
    rw [hstk] at h
    exact h.2
  | _ => exact h

/-! ## Wake-ups -/

/-- Does the innermost call wait for the semaphore, on this connection? -/
def blockedOn : List Frame → Option Nat
  | .waitForSyncReply c _ _ .wait :: _ => some c
  | _ => none

/-- The main thread is about to look at the queue, or no call has to be woken up for it. -/
def Polls : List Frame → Prop
  | .waitForSyncReply _ _ _ .loop :: _ => True
  | stack => ∀ c, requestsOn c stack = []

/-- There is nothing to see for the call that looks at the last pending reply. -/
structure Connection.Quiet (connection : Connection) : Prop where
  isOpen : connection.shouldWaitForSyncReplies = true
  last : ∀ pending, connection.pendingSyncReplies.getLast? = some pending →
    pending.didReceiveReply = false

/-- No signal is lost: the call that waits has nothing to look at, and a queued message has its
signal, set or on its way, or needs none. -/
structure Awake (s : State) : Prop where
  quiet : ∀ c, blockedOn s.stack = some c → s.waitForSyncReplySemaphore = false →
    (s.connection c).Quiet
  queued : s.messagesToDispatch ≠ [] →
    s.waitForSyncReplySemaphore = true ∨ 0 < s.wakeUps ∨ Polls s.stack

theorem stack_of_blockedOn {stack : List Frame} {c : Nat} (h : blockedOn stack = some c) :
    ∃ id spin rest, stack = .waitForSyncReply c id spin .wait :: rest := by
  unfold blockedOn at h
  split at h
  case h_1 =>
    cases h
    exact ⟨_, _, _, rfl⟩
  case h_2 => cases h

theorem blockedOn_of_clientRuns {stack : List Frame} (h : clientRuns stack = true) :
    blockedOn stack = none := by
  unfold clientRuns at h
  split at h
  · rfl
  · rfl
  · cases h

theorem polls_iff_of_head {f g : Frame} (stack : List Frame)
    (hf : ∀ c id spin, f ≠ .waitForSyncReply c id spin .loop)
    (hg : ∀ c id spin, g ≠ .waitForSyncReply c id spin .loop)
    (hreq : ∀ c, f.requestOn c = g.requestOn c) :
    Polls (f :: stack) ↔ Polls (g :: stack) := by
  have hpol : ∀ k : Frame, (∀ c id spin, k ≠ .waitForSyncReply c id spin .loop) →
      (Polls (k :: stack) ↔ ∀ c, requestsOn c (k :: stack) = []) := by
    intro k hk
    unfold Polls
    split
    case h_1 heq => exact absurd (List.cons.inj heq).1 (hk _ _ _)
    case h_2 => exact Iff.rfl
  rw [hpol f hf, hpol g hg]
  simp only [requestsOn_cons, hreq]

namespace Awake

theorem initial : Awake {} := ⟨by simp [blockedOn], by simp⟩

theorem of_quiet (h : Awake s) (hs : s'.stack = s.stack)
    (hsm : s'.waitForSyncReplySemaphore = false → s.waitForSyncReplySemaphore = false)
    (hqui : ∀ c, s'.waitForSyncReplySemaphore = false → (s.connection c).Quiet →
      (s'.connection c).Quiet)
    (hqud : s'.messagesToDispatch ≠ [] →
      s'.waitForSyncReplySemaphore = true ∨ 0 < s'.wakeUps ∨ Polls s.stack) : Awake s' := by
  refine ⟨?_, ?_⟩
  · intro c hblk huns
    rw [hs] at hblk
    exact hqui c huns (h.quiet c hblk (hsm huns))
  · rw [hs]
    exact hqud

theorem of_stack (hblk : blockedOn s'.stack = none) (hqud : s'.messagesToDispatch ≠ [] →
      s'.waitForSyncReplySemaphore = true ∨ 0 < s'.wakeUps ∨ Polls s'.stack) : Awake s' := by
  refine ⟨?_, hqud⟩
  intro c hc
  rw [hblk] at hc
  cases hc

theorem of_set (h : Awake s) {c : Nat} {connection : Connection}
    (hcn : s'.connection = (s.setConnection c connection).connection)
    (hstk : s'.stack = s.stack)
    (hsm : s'.waitForSyncReplySemaphore = false → s.waitForSyncReplySemaphore = false)
    (hq : s'.messagesToDispatch = s.messagesToDispatch) (hwakeUps : s'.wakeUps = s.wakeUps)
    (hqui : s'.waitForSyncReplySemaphore = false → (s.connection c).Quiet →
      connection.Quiet) : Awake s' := by
  refine h.of_quiet hstk hsm ?_ ?_
  · intro d huns hd
    rw [hcn, connection_setConnection]
    split
    case isTrue heq =>
      rw [heq] at hd
      exact hqui huns hd
    case isFalse => exact hd
  · intro hne
    rw [hq] at hne
    rw [hwakeUps]
    rcases h.queued hne with hset | hrest
    · left
      cases hs : s'.waitForSyncReplySemaphore with
      | true => rfl
      | false => exact absurd (hset.symm.trans (hsm hs)) (by simp)
    · exact .inr hrest

/-- A reply that leaves the semaphore unset is not the one that the last request waits for. -/
theorem reply (h : Awake s) {r : SyncReply} {pendingSyncReplies : List PendingSyncReply}
    {isLast : Bool}
    (hrc : receiveReply r (s.connection r.connection).pendingSyncReplies =
      some (pendingSyncReplies, isLast)) :
    Awake ((s.setConnection r.connection
      { s.connection r.connection with
        pendingSyncReplies := pendingSyncReplies }).wakeUpClientRunLoopIf isLast) := by
  refine h.of_set rfl rfl (fun huns => (Bool.or_eq_false_iff.mp huns).1) rfl rfl ?_
  intro huns hqui
  obtain rfl : isLast = false := (Bool.or_eq_false_iff.mp huns).2
  refine ⟨hqui.isOpen, ?_⟩
  intro pend hls
  exact hqui.last pend ((getLast?_receiveReply hrc).symm.trans hls)

theorem close (h : Awake s) (hreq : Requested s) (c : Nat) : Awake (s.connectionDidClose c) := by
  refine ⟨?_, ?_⟩
  · intro d hblk huns
    obtain ⟨huns, hpn⟩ := Bool.or_eq_false_iff.mp huns
    change blockedOn s.stack = some d at hblk
    have hne : d ≠ c := by
      rintro rfl
      obtain ⟨id, spin, rest, hs⟩ := stack_of_blockedOn hblk
      refine hreq.pending_ne_nil hs ?_
      simpa using hpn
    have hsm : (s.connectionDidClose c).connection d = s.connection d :=
      (connection_setConnection _ _ _ _).trans (if_neg hne)
    rw [hsm]
    exact h.quiet d hblk huns
  · intro hne
    rcases h.queued hne with hset | hrest
    · exact .inl (Bool.or_eq_true_iff.mpr (.inl hset))
    · exact .inr hrest

theorem check (h : Awake s) {c id : Nat} {spin : Bool} {stack : List Frame}
    {pend : PendingSyncReply} (hs : s.stack = .waitForSyncReply c id spin .check :: stack)
    (hls : (s.connection c).pendingSyncReplies.getLast? = some pend) :
    Awake { s with
      stack := .waitForSyncReply c id spin (afterCheck (s.connection c) pend spin) :: stack } := by
  have hqud : s.messagesToDispatch ≠ [] → s.waitForSyncReplySemaphore = true ∨ 0 < s.wakeUps := by
    intro hne
    refine or_assoc.mpr (h.queued hne) |>.resolve_right ?_
    rw [hs]
    exact fun hpol => requestsOn_wait_ne_nil (hpol c)
  refine ⟨?_, fun hne => or_assoc.mp (.inl (hqud hne))⟩
  intro d hblk _
  show (s.connection d).Quiet
  unfold afterCheck at hblk
  split at hblk
  case isTrue => cases hblk
  case isFalse hnth =>
    rw [Bool.or_eq_true_iff, not_or] at hnth
    split at hblk
    case isTrue => cases hblk
    case isFalse =>
      split at hblk
      case isTrue => cases hblk
      case isFalse =>
        obtain rfl : c = d := some.inj hblk
        refine ⟨by simpa using hnth.2, ?_⟩
        intro p hp
        obtain rfl : pend = p := some.inj (hls.symm.trans hp)
        simpa using hnth.1

theorem step (h : Awake s) (hreq : Requested s) (hnst : Nested s.stack) (hs : Step s e s') :
    Awake s' := by
  -- the queue and its signals stay, and so does who polls
  have hqud : s'.messagesToDispatch = s.messagesToDispatch →
      s'.waitForSyncReplySemaphore = s.waitForSyncReplySemaphore → s'.wakeUps = s.wakeUps →
      (Polls s.stack → Polls s'.stack) → s'.messagesToDispatch ≠ [] →
      s'.waitForSyncReplySemaphore = true ∨ 0 < s'.wakeUps ∨ Polls s'.stack := by
    intro hq hset hw hpol hne
    rw [hq] at hne
    rw [hset, hw]
    exact (h.queued hne).imp_right (Or.imp_right hpol)
  cases hs with
  | arrive c =>
    exact h.of_quiet rfl id (fun _ _ => id) (fun _ => .inr (.inl (Nat.succ_pos _)))
  | signal _ =>
    have hset : (s.waitForSyncReplySemaphore || true) = true := Bool.or_true _
    exact h.of_quiet rfl (fun huns => absurd (hset.symm.trans huns) (by simp))
      (fun _ _ => id) (fun _ => .inl hset)
  | reply r met hrc => exact h.reply hrc
  | close c => exact h.close hreq c
  | runCallback hstk _ =>
    exact .of_stack rfl fun _ => .inr (.inr fun c => rfl)
  | callbackDispatches hstk | loopDispatches hstk =>
    exact .of_stack rfl fun hne => absurd rfl hne
  | dispatch hstk _ _ | discard hstk _ _ | putAside hstk _ | handlerReturns hstk
  | timeOut hstk =>
    refine .of_stack rfl (hqud rfl rfl rfl ?_)
    rw [hstk]
    exact (polls_iff_of_head _ (by simp) (by simp) (fun _ => rfl)).mp
  | @endLoop alw _ _ hstk =>
    rw [hstk] at hnst
    cases alw with
    | none =>
      obtain ⟨rfl, ⟨c, id, spin, r, rfl⟩, _⟩ := hnst
      refine .of_stack rfl (hqud (append_nil _) rfl rfl ?_)
      rw [hstk]
      intro hpol
      have := hpol c
      rw [requestsOn_cons, requestsOn_wait_self] at this
      simp at this
    | some c =>
      obtain rfl := show _ = [] from hnst
      exact .of_stack rfl fun _ => .inr (.inr fun _ => rfl)
  | send c spin _ _ | wake hstk _ => exact .of_stack rfl fun _ => .inr (.inr trivial)
  | failToSend c _ | invalidate c _ | sendFromSecondaryThread c _ | secondaryThreadReturns _ =>
    exact h.of_set rfl rfl id rfl rfl fun _ hq => ⟨hq.isOpen, hq.last⟩
  | check hstk hls => exact h.check hstk hls
  | @pop c _ _ _ _ hstk =>
    rw [hstk] at hnst
    refine .of_stack (blockedOn_of_clientRuns hnst.1) (hqud rfl rfl rfl ?_)
    rw [hstk]
    exact fun hpol => absurd (hpol c) requestsOn_wait_ne_nil
  | secondaryReply r met _ _ | crash r met _ => exact h.of_quiet rfl id (fun _ _ => id) h.queued
  | ignoreReply r met _ => exact h

end Awake

/-! ## Replies reach their sender -/

/-- What holds between any two critical sections. Between a queued message and its signal, the
receive queue has a wake-up to do. -/
structure RepliesReachSender (s : State) : Prop where
  running : s.crashed = false
  own : ∀ r ∈ s.returned, Answers r.connection r.syncRequestID r.reply
  innermost : ∀ c,
    (s.connection c).pendingSyncReplies.getLast?.map PendingSyncReply.syncRequestID =
      (requestsOn c s.stack).getLast?
  awake : ∀ c, blockedOn s.stack = some c → s.waitForSyncReplySemaphore = false →
    (s.connection c).Quiet ∧ (s.messagesToDispatch ≠ [] → 0 < s.wakeUps)

/-- A reply does not carry a reserved key that the table of its connection would find. -/
def KeepsTable (s : State) : Event → Prop
  | .processIncomingSyncReply r met => ¬ FindsReservedKey s r met
  | _ => True

/-- What holds in every state of a run, also after a crash. -/
structure RepliesInv (s : State) : Prop where
  requested : Requested s
  own : Own s
  nested : Nested s.stack
  awake : Awake s

theorem RepliesInv.initial : RepliesInv {} := ⟨.initial, .initial, trivial, .initial⟩

theorem RepliesInv.step (h : RepliesInv s) (hs : Step s e s') : RepliesInv s' :=
  ⟨h.requested.step hs, h.own.step h.requested hs, h.nested.step hs,
    h.awake.step h.requested h.nested hs⟩

theorem not_polls_of_blockedOn {stack : List Frame} {c : Nat} (h : blockedOn stack = some c) :
    ¬ Polls stack := by
  obtain ⟨id, spin, rest, rfl⟩ := stack_of_blockedOn h
  exact fun hpol => requestsOn_wait_ne_nil (hpol c)

theorem RepliesInv.reachSender (h : RepliesInv s) (hr : s.crashed = false) :
    RepliesReachSender s := by
  refine ⟨hr, h.own.returned, ?_, ?_⟩
  · intro c
    rw [← getLast?_map, h.requested.requests c]
  · intro c hblk huns
    refine ⟨h.awake.quiet c hblk huns, ?_⟩
    intro hne
    rcases h.awake.queued hne with hs | hup | hpol
    · simp [hs] at huns
    · exact hup
    · exact absurd hpol (not_polls_of_blockedOn hblk)

theorem Requested.not_findsReservedKey (h : Requested s) {r : SyncReply} {met : Bool}
    {psr : List PendingSyncReply} (hrc : receiveReply r (s.connection
      r.connection).pendingSyncReplies = some (psr, isLast)) :
    ¬ FindsReservedKey s r met := by
  obtain ⟨bef, pend, after, hl, hid, _⟩ := receiveReply_spec hrc
  have hm : r.destinationID ∈ requestsOn r.connection s.stack := by
    rw [← h.requests, hl, ← hid]
    simp
  obtain ⟨hlow, hhg⟩ := h.ids _ _ hm
  rintro (⟨hk, _⟩ | ⟨hk, _⟩)
  · exact absurd hk (Nat.ne_of_gt hlow)
  · exact absurd hk (Nat.ne_of_lt hhg)

theorem crashed_step (h : Requested s) (hr : s.crashed = false) (hs : Step s e s') :
    s'.crashed = false ↔ KeepsTable s e := by
  cases hs with
  | reply r met hrc => exact iff_of_true hr (h.not_findsReservedKey hrc)
  | secondaryReply r met hkp _ | ignoreReply r met hkp => exact iff_of_true hr hkp
  | crash r met hfn => exact iff_of_false (by simp) (fun hkp => hkp hfn)
  | failToSend c he =>
    rcases he with rfl | ⟨spin, rfl⟩
    · exact iff_of_true hr trivial
    · exact iff_of_true hr trivial
  | _ => exact iff_of_true hr trivial

/-- **Replies reach their sender.** In every state of a run every call has returned
nothing or its own reply, the last pending reply is the one of the innermost request, and
the main thread is not blocked while there is something to look at, if and only if no reply
finds a reserved key in the table of the secondary threads. -/
theorem replies_reach_sender (events : List Event) :
    AllStates step RepliesReachSender {} events ↔ AllSteps step KeepsTable {} events := by
  have hinv : ∀ s e s', RepliesInv s → step s e = some s' → RepliesInv s' := fun _ _ _ h hs =>
    h.step (cases_of_step hs)
  refine allStates_iff_allSteps hinv ?_ .initial (RepliesInv.initial.reachSender rfl)
  intro s e s' h hP hs
  have hs := cases_of_step hs
  rw [← crashed_step h.requested hP.running hs]
  exact ⟨fun hP' => hP'.running, (h.step hs).reachSender⟩

/-- The table has buckets, since a secondary thread waits. A reply to request 0, which nobody made,
goes to the null pointer of an empty one. -/
theorem reply_to_nobody_crashes : ∃ events s, run step {} events = some s ∧
    s.crashed = true ∧ ¬ RepliesReachSender s := by
  refine ⟨[.sendSyncMessageFromSecondaryThread 0, .processIncomingSyncReply ⟨0, 0⟩ false], _, rfl,
    rfl, ?_⟩
  intro h
  exact absurd h.running (by decide)

end WebKit.Ipc
