import WebKit.Ipc.SyncMessages
import Mathlib.Data.List.Perm.Basic

/-!
# The order of messages dispatched while waiting

A message that `SyncMessageState` queues is dispatched, discarded for want of a client, queued, or
held by a call of `dispatchMessages` on the stack, which will dispatch it or put it back. An event
moves messages between these lists (`Messages`) in one of six ways (`Move`).

The `agenda` is the order in which they are going to be dispatched: what the calls on the stack
dispatch, then the queue, then what the calls put back. 
-/

namespace WebKit.Ipc

open Runs List State

/-- Two messages of one connection are in the order of their arrival. -/
def InOrder (a b : ConnectionAndIncomingMessage) : Prop :=
  a.connection = b.connection → a.message < b.message

instance (a b : ConnectionAndIncomingMessage) : Decidable (InOrder a b) := by
  unfold InOrder
  infer_instance

/-! ## The lists of messages -/

/-- Where the messages are. -/
structure Messages where
  dispatched : List ConnectionAndIncomingMessage
  discarded : List ConnectionAndIncomingMessage
  /-- On the stack, to be dispatched by the call that holds them. -/
  toDispatch : List ConnectionAndIncomingMessage
  queue : List ConnectionAndIncomingMessage
  /-- On the stack, to be put back by the call that holds them. -/
  toPutBack : List ConnectionAndIncomingMessage
  arrived : List ConnectionAndIncomingMessage

def Frame.toDispatch : Frame → List ConnectionAndIncomingMessage
  | .dispatchMessages allowed messages _ _ => messages.filter (State.isAllowed allowed)
  | _ => []

def Frame.toPutBack : Frame → List ConnectionAndIncomingMessage
  | .dispatchMessages allowed messages putBack _ =>
    putBack ++ messages.filter (fun m => !State.isAllowed allowed m)
  | _ => []

def State.messages (s : State) : Messages where
  dispatched := s.dispatched
  discarded := s.discarded
  toDispatch := s.stack.flatMap Frame.toDispatch
  queue := s.messagesToDispatch
  toPutBack := s.stack.flatMap Frame.toPutBack
  arrived := s.arrived

namespace Messages

variable (v : Messages)

/-- The messages that are not dispatched yet, in the order in which they will be. -/
def agenda : List ConnectionAndIncomingMessage :=
  v.toDispatch ++ v.queue ++ v.toPutBack

/-- What was dispatched and what is going to be is in the order of arrival. -/
def Ordered : Prop := (v.dispatched ++ v.agenda).Pairwise InOrder

/-- Every message that arrived is in one place, and in no place twice. -/
def Conserved : Prop := (v.dispatched ++ v.discarded ++ v.agenda).Perm v.arrived

/-- Messages are numbered as they arrive. -/
def Numbered : Prop :=
  ∀ (i : Nat) (m : ConnectionAndIncomingMessage), v.arrived[i]? = some m → m.message = i

/-- The message that arrives next on a connection. -/
def newMessage (c : Nat) : ConnectionAndIncomingMessage := ⟨c, v.arrived.length⟩

/-- What an event does to the messages, and when it keeps the order. -/
inductive Move (v : Messages) : Prop → Messages → Prop
  | stay : Move v True v
  | arrive (c : Nat) :
      Move v (∀ m ∈ v.toPutBack, m.connection ≠ c)
        { v with
          queue := v.queue ++ [v.newMessage c]
          arrived := v.arrived ++ [v.newMessage c] }
  | take (allowed : Option Nat) :
      Move v (∀ x ∈ v.toDispatch, ∀ y ∈ v.queue, State.isAllowed allowed y = true →
          x.connection ≠ y.connection)
        { v with
          toDispatch := v.queue.filter (State.isAllowed allowed) ++ v.toDispatch
          queue := []
          toPutBack := v.queue.filter (fun m => !State.isAllowed allowed m) ++ v.toPutBack }
  | dispatch {m : ConnectionAndIncomingMessage} {rest : List ConnectionAndIncomingMessage} :
      v.toDispatch = m :: rest →
      Move v True { v with toDispatch := rest, dispatched := v.dispatched ++ [m] }
  | discard {m : ConnectionAndIncomingMessage} {rest : List ConnectionAndIncomingMessage} :
      v.toDispatch = m :: rest →
      Move v True { v with toDispatch := rest, discarded := v.discarded ++ [m] }
  | putBack {aside rest : List ConnectionAndIncomingMessage} :
      v.toPutBack = aside ++ rest →
      Move v True { v with queue := v.queue ++ aside, toPutBack := rest }

variable {v v' : Messages} {C : Prop}

/-! ### One move -/

theorem Numbered.move (h : v.Numbered) (hmv : Move v C v') : v'.Numbered := by
  cases hmv with
  | stay | take alw | dispatch _ | discard _ | putBack _ => exact h
  | arrive c =>
    intro i m hi
    rcases Nat.lt_trichotomy i v.arrived.length with hlt | rfl | hgt
    · exact h i m (by rwa [getElem?_append_left hlt] at hi)
    · rw [getElem?_concat_length] at hi
      exact Option.some.inj hi ▸ rfl
    · rw [getElem?_eq_none (by rw [length_append]; exact hgt)] at hi
      cases hi

theorem Conserved.move (h : v.Conserved) (hmv : Move v C v') : v'.Conserved := by
  unfold Conserved agenda at h ⊢
  cases hmv with
  | stay => exact h
  | arrive c =>
    refine List.Perm.trans ?_ (h.append_right [v.newMessage c])
    simp only [append_assoc]
    refine List.Perm.append_left _ (List.Perm.append_left _ (List.Perm.append_left _
      (List.Perm.append_left _ ?_)))
    exact perm_append_comm
  | take alw =>
    refine List.Perm.trans ?_ h
    simp only [append_assoc, nil_append]
    refine List.Perm.append_left _ (List.Perm.append_left _ ?_)
    -- what the call takes and what it puts aside is the queue
    calc v.queue.filter (isAllowed alw) ++ (v.toDispatch ++
            (v.queue.filter (fun m => !isAllowed alw m) ++ v.toPutBack))
        |>.Perm (v.toDispatch ++ (v.queue.filter (isAllowed alw) ++
            (v.queue.filter (fun m => !isAllowed alw m) ++ v.toPutBack))) := by
          rw [← append_assoc, ← append_assoc v.toDispatch]
          exact List.Perm.append_right _ perm_append_comm
      _ |>.Perm (v.toDispatch ++ (v.queue ++ v.toPutBack)) := by
          rw [← append_assoc (v.queue.filter _)]
          exact List.Perm.append_left _ (List.Perm.append_right _ (filter_append_perm _ _))
  | dispatch hd =>
    refine List.Perm.trans ?_ h
    rw [hd]
    simp only [append_assoc, cons_append, nil_append]
    refine List.Perm.append_left _ ?_
    exact perm_middle.symm
  | discard hd =>
    refine List.Perm.trans ?_ h
    rw [hd]
    simp only [append_assoc, cons_append, nil_append]
    exact List.Perm.refl _
  | putBack hb =>
    refine List.Perm.trans ?_ h
    rw [hb]
    simp only [append_assoc]
    exact List.Perm.refl _

theorem message_lt (hc : v.Conserved) (hn : v.Numbered) {m : ConnectionAndIncomingMessage}
    (hm : m ∈ v.dispatched ∨ m ∈ v.agenda) : m.message < v.arrived.length := by
  have hmem : m ∈ v.arrived := by
    refine hc.mem_iff.mp ?_
    rcases hm with hm | hm
    · exact mem_append_left _ (mem_append_left _ hm)
    · exact mem_append_right _ hm
  obtain ⟨i, hi⟩ := mem_iff_getElem?.mp hmem
  rw [hn i m hi]
  exact (List.getElem?_eq_some_iff.mp hi).1

/-- A new message at the end of the queue: no message of its connection is put back later. -/
theorem ordered_arrive_iff (hc : v.Conserved) (hn : v.Numbered) (ho : v.Ordered) (c : Nat) :
    (v.dispatched ++ (v.toDispatch ++ (v.queue ++ [v.newMessage c]) ++
        v.toPutBack)).Pairwise InOrder ↔ ∀ m ∈ v.toPutBack, m.connection ≠ c := by
  unfold Ordered agenda at ho
  have hfst : v.dispatched ++ (v.toDispatch ++ (v.queue ++ [v.newMessage c]) ++
      v.toPutBack) = (v.dispatched ++ v.toDispatch ++ v.queue) ++
        ([v.newMessage c] ++ v.toPutBack) := by
    simp only [append_assoc]
  have hbef : (v.dispatched ++ v.toDispatch ++ v.queue ++ v.toPutBack).Pairwise InOrder := by
    simpa only [append_assoc] using ho
  obtain ⟨hold, hbc, hcrs⟩ := pairwise_append.mp hbef
  rw [hfst]
  constructor
  · intro h m hm hcn
    obtain ⟨_, hnew, _⟩ := pairwise_append.mp h
    have hlt := (pairwise_append.mp hnew).2.2 _ mem_cons_self m hm hcn.symm
    have := message_lt hc hn (.inr (mem_append_right _ hm))
    exact absurd hlt (Nat.not_lt.mpr (Nat.le_of_lt this))
  · intro hco
    refine pairwise_append.mpr ⟨hold, pairwise_append.mpr ⟨pairwise_singleton _ _, hbc, ?_⟩, ?_⟩
    · intro a ha b hb hcn
      rw [mem_singleton.mp ha] at hcn
      exact absurd hcn.symm (hco b hb)
    · intro a ha b hb
      rcases mem_append.mp hb with hb | hb
      · -- the new message has the largest number
        rw [mem_singleton.mp hb]
        intro _
        refine message_lt hc hn ?_
        simp only [agenda, mem_append] at ha ⊢
        tauto
      · exact hcrs a ha b hb

/-- A call takes the queue: what it dispatches overtakes what the outer calls have left. -/
theorem ordered_take_iff (ho : v.Ordered) (alw : Option Nat) :
    (v.dispatched ++ (v.queue.filter (isAllowed alw) ++ v.toDispatch ++ [] ++
        (v.queue.filter (fun m => !isAllowed alw m) ++ v.toPutBack))).Pairwise InOrder ↔
      ∀ x ∈ v.toDispatch, ∀ y ∈ v.queue, isAllowed alw y = true → x.connection ≠ y.connection := by
  unfold Ordered agenda at ho
  simp only [append_nil, append_assoc, pairwise_append, mem_append] at ho ⊢
  obtain ⟨hp, ⟨hd, ⟨hq, hb, hqb⟩, hdr⟩, hpr⟩ := ho
  constructor
  · rintro ⟨_, ⟨_, _, hnew⟩, _⟩ x hx y hy hay hcn
    have h1 := hdr x hx y (.inl hy) hcn
    have h2 := hnew y (mem_filter.mpr ⟨hy, hay⟩) x (.inl hx) hcn.symm
    exact absurd h1 (Nat.not_lt.mpr (Nat.le_of_lt h2))
  · intro hco
    refine ⟨hp, ⟨hq.filter _, ⟨hd, ⟨hq.filter _, hb, ?_⟩, ?_⟩, ?_⟩, ?_⟩
    · exact fun a ha b hb => hqb a (mem_of_mem_filter ha) b hb
    · rintro a ha b (hb | hb)
      · exact hdr a ha b (.inl (mem_of_mem_filter hb))
      · exact hdr a ha b (.inr hb)
    · intro a ha b hb
      obtain ⟨haq, haa⟩ := mem_filter.mp ha
      rcases hb with hb | hb | hb
      · exact fun hcn => absurd hcn.symm (hco b hb a haq haa)
      · -- a message of the allowed connection and one of another
        obtain ⟨_, hbn⟩ := mem_filter.mp hb
        intro hcn
        unfold isAllowed at haa hbn
        cases alw with
        | none => cases hbn
        | some c =>
          rw [← hcn, ← haa] at hbn
          simp at hbn
      · exact hqb a haq b hb
    · rintro a ha b (hb | hb | hb | hb)
      · exact hpr a ha b (.inr (.inl (mem_of_mem_filter hb)))
      · exact hpr a ha b (.inl hb)
      · exact hpr a ha b (.inr (.inl (mem_of_mem_filter hb)))
      · exact hpr a ha b (.inr (.inr hb))

/-- **One move and the order.** -/
theorem ordered_move_iff (hc : v.Conserved) (hn : v.Numbered) (ho : v.Ordered)
    (hmv : Move v C v') : v'.Ordered ↔ C := by
  cases hmv with
  | stay => exact iff_of_true ho trivial
  | arrive c => exact ordered_arrive_iff hc hn ho c
  | take alw => exact ordered_take_iff ho alw
  | dispatch hd =>
    refine iff_of_true ?_ trivial
    unfold Ordered agenda at ho ⊢
    rw [hd] at ho
    simpa only [append_assoc, cons_append, nil_append] using ho
  | discard hd =>
    refine iff_of_true ?_ trivial
    unfold Ordered agenda at ho ⊢
    rw [hd] at ho
    refine ho.sublist (List.Sublist.append_left ?_ _)
    exact sublist_cons_self _ _
  | putBack hb =>
    refine iff_of_true ?_ trivial
    unfold Ordered agenda at ho ⊢
    rw [hb] at ho
    simpa only [append_assoc] using ho

end Messages

/-! ## One event -/

/-- The connection that `dispatchMessages` is called for. -/
def calledFor : List Frame → Option Nat
  | .callback c :: _ => some c
  | _ => none

/-- An event keeps the order: no message arrives on a connection while a call for another one holds
messages of it, and no call takes a message whose connection has one that an outer call still has to
dispatch. -/
def KeepsOrder (s : State) : Event → Prop
  | .processIncomingMessage c => ∀ m ∈ s.messages.toPutBack, m.connection ≠ c
  | .callDispatchMessages =>
    ∀ x ∈ s.messages.toDispatch, ∀ y ∈ s.messages.queue,
      State.isAllowed (calledFor s.stack) y = true → x.connection ≠ y.connection
  | _ => True

variable {s s' : State} {e : Event}

theorem flatMap_returnFromDispatchMessages (f : Frame → List ConnectionAndIncomingMessage)
    (hf : ∀ c id spin phase, f (.waitForSyncReply c id spin phase) = []) (stack : List Frame) :
    (returnFromDispatchMessages stack).flatMap f = stack.flatMap f := by
  unfold returnFromDispatchMessages
  split
  · simp only [flatMap_cons, hf]
  · rfl

theorem Messages.Move.to {v v' w : Messages} {C : Prop} (h : v.Move C v') (heq : w = v') :
    v.Move C w := heq ▸ h

theorem Messages.Move.of_eq
    (hdi : s'.stack.flatMap Frame.toDispatch = s.stack.flatMap Frame.toDispatch)
    (hpb : s'.stack.flatMap Frame.toPutBack = s.stack.flatMap Frame.toPutBack)
    (hque : s'.messagesToDispatch = s.messagesToDispatch)
    (hdp : s'.dispatched = s.dispatched) (hds : s'.discarded = s.discarded)
    (har : s'.arrived = s.arrived) : s.messages.Move True s'.messages := by
  have heq : s'.messages = s.messages := by
    unfold messages
    rw [hdi, hpb, hque, hdp, hds, har]
  rw [heq]
  exact .stay

variable {stack : List Frame}

theorem move_dispatchMessages (alw : Option Nat)
    (hd : stack.flatMap Frame.toDispatch = s.stack.flatMap Frame.toDispatch)
    (hb : stack.flatMap Frame.toPutBack = s.stack.flatMap Frame.toPutBack) :
    s.messages.Move (∀ x ∈ s.messages.toDispatch, ∀ y ∈ s.messages.queue,
        isAllowed alw y = true → x.connection ≠ y.connection)
      (s.dispatchMessages alw stack).messages := by
  have heq : (s.dispatchMessages alw stack).messages =
      { s.messages with
        toDispatch := s.messages.queue.filter (isAllowed alw) ++ s.messages.toDispatch
        queue := []
        toPutBack := s.messages.queue.filter (fun m => !isAllowed alw m) ++
          s.messages.toPutBack } := by
    unfold messages
    rw [← hd, ← hb]
    rfl
  rw [heq]
  exact .take alw

open Messages

/-- **Every event is a move.** -/
theorem move_step (h : Step s e s') : s.messages.Move (KeepsOrder s e) s'.messages := by
  cases h with
  | arrive c => exact .arrive c
  | callbackDispatches hs | loopDispatches hs =>
    unfold KeepsOrder
    rw [hs]
    exact move_dispatchMessages _ (by rw [hs]; rfl) (by rw [hs]; rfl)
  | @dispatch alw m msgs putBack stack hs halw _ =>
    have hd : s.messages.toDispatch =
        m :: (msgs.filter (isAllowed alw) ++ stack.flatMap Frame.toDispatch) := by
      simp [messages, hs, Frame.toDispatch, halw]
    refine (Move.dispatch hd).to ?_
    simp [messages, hs, Frame.toDispatch, Frame.toPutBack, halw]
  | @discard alw m msgs putBack stack hs halw _ =>
    have hd : s.messages.toDispatch =
        m :: (msgs.filter (isAllowed alw) ++ stack.flatMap Frame.toDispatch) := by
      simp [messages, hs, Frame.toDispatch, halw]
    refine (Move.discard hd).to ?_
    simp [messages, hs, Frame.toDispatch, Frame.toPutBack, halw]
  | putAside hs halw =>
    refine .of_eq ?_ ?_ rfl rfl rfl rfl
    · simp [hs, Frame.toDispatch, halw]
    · simp [hs, Frame.toPutBack, halw]
  | @endLoop alw putBack stack hs =>
    have hp : s.messages.toPutBack = putBack ++ stack.flatMap Frame.toPutBack := by
      simp [messages, hs, Frame.toPutBack]
    refine (Move.putBack hp).to ?_
    have hd := flatMap_returnFromDispatchMessages Frame.toDispatch (fun _ _ _ _ => rfl) stack
    have hb := flatMap_returnFromDispatchMessages Frame.toPutBack (fun _ _ _ _ => rfl) stack
    simp [messages, hs, Frame.toDispatch, hd, hb]
  | failToSend c he =>
    rcases he with rfl | ⟨spin, rfl⟩
    · exact .stay
    · exact .stay
  | runCallback hs _ | handlerReturns hs | check hs _ | wake hs _
  | timeOut hs | pop hs =>
    exact .of_eq (by rw [hs]; rfl) (by rw [hs]; rfl) rfl rfl rfl rfl
  | _ => exact .stay

/-! ## Callbacks -/

/-- A queued message has a callback of its connection ahead. -/
structure Scheduled (s : State) : Prop where
  runLoop : s.runLoop = s.didScheduleDispatchMessagesWorkSet
  queue : ∀ m ∈ s.messagesToDispatch, m.connection ∈ s.didScheduleDispatchMessagesWorkSet ∨
    .callback m.connection ∈ s.stack
  putBack : ∀ m ∈ s.stack.flatMap Frame.toPutBack,
    m.connection ∈ s.didScheduleDispatchMessagesWorkSet
  callback : ∀ c, .callback c ∈ s.stack → s.stack = [.callback c]

namespace Scheduled

theorem initial : Scheduled {} := ⟨rfl, by simp, by simp, by simp⟩

section

variable (h : Scheduled s)

include h

section

variable (hrl : s'.runLoop = s.runLoop)
  (hws : s'.didScheduleDispatchMessagesWorkSet = s.didScheduleDispatchMessagesWorkSet)
  (hque : ∀ m ∈ s'.messagesToDispatch, m ∈ s.messagesToDispatch ∨ m ∈ s.stack.flatMap
    Frame.toPutBack)
  (hpb : ∀ m ∈ s'.stack.flatMap Frame.toPutBack, m ∈ s.stack.flatMap Frame.toPutBack)

include hrl hws hque hpb

/-- The set and the run loop stay; the frames put back no more than before and keep a callback. -/
theorem of_stack (hcb : ∀ c, .callback c ∈ s'.stack → .callback c ∈ s.stack)
    (haln : ∀ c, s.stack = [.callback c] → s'.stack = s.stack) : Scheduled s' := by
  refine ⟨?_, ?_, ?_, ?_⟩
  · rw [hrl, hws]
    exact h.runLoop
  · intro m hm
    rw [hws]
    rcases hque m hm with hm | hm
    · rcases h.queue m hm with hmem | hmem
      · exact .inl hmem
      · right
        rw [haln _ (h.callback _ hmem)]
        exact hmem
    · exact .inl (h.putBack m hm)
  · intro m hm
    rw [hws]
    exact h.putBack m (hpb m hm)
  · intro c hc
    have hs := h.callback c (hcb c hc)
    rw [haln c hs, hs]

theorem of_top {frame : Frame} (hstk : s.stack = frame :: stack) (hfrm : ∀ c, frame ≠ .callback c)
    (hcb : ∀ c, .callback c ∈ s'.stack → .callback c ∈ stack) : Scheduled s' := by
  refine h.of_stack hrl hws hque hpb ?_ ?_
  · exact fun c hc => hstk ▸ mem_cons_of_mem _ (hcb c hc)
  · intro c hs
    exact absurd (List.cons.inj (hstk.symm.trans hs)).1 (hfrm c)

end

theorem arrive (c : Nat) : Scheduled (s.processIncomingMessage c) := by
  refine ⟨congrArg (· ++ _) h.runLoop, ?_, ?_, h.callback⟩
  · intro m hm
    rcases mem_append.mp hm with hm | hm
    · exact (h.queue m hm).imp_left (mem_append_left _)
    rw [mem_singleton.mp hm]
    left
    by_cases hc : c ∈ s.didScheduleDispatchMessagesWorkSet
    · exact mem_append_left _ hc
    · refine mem_append_right _ ?_
      rw [if_pos hc]
      exact mem_cons_self
  · exact fun m hm => mem_append_left _ (h.putBack m hm)

theorem runCallback {c : Nat} {runLoop : List Nat} (hs : s.stack = [])
    (hrl : s.runLoop = c :: runLoop) :
    Scheduled { s with
      runLoop := runLoop
      didScheduleDispatchMessagesWorkSet := s.didScheduleDispatchMessagesWorkSet.erase c
      stack := [.callback c] } := by
  have hws := h.runLoop.symm.trans hrl
  have her : s.didScheduleDispatchMessagesWorkSet.erase c = runLoop := by
    rw [hws, erase_cons_head]
  refine ⟨her.symm, ?_, by simp [Frame.toPutBack], ?_⟩
  · intro m hm
    show m.connection ∈ s.didScheduleDispatchMessagesWorkSet.erase c ∨ _
    rw [her]
    rcases h.queue m hm with hmem | hmem
    · rw [hws] at hmem
      rcases mem_cons.mp hmem with hmc | hmc
      · right
        rw [hmc]
        exact mem_cons_self
      · exact .inl hmc
    · rw [hs] at hmem
      cases hmem
  · intro d hd
    rw [mem_singleton.mp hd]

theorem callbackDispatches {c : Nat}
    (hs : s.stack = .callback c :: stack) : Scheduled (s.dispatchMessages (some c) stack) := by
  have ha := h.callback c (hs ▸ mem_cons_self)
  obtain rfl : stack = [] := (List.cons.inj (hs.symm.trans ha)).2
  unfold dispatchMessages
  refine ⟨h.runLoop, by simp, ?_, by simp⟩
  intro m hm
  simp only [Frame.toPutBack, flatMap_cons, flatMap_nil, append_nil, nil_append, mem_filter] at hm
  refine (h.queue m hm.1).resolve_right ?_
  intro hmem
  rw [ha, mem_singleton] at hmem
  have hcn := Frame.callback.inj hmem
  exact absurd hm.2 (by simp [isAllowed, hcn])

theorem step (hs : Step s e s') : Scheduled s' := by
  cases hs with
  | arrive c => exact h.arrive c
  | runCallback hstk hrl => exact h.runCallback hstk hrl
  | callbackDispatches hstk => exact h.callbackDispatches hstk
  | loopDispatches hstk =>
    refine h.of_top rfl rfl (by simp [dispatchMessages]) ?_ hstk (by simp) ?_
    · simp [dispatchMessages, hstk, Frame.toPutBack, isAllowed]
    · simp [dispatchMessages]
  | dispatch hstk halw _ | discard hstk halw _ | putAside hstk halw =>
    refine h.of_top rfl rfl (fun _ => .inl) ?_ hstk (by simp) (by simp)
    simp [hstk, Frame.toPutBack, halw]
  | @endLoop alw putBack stack hstk =>
    have hb := flatMap_returnFromDispatchMessages Frame.toPutBack (fun _ _ _ _ => rfl) stack
    refine h.of_top rfl rfl ?_ ?_ hstk (by simp) ?_
    · intro m hm
      rcases mem_append.mp hm with hm | hm
      · exact .inl hm
      · right
        simp [hstk, Frame.toPutBack, hm]
    · intro m hm
      change m ∈ (returnFromDispatchMessages stack).flatMap Frame.toPutBack at hm
      rw [hb] at hm
      rw [hstk, flatMap_cons]
      exact mem_append_right _ hm
    · intro c hc
      unfold returnFromDispatchMessages at hc
      split at hc
      · simpa using hc
      · exact hc
  | handlerReturns hstk | check hstk _ | wake hstk _ | timeOut hstk | pop hstk =>
    refine h.of_top rfl rfl (fun _ => .inl) ?_ hstk (by simp) (by simp)
    simp [hstk, Frame.toPutBack]
  | send c spin hrn _ =>
    refine h.of_stack rfl rfl (fun _ => .inl) ?_ ?_ ?_
    · simp [Frame.toPutBack]
    · simp
    · intro d hd
      rw [hd] at hrn
      cases hrn
  | _ => exact h.of_stack rfl rfl (fun _ => .inl) (fun _ => id) (fun _ => id) (fun _ _ => rfl)

end

end Scheduled

/-! ## Discarded messages -/

theorem keepsInvalid (h : Step s e s') {c : Nat} (hc : (s.connection c).isValid = false) :
    (s'.connection c).isValid = false := by
  -- one connection is replaced
  have hs : ∀ {d : Nat} {conn : Connection},
      ((s.connection d).isValid = false → conn.isValid = false) →
      ((s.setConnection d conn).connection c).isValid = false := by
    intro d conn hd
    rw [connection_setConnection]
    split
    case isTrue hcd => exact hd (hcd ▸ hc)
    case isFalse => exact hc
  cases h with
  | reply r met _ | close d | send d spin _ _ | failToSend d _ | pop hstk
  | sendFromSecondaryThread d _ | secondaryThreadReturns _ => exact hs id
  | invalidate d _ => exact hs (fun _ => rfl)
  | _ => exact hc

theorem mem_discarded (h : Step s e s') {m : ConnectionAndIncomingMessage} (hm : m ∈ s'.discarded) :
    m ∈ s.discarded ∨ (s.connection m.connection).isValid = false := by
  cases h with
  | discard _ _ hvld =>
    rcases mem_append.mp hm with hm | hm
    · exact .inl hm
    · rw [mem_singleton.mp hm]
      exact .inr hvld
  | _ => exact .inl hm

/-! ## Runs -/

/-- Nothing is dispatched twice, nothing is lost: a message that arrived is dispatched, or its
connection had no client then, or its turn is ahead; and in the run loop a callback is ahead for
every queued message. -/
structure NoneLost (s : State) : Prop where
  once : s.dispatched.Nodup
  kept : ∀ m ∈ s.arrived, m ∈ s.dispatched ∨ m ∈ s.discarded ∨ m ∈ s.messages.agenda
  discarded : ∀ m ∈ s.discarded, (s.connection m.connection).isValid = false
  scheduled : s.stack = [] → ∀ m ∈ s.messagesToDispatch, m.connection ∈ s.runLoop

/-- The invariant of a run. -/
structure Inv (s : State) : Prop where
  numbered : s.messages.Numbered
  conserved : s.messages.Conserved
  scheduled : Scheduled s
  discarded : ∀ m ∈ s.discarded, (s.connection m.connection).isValid = false

theorem Inv.initial : Inv {} :=
  ⟨by simp [Numbered, messages], List.Perm.refl [], .initial, by simp⟩

theorem Inv.step (h : Inv s) (hs : Step s e s') : Inv s' := by
  have hmv := move_step hs
  refine ⟨h.numbered.move hmv, h.conserved.move hmv, h.scheduled.step hs, ?_⟩
  intro m hm
  refine keepsInvalid hs ?_
  rcases mem_discarded hs hm with hm | hm
  · exact h.discarded m hm
  · exact hm

theorem Inv.noneLost (h : Inv s) : NoneLost s := by
  have hnd : s.arrived.Nodup := by
    refine pairwise_iff_getElem.mpr ?_
    intro i j hi hj hij heq
    have hi' := h.numbered i _ (getElem?_eq_getElem hi)
    have hj' := h.numbered j _ (getElem?_eq_getElem hj)
    rw [heq] at hi'
    omega
  have ha : (s.dispatched ++ s.discarded ++ s.messages.agenda).Nodup :=
    h.conserved.nodup_iff.mpr hnd
  refine ⟨?_, ?_, h.discarded, ?_⟩
  · exact (nodup_append.mp (nodup_append.mp ha).1).1
  · intro m hm
    have hmem : m ∈ s.dispatched ++ s.discarded ++ s.messages.agenda := h.conserved.mem_iff.mpr hm
    simpa only [mem_append, or_assoc] using hmem
  · intro hs m hm
    rw [h.scheduled.runLoop]
    refine (h.scheduled.queue m hm).resolve_right ?_
    rw [hs]
    exact not_mem_nil

/-- **The order of dispatch.** No message is lost or dispatched twice. What a run has
dispatched and is going to dispatch is in the order of arrival, for each connection, at
every time, if and only if every event of the run keeps the order. -/
theorem messages_keep_order (events : List Event) :
    AllStates step NoneLost {} events ∧
      (AllStates step (fun s => s.messages.Ordered) {} events ↔
        AllSteps step KeepsOrder {} events) := by
  have hinv : ∀ s e s', Inv s → step s e = some s' → Inv s' := fun _ _ _ h hs =>
    h.step (cases_of_step hs)
  constructor
  · exact (invariant hinv .initial events).mono fun _ h => h.noneLost
  · refine allStates_iff_allSteps hinv ?_ .initial List.Pairwise.nil
    intro s e s' h ho hs
    exact ordered_move_iff h.conserved h.numbered ho (move_step (cases_of_step hs))

/-- While connection 0's message is handled, connection 1 gets a second one; its first is put back
behind. -/
theorem messages_overtake : ∃ events s, run step {} events = some s ∧
    s.dispatched = [⟨0, 0⟩, ⟨1, 2⟩, ⟨1, 1⟩] ∧ ¬ s.dispatched.Pairwise InOrder := by
  refine ⟨[.processIncomingMessage 0, .processIncomingMessage 1, .runCallback,
    .callDispatchMessages, .nextMessage, .processIncomingMessage 1, .handlerReturns,
    .nextMessage, .nextMessage, .runCallback, .callDispatchMessages, .nextMessage,
    .handlerReturns, .nextMessage], _, rfl, rfl, ?_⟩
  show ¬ List.Pairwise InOrder [⟨0, 0⟩, ⟨1, 2⟩, ⟨1, 1⟩]
  decide

end WebKit.Ipc
