import WebKit.Ipc.UnixTransport

/-!
# Receiving from a hostile peer

Which headers `processMessage` can be given without an access out of bounds. The lengths in a
header are added modulo `2 ^ 64` before they are compared with the number of bytes received; the
numbers of descriptors and attachments are not compared with anything.
-/

namespace WebKit.Ipc.Unix

open List Except

/-! ## Computations without a fault -/

/-- The computation returns, or the program crashes. -/
def Safe {α : Type} (x : Except Fault α) : Prop := ∀ f, x = .error f → f = .crash

section

variable {α β : Type}

theorem safe_ok (v : α) : Safe (.ok v : Except Fault α) := by
  rintro f ⟨⟩

theorem safe_crash : Safe (.error .crash : Except Fault α) := by
  intro f h
  exact (error.inj h).symm

theorem not_safe_outOfBounds (bounds : Bounds) :
    ¬ Safe (.error (.outOfBounds bounds) : Except Fault α) := by
  intro h
  exact absurd (h _ rfl) (by simp)

theorem safe_ite {p : Prop} [Decidable p] {bounds : Bounds} {v : α} :
    Safe (if p then .error (.outOfBounds bounds) else .ok v : Except Fault α) ↔ ¬ p := by
  split
  case isTrue h => exact iff_of_false (not_safe_outOfBounds _) (not_not_intro h)
  case isFalse h => exact iff_of_true (safe_ok _) h

variable {f : α → Except Fault β} {x : Except Fault α}

theorem safe_bind : Safe (x >>= f) ↔ Safe x ∧ ∀ v, x = .ok v → Safe (f v) := by
  cases x with
  | error e =>
    constructor
    · exact fun h =>
        ⟨fun f hf => h f (error.inj hf ▸ rfl), nofun⟩
    · exact fun h f hf => h.1 f (error.inj hf ▸ rfl)
  | ok v =>
    constructor
    · intro h
      refine ⟨safe_ok v, fun w hw => ?_⟩
      obtain rfl := ok.inj hw
      exact h
    · exact fun h => h.2 v rfl

theorem exists_of_bind_eq_ok {w : β} (h : x >>= f = .ok w) : ∃ v, x = .ok v ∧ f v = .ok w := by
  cases x with
  | error e => cases h
  | ok v => exact ⟨v, rfl, h⟩

end

namespace Connection

/-! ## The parts of `processMessage` -/

open AttachmentInfo

/-- The elements of the array of `AttachmentInfo`. -/
def attachmentInfos (c : Connection) (attachmentCount : Nat) : List AttachmentInfo :=
  (chunks attachmentInfoSize attachmentCount (c.readBuffer.drop messageInfoSize)).map
    read

theorem length_attachmentInfos (c : Connection) (n : Nat) : (c.attachmentInfos n).length = n := by
  rw [attachmentInfos, length_map, length_chunks]

variable {n i count : Nat} {c : Connection} {infos : List AttachmentInfo} {info : MessageInfo}

theorem safe_readAttachmentInfo (c : Connection) (hn : n * attachmentInfoSize < 2 ^ 64) :
    Safe (c.readAttachmentInfo n) →
      messageInfoSize + n * attachmentInfoSize ≤ c.readBuffer.length := by
  unfold readAttachmentInfo
  rw [if_neg (Nat.not_le.mpr hn), safe_ite]
  exact Nat.not_lt.mp

theorem readAttachmentInfo_of_le
    (h : messageInfoSize + n * attachmentInfoSize ≤ c.readBuffer.length) :
    c.readAttachmentInfo n = .ok (c.attachmentInfos n) := by
  have hmax := c.readBuffer_le
  unfold messageMaxSize at hmax
  unfold readAttachmentInfo
  rw [if_neg (by omega), if_neg (Nat.not_lt.mpr h)]
  rfl

theorem fileDescriptor_of_lt (h : i < c.fileDescriptors.length) :
    c.fileDescriptor i = .ok c.fileDescriptors[i] := by
  rw [fileDescriptor, getElem?_eq_getElem h]

theorem fileDescriptor_of_le (h : c.fileDescriptors.length ≤ i) (hi : i < attachmentMaxAmount) :
    c.fileDescriptor i = .error (.outOfBounds .fileDescriptors) := by
  rw [fileDescriptor, getElem?_eq_none h]
  exact if_pos hi

theorem makeAttachments_of_le
    (h : i + infos.countP hasFileDescriptor ≤ c.fileDescriptors.length) :
    ∃ attachments, c.makeAttachments infos i = .ok attachments := by
  induction infos generalizing i with
  | nil => exact ⟨[], rfl⟩
  | cons info rest ih =>
    rw [countP_cons] at h
    rw [makeAttachments]
    cases hfd : info.hasFileDescriptor with
    | false =>
      rw [hfd, if_neg Bool.false_ne_true] at h
      obtain ⟨attachments, hrest⟩ := ih h
      rw [if_neg Bool.false_ne_true, hrest]
      exact ⟨_, rfl⟩
    | true =>
      rw [hfd, if_pos rfl] at h
      obtain ⟨attachments, hrest⟩ := ih (i := i + 1) (by omega)
      rw [if_pos rfl, fileDescriptor_of_lt (by omega)]
      show ∃ a, (c.makeAttachments rest (i + 1) >>= _) = .ok a
      rw [hrest]
      exact ⟨_, rfl⟩

theorem not_safe_makeAttachments (hi : i ≤ c.fileDescriptors.length)
    (hmax : i + infos.length ≤ attachmentMaxAmount)
    (h : c.fileDescriptors.length < i + infos.countP hasFileDescriptor) :
    ¬ Safe (c.makeAttachments infos i) := by
  induction infos generalizing i with
  | nil => exact absurd h (Nat.not_lt.mpr hi)
  | cons info rest ih =>
    rw [length_cons] at hmax
    rw [countP_cons] at h
    rw [makeAttachments]
    cases hfd : info.hasFileDescriptor with
    | false =>
      rw [hfd, if_neg Bool.false_ne_true] at h
      rw [if_neg Bool.false_ne_true, safe_bind]
      exact fun hsf => ih hi (by omega) h hsf.1
    | true =>
      rw [hfd, if_pos rfl] at h
      by_cases hlt : i < c.fileDescriptors.length
      · rw [fileDescriptor_of_lt hlt]
        show ¬ Safe (c.makeAttachments rest (i + 1) >>= _)
        rw [safe_bind]
        exact fun hsf => ih hlt (by omega) (by omega) hsf.1
      · rw [fileDescriptor_of_le (Nat.not_lt.mp hlt) (by omega)]
        exact not_safe_outOfBounds _

theorem safe_compact (c : Connection) (mlen count : Nat) :
    Safe (c.compact mlen count) ↔
      ¬ (count < c.fileDescriptors.length ∧ c.fileDescriptors.length < count * 4) := by
  unfold compact
  dsimp only
  split
  case isTrue h => exact iff_of_true (safe_ok _) (by omega)
  case isFalse h =>
    split
    case isTrue hlt =>
      rw [safe_ite, and_iff_right hlt]
      refine not_congr ⟨fun ho => Nat.lt_of_not_le fun hge => ?_, fun hl => ?_⟩
      · rw [BitVec.toNat_sub, BitVec.toNat_ofNat, BitVec.toNat_ofNat] at ho
        omega
      · omega
    case isFalse hge => exact iff_of_true (safe_ok _) (fun h => hge h.1)

theorem fileDescriptor_last (hc : count ≤ attachmentMaxAmount) :
    c.fileDescriptor (BitVec.ofNat 64 count - 1).toNat =
      if count = 0 then .error .crash else c.fileDescriptor (count - 1) := by
  have hmax := c.fileDescriptors_le
  unfold attachmentMaxAmount at hc hmax
  have hi : (BitVec.ofNat 64 count - 1).toNat = (2 ^ 64 - 1 + count) % 2 ^ 64 := by
    show (2 ^ 64 - 1 + count % 2 ^ 64) % 2 ^ 64 = _
    omega
  rw [hi]
  split
  case isTrue h =>
    subst h
    rw [fileDescriptor, getElem?_eq_none (by omega)]
    rfl
  case isFalse h => rw [show (2 ^ 64 - 1 + count) % 2 ^ 64 = count - 1 by omega]

theorem safe_mappedBody {mapping : Mapping} {fd : FileDescriptor} {size : BitVec 64}
    {bsz : Nat} : Safe (mappedBody mapping fd size bsz) ↔
      ∀ data, mapping.map fd size = some data → bsz ≤ data.length := by
  unfold mappedBody
  cases hm : mapping.map fd size with
  | none => exact iff_of_true (safe_ok _) nofun
  | some data =>
    dsimp only
    rw [safe_ite, Nat.not_lt]
    simp

/-- The body in shared memory is not longer than the memory. -/
structure OutOfLineBodyFits (c : Connection) (mapping : Mapping) (infos : List AttachmentInfo)
    (attachmentCount count bodySize : Nat) : Prop where
  attachmentCount_lt : attachmentCount < infos.length
  fileDescriptor_lt : infos[attachmentCount].isNull = false → count ≤ c.fileDescriptors.length
  body_le : infos[attachmentCount].isNull = false → 0 < count → ∀ fd data,
    c.fileDescriptors[count - 1]? = some fd →
      mapping.map fd infos[attachmentCount].size = some data → bodySize ≤ data.length

theorem safe_outOfLineBody (c : Connection) (mapping : Mapping) {attachmentCount : Nat}
    (bodySize : Nat) (hc : count ≤ attachmentMaxAmount) :
    Safe (c.outOfLineBody mapping infos attachmentCount count bodySize) ↔
      c.OutOfLineBodyFits mapping infos attachmentCount count bodySize := by
  unfold outOfLineBody
  by_cases hlt : attachmentCount < infos.length
  · rw [getElem?_eq_getElem hlt]
    dsimp only
    cases hnl : infos[attachmentCount].isNull with
    | true =>
      refine iff_of_true (safe_ok _) ⟨hlt, ?_, ?_⟩
      · rw [hnl]
        exact nofun
      · rw [hnl]
        exact nofun
    | false =>
      rw [if_neg Bool.false_ne_true, fileDescriptor_last hc]
      by_cases hp : 0 < count
      · rw [if_neg (Nat.pos_iff_ne_zero.mp hp)]
        by_cases hle : count ≤ c.fileDescriptors.length
        · have hls : count - 1 < c.fileDescriptors.length := by omega
          rw [fileDescriptor_of_lt hls]
          show Safe (mappedBody _ _ _ _) ↔ _
          rw [safe_mappedBody]
          constructor
          · intro h
            refine ⟨hlt, fun _ => hle, fun _ _ fd data hfd => ?_⟩
            rw [getElem?_eq_getElem hls] at hfd
            exact Option.some.inj hfd ▸ h data
          · intro h data
            exact h.body_le hnl hp _ data (getElem?_eq_getElem hls)
        · rw [fileDescriptor_of_le (by omega) (by omega)]
          exact iff_of_false (not_safe_outOfBounds _) (fun h => hle (h.fileDescriptor_lt hnl))
      · rw [if_pos (by omega)]
        exact iff_of_true safe_crash ⟨hlt, fun _ => by omega, fun _ h => absurd h hp⟩
  · rw [getElem?_eq_none (Nat.not_lt.mp hlt)]
    exact iff_of_false (not_safe_outOfBounds _) (fun h => hlt h.attachmentCount_lt)

theorem safe_inlineBody (c : Connection) (bsz : Nat)
    (hn : messageInfoSize + n * attachmentInfoSize ≤ c.readBuffer.length) :
    Safe (c.inlineBody n bsz) ↔
      messageInfoSize + n * attachmentInfoSize + bsz ≤ c.readBuffer.length := by
  unfold inlineBody
  dsimp only
  rw [length_drop, safe_ite]
  omega

/-! ## Honest messages -/

/-- The attachments of a message without the one for its body. -/
def listedCount (info : MessageInfo) : Nat :=
  if info.isMessageBodyOutOfLine then info.attachmentCount.toNat - 1
  else info.attachmentCount.toNat

/-- The descriptors that a message says it has. -/
def descriptorCount (c : Connection) (info : MessageInfo) : Nat :=
  (c.attachmentInfos info.attachmentCount.toNat).countP hasFileDescriptor

/-- The body of a message as the header describes it. -/
def bodyOf (c : Connection) (mapping : Mapping) (info : MessageInfo) :
    Except Fault (Option (List Byte)) :=
  c.messageBody mapping info (c.attachmentInfos info.attachmentCount.toNat) (listedCount info)
    (c.descriptorCount info)

/-- A header that describes what has been received. -/
structure Honest (c : Connection) (mapping : Mapping) (info : MessageInfo) : Prop where
  attachmentInfo_le :
    messageInfoSize + info.attachmentCount.toNat * attachmentInfoSize ≤ c.readBuffer.length
  fileDescriptors_le :
    ((c.attachmentInfos info.attachmentCount.toNat).take (listedCount info)).countP
      hasFileDescriptor ≤ c.fileDescriptors.length
  inline_le : info.isMessageBodyOutOfLine = false →
    messageInfoSize + info.attachmentCount.toNat * attachmentInfoSize + info.bodySize.toNat ≤
      c.readBuffer.length
  outOfLine_le : info.isMessageBodyOutOfLine = true →
    c.OutOfLineBodyFits mapping (c.attachmentInfos info.attachmentCount.toNat) (listedCount info)
      (c.descriptorCount info) info.bodySize.toNat
  -- descriptors of later messages are moved as if there were at least three times as many
  later : (∃ body, c.bodyOf mapping info = .ok (some body)) →
    ¬ (c.descriptorCount info < c.fileDescriptors.length ∧
      c.fileDescriptors.length < c.descriptorCount info * 4)

theorem descriptorCount_le (c : Connection) (info : MessageInfo) :
    c.descriptorCount info ≤ info.attachmentCount.toNat := by
  have h := countP_le_length (p := hasFileDescriptor)
    (l := c.attachmentInfos info.attachmentCount.toNat)
  rwa [length_attachmentInfos] at h

theorem safe_bodyOf (c : Connection) (mapping : Mapping) (info : MessageInfo)
    (hn : messageInfoSize + info.attachmentCount.toNat * attachmentInfoSize ≤ c.readBuffer.length) :
    Safe (c.bodyOf mapping info) ↔
      (info.isMessageBodyOutOfLine = false →
        messageInfoSize + info.attachmentCount.toNat * attachmentInfoSize + info.bodySize.toNat ≤
          c.readBuffer.length) ∧
      (info.isMessageBodyOutOfLine = true →
        c.OutOfLineBodyFits mapping (c.attachmentInfos info.attachmentCount.toNat)
          (listedCount info) (c.descriptorCount info) info.bodySize.toNat) := by
  have hc := c.descriptorCount_le info
  have hmax := c.readBuffer_le
  unfold bodyOf messageBody
  cases hool : info.isMessageBodyOutOfLine with
  | false =>
    have hls : listedCount info = info.attachmentCount.toNat := by
      rw [listedCount, hool]
      rfl
    rw [if_neg Bool.false_ne_true, hls, safe_inlineBody c _ hn]
    exact ⟨fun h => ⟨fun _ => h, nofun⟩, fun h => h.1 rfl⟩
  | true =>
    rw [if_pos rfl, safe_outOfLineBody c mapping _ (by
      unfold messageInfoSize attachmentInfoSize messageMaxSize at *
      unfold attachmentMaxAmount
      omega)]
    exact ⟨fun h => ⟨nofun, fun _ => h⟩, fun h => h.2 rfl⟩

theorem processComplete_eq (c : Connection) (mapping : Mapping)
    (h : messageInfoSize + info.attachmentCount.toNat * attachmentInfoSize ≤ c.readBuffer.length) :
    c.processComplete mapping info =
      c.makeAttachments
          ((c.attachmentInfos info.attachmentCount.toNat).take (listedCount info)) 0 >>=
        fun attachments => c.bodyOf mapping info >>=
          c.handOn info (c.descriptorCount info) attachments := by
  unfold processComplete
  rw [readAttachmentInfo_of_le h]
  show c.makeAttachments (List.take (if info.isMessageBodyOutOfLine = true then _ else _) _) 0 >>=
    _ = _
  rw [length_attachmentInfos]
  rfl

theorem safe_handOn (c : Connection) {atts : List Attachment} {body : Option (List Byte)} :
    Safe (c.handOn info count atts body) ↔ (body ≠ none →
      ¬ (count < c.fileDescriptors.length ∧ c.fileDescriptors.length < count * 4)) := by
  cases body with
  | none => exact iff_of_true (safe_ok _) (fun h => absurd rfl h)
  | some body =>
    rw [handOn, safe_bind, safe_compact]
    exact ⟨fun h _ => h.1, fun h => ⟨h (by simp), fun _ _ => safe_ok _⟩⟩

/-- A complete message is processed safely exactly if its header is honest. -/
theorem safe_processComplete (c : Connection) (mapping : Mapping)
    (hn : info.attachmentCount.toNat * attachmentInfoSize < 2 ^ 64) :
    Safe (c.processComplete mapping info) ↔ c.Honest mapping info := by
  by_cases hft : messageInfoSize + info.attachmentCount.toNat * attachmentInfoSize ≤
      c.readBuffer.length
  · rw [processComplete_eq c mapping hft, safe_bind]
    constructor
    · rintro ⟨hmk, hrest⟩
      have hds : ((c.attachmentInfos info.attachmentCount.toNat).take
          (listedCount info)).countP hasFileDescriptor ≤
            c.fileDescriptors.length := by
        refine Nat.le_of_not_lt fun hlt => ?_
        refine not_safe_makeAttachments (Nat.zero_le _) ?_ (by omega) hmk
        have hmax := c.readBuffer_le
        have hl := length_attachmentInfos c info.attachmentCount.toNat
        unfold messageInfoSize attachmentInfoSize messageMaxSize at *
        rw [length_take]
        unfold attachmentMaxAmount
        omega
      obtain ⟨atts, hatt⟩ := makeAttachments_of_le (Nat.le_trans (Nat.le_of_eq (zero_add _)) hds)
      obtain ⟨hbd, hhn⟩ := safe_bind.mp (hrest atts hatt)
      obtain ⟨hinl, houtOfLine⟩ := (safe_bodyOf c mapping info hft).mp hbd
      refine ⟨hft, hds, hinl, houtOfLine, ?_⟩
      rintro ⟨body, hok⟩
      exact (safe_handOn c).mp (hhn _ hok) (by simp)
    · intro h
      refine ⟨?_, fun atts _ => ?_⟩
      · obtain ⟨atts, hatt⟩ := makeAttachments_of_le
          (Nat.le_trans (Nat.le_of_eq (Nat.zero_add _)) h.fileDescriptors_le)
        exact hatt ▸ safe_ok atts
      rw [safe_bind, safe_bodyOf c mapping info hft]
      refine ⟨⟨h.inline_le, h.outOfLine_le⟩, fun body hbd => ?_⟩
      rw [safe_handOn]
      intro hso
      obtain ⟨body, rfl⟩ := Option.ne_none_iff_exists'.mp hso
      exact h.later ⟨body, hbd⟩
  · refine iff_of_false ?_ (fun h => hft h.attachmentInfo_le)
    intro h
    exact hft (safe_readAttachmentInfo c hn (safe_bind.mp h).1)

/-- A message that is processed: all its bytes are there, as far as `processMessage` can tell, and
there is memory for its attachments. -/
def IsProcessed (c : Connection) (info : MessageInfo) : Prop :=
  messageInfoSize ≤ c.readBuffer.length ∧ info = MessageInfo.read c.readBuffer ∧
    info.messageLength.toNat ≤ c.readBuffer.length ∧
      info.attachmentCount.toNat * attachmentInfoSize < 2 ^ 64

/-- **One call.** `processMessage` is safe exactly if the header is honest. -/
theorem safe_processMessage (c : Connection) (mapping : Mapping) :
    Safe (c.processMessage mapping) ↔ ∀ info, c.IsProcessed info → c.Honest mapping info := by
  unfold processMessage
  split
  case isTrue hsht =>
    refine iff_of_true (safe_ok _) (fun info h => ?_)
    exact absurd h.1 (Nat.not_le.mpr hsht)
  case isFalse hln =>
    split
    case isTrue hin =>
      refine iff_of_true (safe_ok _) (fun info h => ?_)
      obtain ⟨_, rfl, hle, _⟩ := h
      exact absurd hle (Nat.not_le.mpr hin)
    case isFalse hcm =>
      by_cases hn : (MessageInfo.read c.readBuffer).attachmentCount.toNat * attachmentInfoSize <
          2 ^ 64
      · rw [safe_processComplete c mapping hn]
        constructor
        · rintro h info ⟨_, rfl, _⟩
          exact h
        · intro h
          exact h _ ⟨Nat.not_lt.mp hln, rfl, Nat.not_lt.mp hcm, hn⟩
      · -- the array cannot be allocated
        have hcsh : c.readAttachmentInfo
            (MessageInfo.read c.readBuffer).attachmentCount.toNat = .error .crash :=
          if_pos (Nat.not_lt.mp hn)
        refine iff_of_true ?_ (fun info h => ?_)
        · unfold processComplete
          rw [hcsh]
          exact safe_crash
        · obtain ⟨_, rfl, _, hlt⟩ := h
          exact absurd hlt hn

end Connection

/-! ## Runs -/

namespace Connection

variable {c c' : Connection} {mapping : Mapping}

theorem Honest.toNat_messageLength {info : MessageInfo} (h : c.Honest mapping info) :
    info.messageLength.toNat = messageInfoSize + info.attachmentCount.toNat * attachmentInfoSize +
      if info.isMessageBodyOutOfLine then 0 else info.bodySize.toNat := by
  have hmax := c.readBuffer_le
  have hft := h.attachmentInfo_le
  have hbd : info.isMessageBodyOutOfLine = false → _ := h.inline_le
  unfold messageInfoSize attachmentInfoSize messageMaxSize at *
  unfold MessageInfo.messageLength messageInfoSize attachmentInfoSize
  rw [BitVec.toNat_add, BitVec.toNat_add, BitVec.toNat_mul, BitVec.toNat_ofNat]
  cases hool : info.isMessageBodyOutOfLine with
  | true =>
    simp only [if_true]
    show (_ + (0 : BitVec 64).toNat) % 2 ^ 64 = _
    rw [show (0 : BitVec 64).toNat = 0 from rfl]
    omega
  | false =>
    have := hbd hool
    simp only [Bool.false_eq_true, if_false]
    omega

theorem readBuffer_of_compact {messageLength count : Nat}
    (h : c.compact messageLength count = .ok c') :
    c'.readBuffer = c.readBuffer.drop messageLength := by
  unfold compact at h
  dsimp only at h
  split at h
  · exact ok.inj h ▸ rfl
  split at h
  · split at h
    · cases h
    · exact ok.inj h ▸ rfl
  · exact ok.inj h ▸ rfl

theorem safe_readBytesFromSocket (c : Connection) (bs : List Byte) (fds : List FileDescriptor) :
    Safe (c.readBytesFromSocket bs fds) ↔
      c.fileDescriptors.length + (fds.take attachmentMaxAmount).length ≤ attachmentMaxAmount := by
  unfold readBytesFromSocket
  dsimp only
  split
  case isTrue h => exact iff_of_true (safe_ok _) h
  case isFalse h => exact iff_of_false (not_safe_outOfBounds _) h

variable {message : Message}

theorem readBuffer_of_processMessage (h : c.processMessage mapping = .ok (some (message, c'))) :
    ∃ info, c.IsProcessed info ∧ c'.readBuffer = c.readBuffer.drop info.messageLength.toNat := by
  unfold processMessage at h
  split at h
  · cases h
  case isFalse hln =>
    split at h
    · cases h
    case isFalse hcm =>
      obtain ⟨infos, hin, h⟩ := exists_of_bind_eq_ok h
      obtain ⟨atts, _, h⟩ := exists_of_bind_eq_ok h
      obtain ⟨body, _, h⟩ := exists_of_bind_eq_ok h
      cases body with
      | none => cases h
      | some body =>
        obtain ⟨c₁, hcmp, h⟩ := exists_of_bind_eq_ok h
        obtain rfl : c₁ = c' := (Prod.mk.inj (Option.some.inj (ok.inj h))).2
        refine ⟨_, ⟨Nat.not_lt.mp hln, rfl, Nat.not_lt.mp hcm, ?_⟩, readBuffer_of_compact hcmp⟩
        refine Nat.lt_of_not_le fun hge => ?_
        rw [readAttachmentInfo, if_pos hge] at hin
        cases hin

theorem length_lt_of_processMessage (h : c.processMessage mapping = .ok (some (message, c')))
    (hhon : ∀ info, c.IsProcessed info → c.Honest mapping info) :
    c'.readBuffer.length < c.readBuffer.length := by
  obtain ⟨info, hin, hdrop⟩ := readBuffer_of_processMessage h
  have hl := (hhon info hin).toNat_messageLength
  have hln := hin.1
  rw [hdrop, length_drop]
  unfold messageInfoSize at *
  omega

end Connection

/-- The condition for each message that is processed after a read. -/
def HonestMessages (mappings : Nat → Mapping) : Nat → Receiver → Prop
  | 0, _ => True
  | fuel + 1, s =>
    (∀ info, s.connection.IsProcessed info →
      s.connection.Honest (mappings s.messages.length) info) ∧
    ∀ message connection,
      s.connection.processMessage (mappings s.messages.length) =
          .ok (some (message, connection)) →
        HonestMessages mappings fuel (s.handedOn message connection)

variable (mappings : Nat → Mapping)

open Receiver

/-- The inner loop ends, and is safe exactly if all messages are honest. -/
theorem safe_processMessages (fuel : Nat) (s : Receiver)
    (hfl : s.connection.readBuffer.length < fuel) :
    Safe (s.processMessages mappings fuel) ↔ HonestMessages mappings fuel s := by
  induction fuel generalizing s with
  | zero => omega
  | succ fuel ih =>
    rw [processMessages, HonestMessages, safe_bind, Connection.safe_processMessage]
    refine and_congr_right fun hhon => ?_
    have hrest : ∀ message conn,
        s.connection.processMessage (mappings s.messages.length) =
            .ok (some (message, conn)) →
          (Safe ((s.handedOn message conn).processMessages mappings fuel) ↔
            HonestMessages mappings fuel (s.handedOn message conn)) := by
      intro message conn h
      have hlt := Connection.length_lt_of_processMessage h hhon
      exact ih (s.handedOn message conn) (Nat.lt_of_lt_of_le hlt (Nat.le_of_lt_succ hfl))
    constructor
    · exact fun h message conn heq => (hrest message conn heq).mp (h _ heq)
    · intro h v hv
      match v with
      | none => exact safe_ok _
      | some (message, conn) =>
        exact (hrest message conn hv).mpr (h message conn hv)

/-- The condition for a read: there is room for its descriptors, and its messages are honest. -/
def HonestRead (s : Receiver) : Read → Prop
  | .failed => True
  | .data bytes fileDescriptors =>
    s.connection.fileDescriptors.length + (fileDescriptors.take attachmentMaxAmount).length ≤
        attachmentMaxAmount ∧
      ∀ connection, s.connection.readBytesFromSocket bytes fileDescriptors = .ok connection →
        connection.readBuffer.length ≠ s.connection.readBuffer.length →
          HonestMessages mappings (connection.readBuffer.length + 1)
            { s with connection := connection }

def HonestReads (mappings : Nat → Mapping) : Receiver → List Read → Prop
  | _, [] => True
  | s, read :: rest => s.isConnected = true →
      HonestRead mappings s read ∧
        ∀ s', s.readyRead mappings read = .ok s' → HonestReads mappings s' rest

theorem safe_readyRead (s : Receiver) (read : Read) :
    Safe (s.readyRead mappings read) ↔ HonestRead mappings s read := by
  cases read with
  | failed => exact iff_of_true (safe_ok _) trivial
  | data bs fds =>
    rw [readyRead, HonestRead, safe_bind, Connection.safe_readBytesFromSocket]
    refine and_congr_right fun _ => forall_congr' fun connection => imp_congr_right fun _ => ?_
    split
    case isTrue h => exact iff_of_true (safe_ok _) (fun hne => absurd h hne)
    case isFalse h =>
      have hlp := safe_processMessages mappings (connection.readBuffer.length + 1)
        { s with connection := connection } (Nat.lt_succ_self _)
      exact hlp.trans ⟨fun ha _ => ha, fun ha => ha h⟩

/-- **Hostile peers.** Whatever arrives on the socket, in whatever pieces: the connection makes no
access out of bounds and does not hang if and only if all messages are honest and the descriptors
have room. -/
theorem receiving_safe (mappings : Nat → Mapping) (s : Receiver) (reads : List Read) :
    Safe (s.receive mappings reads) ↔ HonestReads mappings s reads := by
  induction reads generalizing s with
  | nil => exact iff_of_true (safe_ok _) trivial
  | cons read rest ih =>
    rw [receive, HonestReads]
    cases hconnected : s.isConnected with
    | false => exact iff_of_true (safe_ok _) nofun
    | true =>
      rw [if_pos rfl, safe_bind, safe_readyRead]
      constructor
      · exact fun h _ => ⟨h.1, fun s' hs' => (ih s').mp (h.2 s' hs')⟩
      · intro h
        exact ⟨(h rfl).1, fun s' hs' => (ih s').mpr ((h rfl).2 s' hs')⟩

/-- No memory can be mapped. -/
def noMapping : Mapping := ⟨fun _ _ => none, nofun⟩

/-- A header whose length wraps to zero. -/
def wrappedHeader : List Byte := (MessageInfo.mk (-24) 0 false).bytes fun _ => 0

/-- A decoder is handed a body of `2 ^ 64 - 24` bytes. -/
theorem wrapped_header_not_safe :
    initial.receive (fun _ => noMapping) [.data wrappedHeader []] =
        .error (.outOfBounds .body) ∧
      ¬ Safe (initial.receive (fun _ => noMapping) [.data wrappedHeader []]) := by
  have hfault : initial.receive (fun _ => noMapping) [.data wrappedHeader []] =
      .error (.outOfBounds .body) := rfl
  refine ⟨hfault, ?_⟩
  exact not_safe_outOfBounds .body

end WebKit.Ipc.Unix
