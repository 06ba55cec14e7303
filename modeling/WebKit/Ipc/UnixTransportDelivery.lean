import WebKit.Ipc.UnixTransportSafety

/-!
# Delivery of messages

What one side sends, the other side hands on: the same messages in the same order, each with its
body and its attachments. The bytes arrive in any pieces, and the descriptors of a message with its
first byte.

A message has to fit in the read buffer, with the array of its attachments. And the descriptors of
two messages must not be in the buffer together, since the receiver takes a number of bytes for a
number of descriptors when it moves the second ones.
-/

namespace WebKit.Ipc.Unix

open List Function AttachmentInfo Connection

/-! ## Headers -/

theorem member_append {a b : List Byte} {off size : Nat} (ha : a.length = off)
    (hb : b.length = size) (c : List Byte) : member off size (a ++ (b ++ c)) = ofBytes b := by
  rw [member, drop_left' ha, take_left' hb]

theorem member_zero {b : List Byte} {size : Nat} (hb : b.length = size) (c : List Byte) :
    member 0 size (b ++ c) = ofBytes b := member_append (a := []) rfl hb c

theorem ofBytes_toNat (v : BitVec 64) : BitVec.ofNat 64 (ofBytes (toBytes 8 v.toNat)) = v := by
  rw [ofBytes_toBytes, Nat.mod_eq_of_lt (by omega), BitVec.ofNat_toNat, BitVec.setWidth_eq]

theorem ofBytes_boolByte (b : Bool) : decide (ofBytes (boolByte b) ≠ 0) = b := by
  cases b with
  | false => rfl
  | true => rfl

theorem length_boolByte (b : Bool) : (boolByte b).length = 1 := rfl

namespace MessageInfo

theorem length_bytes (info : MessageInfo) (junk : Nat → Byte) :
    (info.bytes junk).length = messageInfoSize := by
  simp [bytes, length_toBytes, length_boolByte, messageInfoSize]

theorem read_bytes (info : MessageInfo) (junk : Nat → Byte) (more : List Byte) :
    read (info.bytes junk ++ more) = info := by
  have hsz := length_toBytes 8 info.bodySize.toNat
  have hc := length_toBytes 8 info.attachmentCount.toNat
  unfold read bytes
  rw [append_assoc, append_assoc, member_append (by simp [hsz, hc])
      (length_boolByte _), append_assoc, member_zero hsz, member_append hsz hc,
    ofBytes_toNat, ofBytes_toNat, ofBytes_boolByte]

end MessageInfo

namespace AttachmentInfo

theorem length_bytes (info : AttachmentInfo) (junk : Nat → Byte) :
    (info.bytes junk).length = attachmentInfoSize := by
  simp [bytes, length_toBytes, length_boolByte, attachmentInfoSize]

theorem read_bytes (info : AttachmentInfo) (junk : Nat → Byte) : read (info.bytes junk) = info := by
  have hty := length_toBytes 4 info.type.value
  have hsz := length_toBytes 8 info.size.toNat
  have hv : info.type.value % 256 ^ 4 = info.type.value := by
    cases info.type with
    | uninitialized | socketType | mappedMemoryType => rfl
  unfold read bytes
  rw [append_assoc, member_append (by simp [hty, hsz]) (length_boolByte _),
    append_assoc, member_append (by simp [hty]) hsz, append_assoc,
    member_zero hty, ofBytes_toBytes, hv, AttachmentType.ofValue_value, ofBytes_toNat,
    ofBytes_boolByte]

theorem hasFileDescriptor_ofAttachment (a : Attachment) :
    (ofAttachment a).hasFileDescriptor = decide (a.fileDescriptor ≠ noFileDescriptor) := by
  cases a with
  | uninitialized => rfl
  | socket fd | mappedMemory fd size => exact (decide_not).symm

theorem attachment_ofAttachment (a : Attachment) :
    (ofAttachment a).attachment a.fileDescriptor = a := by
  cases a with
  | uninitialized => rfl
  | socket fd => rfl
  | mappedMemory fd size => rfl

end AttachmentInfo

/-- The descriptors of attachments that have one. -/
def descriptorsOf (attachments : List Attachment) : List FileDescriptor :=
  (attachments.map Attachment.fileDescriptor).filter (· ≠ noFileDescriptor)

theorem descriptorsOf_append (as bs : List Attachment) :
    descriptorsOf (as ++ bs) = descriptorsOf as ++ descriptorsOf bs := by
  simp [descriptorsOf]

theorem countP_ofAttachment (atts : List Attachment) :
    (atts.map ofAttachment).countP hasFileDescriptor = (descriptorsOf atts).length := by
  unfold descriptorsOf
  rw [countP_map, ← countP_eq_length_filter, countP_map]
  refine countP_congr fun a _ => ?_
  show (ofAttachment a).hasFileDescriptor = true ↔ _
  rw [hasFileDescriptor_ofAttachment]
  rfl

theorem Connection.makeAttachments_eq {c : Connection} {attachments : List Attachment} {i : Nat}
    {later : List FileDescriptor}
    (h : c.fileDescriptors.drop i = descriptorsOf attachments ++ later) :
    c.makeAttachments (attachments.map ofAttachment) i = .ok attachments := by
  induction attachments generalizing i with
  | nil => rfl
  | cons a rest ih =>
    rw [map_cons, makeAttachments, hasFileDescriptor_ofAttachment]
    by_cases hfd : a.fileDescriptor = noFileDescriptor
    · rw [if_neg (by simp [hfd]), ih (by rw [h]; simp [descriptorsOf, hfd])]
      show Except.ok ((ofAttachment a).attachment noFileDescriptor :: rest) = _
      rw [← hfd, attachment_ofAttachment]
    have hdrop : c.fileDescriptors.drop i = a.fileDescriptor :: (descriptorsOf rest ++ later) := by
      rw [h]
      simp [descriptorsOf, hfd]
    have hg : c.fileDescriptors[i]? = some a.fileDescriptor := by
      rw [← head?_drop, hdrop]
      rfl
    have hrest : c.fileDescriptors.drop (i + 1) = descriptorsOf rest ++ later := by
      rw [← tail_drop, hdrop]
      rfl
    rw [if_pos (by simp [hfd]), fileDescriptor, hg]
    show (c.makeAttachments (rest.map ofAttachment) (i + 1) >>= _) = _
    rw [ih hrest]
    show Except.ok ((ofAttachment a).attachment a.fileDescriptor :: rest) = _
    rw [attachment_ofAttachment]

theorem Connection.compact_eq {c : Connection} {own later : List FileDescriptor}
    (h : c.fileDescriptors = own ++ later) (haln : own = [] ∨ later = []) (mlen : Nat) :
    ∃ c', c.compact mlen own.length = .ok c' ∧
      c'.readBuffer = c.readBuffer.drop mlen ∧ c'.fileDescriptors = later := by
  unfold compact
  by_cases ho : own.length = 0
  · obtain rfl := length_eq_zero_iff.mp ho
    exact ⟨_, rfl, rfl, h⟩
  obtain rfl := haln.resolve_left (fun hnil => ho (by rw [hnil]; rfl))
  have hl : ¬ own.length < c.fileDescriptors.length := by
    rw [h, append_nil]
    exact Nat.lt_irrefl _
  rw [if_neg ho, if_neg hl]
  exact ⟨_, rfl, rfl, rfl⟩

namespace OutgoingMessage

variable (m : OutgoingMessage) (handle : FileDescriptor) (junk : Nat → Nat → Byte)

/-- The array of `AttachmentInfo` as it is sent. -/
def infoBytes : List Byte :=
  (m.allAttachments handle).zipIdx.flatMap fun p =>
    (AttachmentInfo.ofAttachment p.1).bytes (junk (p.2 + 1))

/-- The body as it is sent. -/
def inlineBytes : List Byte := if m.isOutOfLine then [] else m.body

theorem bytes_eq : m.bytes handle junk =
    (m.messageInfo handle).bytes (junk 0) ++ (m.infoBytes handle junk ++ m.inlineBytes) :=
  append_assoc _ _ _

theorem length_infoBytes : (m.infoBytes handle junk).length =
    (m.allAttachments handle).length * attachmentInfoSize := by
  unfold infoBytes
  rw [length_flatMap_of_size (fun p => length_bytes _ _), length_zipIdx]

theorem length_bytes : (m.bytes handle junk).length =
    messageInfoSize + (m.allAttachments handle).length * attachmentInfoSize +
      m.inlineBytes.length := by
  rw [bytes_eq, length_append, length_append, MessageInfo.length_bytes, length_infoBytes, add_assoc]

theorem length_allAttachments :
    (m.allAttachments handle).length = m.attachments.length + if m.isOutOfLine then 1 else 0 := by
  unfold allAttachments
  split
  · rw [length_append]
    rfl
  · rfl

variable {m}

theorem toNat_attachmentCount (hm : m.attachments.length < attachmentMaxAmount) :
    (m.messageInfo handle).attachmentCount.toNat = (m.allAttachments handle).length := by
  have hl := m.length_allAttachments handle
  show (BitVec.ofNat 64 _).toNat = _
  rw [BitVec.toNat_ofNat, hl]
  unfold attachmentMaxAmount at hm
  split
  · omega
  · omega

theorem toNat_bodySize : (m.messageInfo handle).bodySize.toNat = m.body.length := by
  have := m.body_lt
  show (BitVec.ofNat 64 _).toNat = _
  rw [BitVec.toNat_ofNat]
  omega

theorem toNat_messageLength (hm : m.attachments.length < attachmentMaxAmount) :
    (m.messageInfo handle).messageLength.toNat = (m.bytes handle junk).length := by
  have hc := toNat_attachmentCount handle hm
  have hl := m.length_allAttachments handle
  have hbd := m.body_lt
  have hsz := toNat_bodySize (m := m) handle
  rw [length_bytes]
  unfold MessageInfo.messageLength inlineBytes
  rw [BitVec.toNat_add, BitVec.toNat_add, BitVec.toNat_mul, BitVec.toNat_ofNat,
    BitVec.toNat_ofNat, hc]
  unfold attachmentMaxAmount at hm
  unfold messageInfoSize attachmentInfoSize
  show (_ + (if m.isOutOfLine = true then (0 : BitVec 64) else _).toNat) % _ = _
  split
  case isTrue hool =>
    rw [if_pos hool] at hl
    rw [show (0 : BitVec 64).toNat = 0 from rfl, length_nil]
    omega
  case isFalse hool =>
    rw [if_neg hool] at hl
    omega

end OutgoingMessage

/-! ## The first message in the buffer -/

/-- A message with what the system chose: the shared memory's descriptor and bytes that hold
anything. -/
structure Sent where
  message : OutgoingMessage
  handle : FileDescriptor
  junk : Nat → Nat → Byte

namespace Sent

def bytes (m : Sent) : List Byte := m.message.bytes m.handle m.junk

def info (m : Sent) : MessageInfo := m.message.messageInfo m.handle

def attachments (m : Sent) : List Attachment := m.message.allAttachments m.handle

def fileDescriptors (m : Sent) : List FileDescriptor := descriptorsOf m.attachments

/-- `sendOutgoingMessage` returns true. -/
def IsSent (m : Sent) : Prop :=
  sendOutgoingMessage m.message m.handle m.junk = some (m.bytes, m.fileDescriptors)

/-- The shared memory maps the bytes that were written. -/
def IsMapped (m : Sent) (mapping : Mapping) : Prop :=
  m.message.isOutOfLine = true → m.handle ≠ noFileDescriptor ∧
    mapping.map m.handle (BitVec.ofNat 64 m.message.body.length) = some m.message.body

theorem IsSent.lt {m : Sent} (h : m.IsSent) :
    m.message.attachments.length < attachmentMaxAmount := by
  refine Nat.lt_of_not_le fun hge => ?_
  unfold IsSent sendOutgoingMessage at h
  unfold attachmentMaxAmount at h hge
  rw [if_pos (by omega)] at h
  cases h

section

variable {m : Sent} {c : Connection} {mapping : Mapping} {more : List Byte}
  {later : List FileDescriptor}

section

variable (hbuf : c.readBuffer = m.bytes ++ more)

include hbuf

theorem read_bytes : MessageInfo.read c.readBuffer = m.info := by
  rw [hbuf, bytes, OutgoingMessage.bytes_eq, append_assoc]
  exact MessageInfo.read_bytes _ _ _

theorem attachmentInfos_eq :
    c.attachmentInfos m.attachments.length = m.attachments.map ofAttachment := by
  have hrd : ∀ l : List (Attachment × Nat),
      (l.map fun p => (ofAttachment p.1).bytes (m.junk (p.2 + 1))).map
        AttachmentInfo.read = (l.map Prod.fst).map ofAttachment := by
    intro l
    rw [map_map, map_map]
    refine map_congr_left fun p _ => ?_
    exact AttachmentInfo.read_bytes _ _
  have hch := chunks_flatMap_append (fun p : Attachment × Nat => length_bytes
    (ofAttachment p.1) (m.junk (p.2 + 1))) m.attachments.zipIdx (m.message.inlineBytes ++ more)
  rw [length_zipIdx] at hch
  unfold attachmentInfos
  rw [hbuf, bytes, OutgoingMessage.bytes_eq, append_assoc, drop_left'
    (MessageInfo.length_bytes _ _), append_assoc]
  show (chunks attachmentInfoSize _ (List.flatMap _ m.attachments.zipIdx ++ _)).map _ = _
  rw [hch, hrd, zipIdx_map_fst]

theorem length_le :
    messageInfoSize + m.attachments.length * attachmentInfoSize + m.message.inlineBytes.length +
      more.length = c.readBuffer.length := by
  rw [hbuf, length_append, bytes, OutgoingMessage.length_bytes]
  rfl

end

theorem IsSent.attachmentCount (hm : m.IsSent) :
    m.info.attachmentCount.toNat = m.attachments.length :=
  OutgoingMessage.toNat_attachmentCount m.handle hm.lt

theorem IsSent.messageLength (hm : m.IsSent) : m.info.messageLength.toNat = m.bytes.length :=
  OutgoingMessage.toNat_messageLength m.handle m.junk hm.lt

theorem take_attachments (hm : m.IsSent) :
    m.attachments.take (listedCount m.info) = m.message.attachments := by
  unfold listedCount
  rw [hm.attachmentCount]
  show List.take (if m.message.isOutOfLine = true then _ else _) _ = _
  unfold attachments OutgoingMessage.allAttachments
  split
  · rw [length_append]
    exact take_left' rfl
  · exact take_length

theorem exists_fileDescriptors (m : Sent) :
    ∃ last, m.fileDescriptors = descriptorsOf m.message.attachments ++ last := by
  unfold fileDescriptors attachments OutgoingMessage.allAttachments
  split
  · exact ⟨_, descriptorsOf_append _ _⟩
  · exact ⟨[], (append_nil _).symm⟩

theorem inlineBody_eq (hbuf : c.readBuffer = m.bytes ++ more)
    (hool : m.message.isOutOfLine = false) :
    c.inlineBody m.attachments.length m.message.body.length = .ok (some m.message.body) := by
  have hinl : m.message.inlineBytes = m.message.body := by
    rw [OutgoingMessage.inlineBytes, hool]
    rfl
  have hdt : c.readBuffer.drop (messageInfoSize + m.attachments.length * attachmentInfoSize) =
      m.message.body ++ more := by
    rw [hbuf, bytes, OutgoingMessage.bytes_eq, hinl, ← append_assoc, append_assoc]
    refine drop_left' ?_
    rw [length_append, MessageInfo.length_bytes, OutgoingMessage.length_infoBytes]
    rfl
  unfold inlineBody
  rw [hdt, if_neg (by simp), take_left' rfl]

theorem outOfLineBody_eq (hfds : c.fileDescriptors = m.fileDescriptors ++ later)
    (hmpd : m.IsMapped mapping) (hool : m.message.isOutOfLine = true) :
    c.outOfLineBody mapping (m.attachments.map ofAttachment)
        m.message.attachments.length m.fileDescriptors.length m.message.body.length =
      .ok (some m.message.body) := by
  obtain ⟨hhdl, hmap⟩ := hmpd hool
  have ha : m.attachments = m.message.attachments ++
      [.mappedMemory m.handle (BitVec.ofNat 64 m.message.body.length)] := by
    rw [attachments, OutgoingMessage.allAttachments, if_pos hool]
  -- the descriptor of the shared memory is the last one
  have ho : m.fileDescriptors = descriptorsOf m.message.attachments ++ [m.handle] := by
    rw [fileDescriptors, ha, descriptorsOf_append]
    simp [descriptorsOf, Attachment.fileDescriptor, hhdl]
  have hl : m.fileDescriptors.length = (descriptorsOf m.message.attachments).length + 1 := by
    rw [ho, length_append]
    rfl
  have hle : m.fileDescriptors.length ≤ attachmentMaxAmount := by
    have := c.fileDescriptors_le
    rw [hfds, length_append] at this
    omega
  have hls : c.fileDescriptor (m.fileDescriptors.length - 1) = .ok m.handle := by
    rw [hl, Nat.add_sub_cancel, fileDescriptor, hfds, ho, append_assoc,
      getElem?_append_right (Nat.le_refl _), Nat.sub_self]
    rfl
  unfold outOfLineBody
  rw [ha, map_append, getElem?_append_right (by simp), length_map, Nat.sub_self]
  show (if decide (m.handle = noFileDescriptor) = true then _ else _) = _
  rw [if_neg (by simpa using hhdl), fileDescriptor_last hle, if_neg (by omega), hls]
  show mappedBody mapping m.handle (BitVec.ofNat 64 m.message.body.length) _ = _
  rw [mappedBody, hmap]
  dsimp only
  rw [if_neg (Nat.lt_irrefl _), take_length]

section

variable (hm : m.IsSent) (hbuf : c.readBuffer = m.bytes ++ more)
  (hfds : c.fileDescriptors = m.fileDescriptors ++ later)

include hm hbuf hfds

theorem bodyOf_eq (hmpd : m.IsMapped mapping) :
    c.bodyOf mapping m.info = .ok (some m.message.body) := by
  have hsz : m.info.bodySize.toNat = m.message.body.length :=
    OutgoingMessage.toNat_bodySize m.handle
  have hl := m.message.length_allAttachments m.handle
  unfold bodyOf messageBody listedCount descriptorCount
  rw [hm.attachmentCount, hsz, attachmentInfos_eq hbuf, countP_ofAttachment]
  show (if m.message.isOutOfLine = true then
    c.outOfLineBody mapping _ (if m.message.isOutOfLine = true then _ else _) _ _ else
    c.inlineBody (if m.message.isOutOfLine = true then _ else _) _) = _
  cases hool : m.message.isOutOfLine with
  | true =>
    rw [hool] at hl
    rw [if_pos rfl, if_pos rfl, show m.attachments.length - 1 = m.message.attachments.length by
      rw [attachments, hl, if_pos rfl, Nat.add_sub_cancel]]
    exact outOfLineBody_eq hfds hmpd hool
  | false =>
    exact inlineBody_eq hbuf hool

/-- **One message.** A complete message is handed on as it was sent, and what came after it is left,
if not both have descriptors. -/
theorem processMessage_eq (haln : m.fileDescriptors = [] ∨ later = []) (hmpd : m.IsMapped mapping) :
    ∃ c', c.processMessage mapping =
        .ok (some (⟨m.message.body, m.message.attachments.reverse⟩, c')) ∧
      c'.readBuffer = more ∧ c'.fileDescriptors = later := by
  have hmsg := hm.messageLength
  have hle := length_le hbuf
  have hl : m.bytes.length + more.length = c.readBuffer.length := by
    rw [hbuf, length_append]
  have hatt : c.makeAttachments
      ((c.attachmentInfos m.attachments.length).take (listedCount m.info)) 0 =
        .ok m.message.attachments := by
    obtain ⟨last, ho⟩ := m.exists_fileDescriptors
    rw [attachmentInfos_eq hbuf, ← map_take, take_attachments hm]
    have hdrop : c.fileDescriptors.drop 0 =
        descriptorsOf m.message.attachments ++ (last ++ later) := by
      rw [drop_zero, hfds, ho, append_assoc]
    exact makeAttachments_eq hdrop
  obtain ⟨c', hcmp, hbuf', hfds'⟩ := compact_eq hfds haln m.bytes.length
  refine ⟨c', ?_, ?_, hfds'⟩
  · unfold processMessage
    rw [read_bytes hbuf, if_neg (by omega), if_neg (by omega),
      processComplete_eq c mapping (by rw [hm.attachmentCount]; omega),
      hm.attachmentCount, hatt]
    show (c.bodyOf mapping m.info >>= _) = _
    rw [bodyOf_eq hm hbuf hfds hmpd, descriptorCount, hm.attachmentCount,
      attachmentInfos_eq hbuf, countP_ofAttachment]
    show (c.compact m.info.messageLength.toNat m.fileDescriptors.length >>= _) = _
    rw [hmsg, hcmp]
    rfl
  · rw [hbuf', hbuf]
    exact drop_left' rfl

end

theorem processMessage_eq_none (hm : m.IsSent) (hs : c.readBuffer <+: m.bytes ++ more)
    (hlt : c.readBuffer.length < m.bytes.length) : c.processMessage mapping = .ok none := by
  have hmsg := hm.messageLength
  unfold processMessage
  split
  · rfl
  case isFalse hln =>
    -- the header is there
    have hin : MessageInfo.read c.readBuffer = m.info := by
      have hhd : m.info.bytes (m.junk 0) <+: m.bytes ++ more := by
        exact prefix_append _ _
      obtain ⟨tail, htl⟩ := prefix_of_prefix_length_le hhd hs
        (by rw [MessageInfo.length_bytes]; omega)
      rw [← htl]
      exact MessageInfo.read_bytes _ _ _
    rw [hin, if_pos (by omega)]

end

end Sent

/-! ## The stream -/

/-- A byte of the stream, with the descriptors that arrive with it. -/
abbrev Carrier : Type := Byte × List FileDescriptor

/-- The descriptors of a message arrive with its first byte. -/
def packet : List Byte → List FileDescriptor → List Carrier
  | [], _ => []
  | b :: rest, fileDescriptors => (b, fileDescriptors) :: rest.map fun b => (b, [])

/-- How many messages have descriptors here. -/
def owners (carriers : List Carrier) : Nat := carriers.countP fun x => x.2 ≠ []

theorem map_fst_packet (bytes : List Byte) (fileDescriptors : List FileDescriptor) :
    (packet bytes fileDescriptors).map Prod.fst = bytes := by
  cases bytes with
  | nil => rfl
  | cons b rest => simp [packet, comp_def]

theorem length_packet (bytes : List Byte) (fileDescriptors : List FileDescriptor) :
    (packet bytes fileDescriptors).length = bytes.length := by
  rw [← length_map Prod.fst, map_fst_packet]

theorem flatMap_snd_packet {bytes : List Byte} (hbts : bytes ≠ [])
    (fileDescriptors : List FileDescriptor) :
    (packet bytes fileDescriptors).flatMap Prod.snd = fileDescriptors := by
  cases bytes with
  | nil => exact absurd rfl hbts
  | cons b rest => simp [packet, flatMap_map]

theorem owners_append (l l' : List Carrier) : owners (l ++ l') = owners l + owners l' :=
  countP_append

variable {l : List Carrier}

theorem flatMap_snd_of_owners (h : owners l = 0) : l.flatMap Prod.snd = [] := by
  unfold owners at h
  rw [countP_eq_zero] at h
  rw [flatMap_eq_nil_iff]
  intro x hx
  simpa using h x hx

theorem owners_of_flatMap_snd (h : l.flatMap Prod.snd = []) : owners l = 0 := by
  unfold owners
  rw [countP_eq_zero]
  rw [flatMap_eq_nil_iff] at h
  intro x hx
  simpa using h x hx

theorem length_flatMap_snd_le {n : Nat} (hone : owners l ≤ 1)
    (hl : ∀ x ∈ l, x.2.length ≤ n) : (l.flatMap Prod.snd).length ≤ n := by
  induction l with
  | nil => exact Nat.zero_le _
  | cons x rest ih =>
    have hspl : owners (x :: rest) = owners [x] + owners rest := owners_append [x] rest
    rw [flatMap_cons]
    by_cases hx : x.2 = []
    · rw [hx, nil_append]
      exact ih (by omega) (forall_mem_cons.mp hl).2
    · have hsf : owners [x] = 1 := by simp [owners, hx]
      rw [flatMap_snd_of_owners (by omega), append_nil]
      exact hl x mem_cons_self

namespace Sent

variable (m : Sent)

def stream : List Carrier := packet m.bytes m.fileDescriptors

theorem bytes_ne_nil : m.bytes ≠ [] := by
  intro h
  have hl := OutgoingMessage.length_bytes m.message m.handle m.junk
  rw [show m.message.bytes m.handle m.junk = [] from h] at hl
  unfold messageInfoSize at hl
  rw [length_nil] at hl
  omega

theorem length_stream : m.stream.length = m.bytes.length := length_packet _ _

theorem owners_stream : m.fileDescriptors = [] ∨ 0 < owners m.stream := by
  by_cases h : m.fileDescriptors = []
  · exact .inl h
  · refine .inr (Nat.pos_iff_ne_zero.mpr fun hz => h ?_)
    rw [← flatMap_snd_packet m.bytes_ne_nil m.fileDescriptors]
    exact flatMap_snd_of_owners hz

theorem length_descriptors_le {m : Sent} (hm : m.IsSent) {x : Carrier} (hx : x ∈ m.stream) :
    x.2.length ≤ attachmentMaxAmount := by
  have hle : m.fileDescriptors.length ≤ attachmentMaxAmount := by
    have hflt := length_filter_le (· ≠ noFileDescriptor)
      (m.attachments.map Attachment.fileDescriptor)
    have hl := m.message.length_allAttachments m.handle
    have hlt := hm.lt
    rw [length_map] at hflt
    refine Nat.le_trans hflt ?_
    show (m.message.allAttachments m.handle).length ≤ _
    rw [hl]
    split
    · exact hlt
    · exact Nat.le_of_lt hlt
  unfold stream at hx
  cases hbts : m.bytes with
  | nil => exact absurd hbts m.bytes_ne_nil
  | cons b rest =>
    rw [hbts, packet, mem_cons] at hx
    rcases hx with rfl | hx
    · exact hle
    · obtain ⟨b', _, rfl⟩ := mem_map.mp hx
      exact Nat.zero_le _

/-- What is handed on. -/
def received : Message := ⟨m.message.body, m.message.attachments.reverse⟩

end Sent

/-! ## Reading the stream -/

theorem Connection.readBytesFromSocket_eq (c : Connection) (bytes : List Byte)
    {fileDescriptors : List FileDescriptor}
    (hbts : bytes.length ≤ messageMaxSize - c.readBuffer.length)
    (hfds : c.fileDescriptors.length + fileDescriptors.length ≤ attachmentMaxAmount) :
    ∃ c', c.readBytesFromSocket bytes fileDescriptors = .ok c' ∧
      c'.readBuffer = c.readBuffer ++ bytes ∧
      c'.fileDescriptors = c.fileDescriptors ++ fileDescriptors := by
  have htk : fileDescriptors.take attachmentMaxAmount = fileDescriptors :=
    take_of_length_le (by omega)
  unfold readBytesFromSocket
  dsimp only
  split
  case isTrue h =>
    refine ⟨_, rfl, ?_, ?_⟩
    · exact congrArg (c.readBuffer ++ ·) (take_of_length_le hbts)
    · exact congrArg (c.fileDescriptors ++ ·) htk
  case isFalse h =>
    rw [htk] at h
    exact absurd hfds h

/-- The buffers hold the beginning of the stream of the messages still to be handed on. -/
structure InStep (s : Receiver) (buffered rest : List Carrier) (pending : List Sent) : Prop where
  connected : s.isConnected = true
  readBuffer : s.connection.readBuffer = buffered.map Prod.fst
  fileDescriptors : s.connection.fileDescriptors = buffered.flatMap Prod.snd
  stream : buffered ++ rest = pending.flatMap Sent.stream
  alone : owners buffered ≤ 1

/-- The next message is not complete. -/
def AllProcessed (s : Receiver) (pending : List Sent) : Prop :=
  ∀ m ∈ pending.head?, s.connection.readBuffer.length < m.bytes.length

/-- The messages can be sent, and their shared memory can be mapped when their turn comes. -/
def CanBeReceived (mappings : Nat → Mapping) (n : Nat) (pending : List Sent) : Prop :=
  ∀ (i : Nat) (m : Sent), pending[i]? = some m → m.IsSent ∧ m.IsMapped (mappings (n + i))

theorem CanBeReceived.tail {mappings : Nat → Mapping} {n : Nat} {m : Sent} {rest : List Sent}
    (h : CanBeReceived mappings n (m :: rest)) : CanBeReceived mappings (n + 1) rest := by
  intro i m' hm'
  have hnx := h (i + 1) m' hm'
  rwa [show n + (i + 1) = n + 1 + i by omega] at hnx

section

variable {mappings : Nat → Mapping} {s : Receiver} {buffered rest : List Carrier}
  {pending : List Sent}

theorem InStep.processMessage {m : Sent} (h : InStep s buffered rest (m :: pending))
    (hm : m.IsSent) (hmpd : m.IsMapped (mappings s.messages.length))
    (hle : m.bytes.length ≤ s.connection.readBuffer.length) :
    ∃ conn buffered',
      s.connection.processMessage (mappings s.messages.length) = .ok (some (m.received, conn)) ∧
      InStep (s.handedOn m.received conn) buffered' rest pending ∧
      buffered'.length < buffered.length := by
  have hstr : buffered ++ rest = m.stream ++ pending.flatMap Sent.stream := h.stream
  have hl : m.stream.length ≤ buffered.length := by
    rw [h.readBuffer, length_map] at hle
    rwa [m.length_stream]
  have hs : m.stream <+: buffered ++ rest := hstr ▸ prefix_append m.stream _
  obtain ⟨buffered', rfl⟩ : m.stream <+: buffered :=
    prefix_of_prefix_length_le hs (prefix_append _ _) hl
  have hbuf : s.connection.readBuffer = m.bytes ++ buffered'.map Prod.fst := by
    rw [h.readBuffer, map_append, Sent.stream, map_fst_packet]
  have hfds : s.connection.fileDescriptors = m.fileDescriptors ++ buffered'.flatMap Prod.snd := by
    rw [h.fileDescriptors, flatMap_append, Sent.stream, flatMap_snd_packet m.bytes_ne_nil]
  have how := h.alone
  rw [owners_append] at how
  have haln : m.fileDescriptors = [] ∨ buffered'.flatMap Prod.snd = [] := by
    refine m.owners_stream.imp_right fun hp => ?_
    exact flatMap_snd_of_owners (by omega)
  obtain ⟨conn, hprc, hbuf', hfds'⟩ := Sent.processMessage_eq hm hbuf hfds haln hmpd
  refine ⟨conn, buffered', hprc, ⟨h.connected, hbuf', hfds', ?_, by omega⟩, ?_⟩
  · rw [append_assoc] at hstr
    exact append_cancel_left hstr
  · have hp := length_pos_iff.mpr m.bytes_ne_nil
    rw [length_append, m.length_stream]
    omega

/-- **The inner loop.** It hands on all messages that are complete. -/
theorem InStep.processMessages (h : InStep s buffered rest pending)
    (hrc : CanBeReceived mappings s.messages.length pending) (fuel : Nat)
    (hfl : buffered.length < fuel) :
    ∃ s' buffered' done pending', s.processMessages mappings fuel = .ok s' ∧
      pending = done ++ pending' ∧ s'.messages = s.messages ++ done.map Sent.received ∧
      InStep s' buffered' rest pending' ∧ AllProcessed s' pending' := by
  induction fuel generalizing s buffered pending with
  | zero => omega
  | succ fuel ih =>
    rw [Receiver.processMessages]
    cases pending with
    | nil =>
      have hnil : buffered = [] := (append_eq_nil_iff.mp h.stream).1
      have hsht : s.connection.processMessage (mappings s.messages.length) = .ok none := by
        rw [Connection.processMessage, h.readBuffer, hnil]
        rfl
      rw [hsht]
      exact ⟨s, buffered, [], [], rfl, rfl, (append_nil _).symm, h, fun m hm => absurd hm (by simp)⟩
    | cons m pending =>
      obtain ⟨hm, hmpd⟩ := hrc 0 m rfl
      by_cases hlt : s.connection.readBuffer.length < m.bytes.length
      · have hs : s.connection.readBuffer <+:
            m.bytes ++ (pending.flatMap Sent.stream).map Prod.fst := by
          have hbts := congrArg (List.map Prod.fst) h.stream
          rw [map_append, ← h.readBuffer, flatMap_cons, map_append, Sent.stream,
            map_fst_packet] at hbts
          exact hbts ▸ prefix_append _ _
        rw [Sent.processMessage_eq_none hm hs hlt]
        refine ⟨s, buffered, [], m :: pending, rfl, rfl, (append_nil _).symm, h, ?_⟩
        intro m' hm'
        exact Option.some.inj hm' ▸ hlt
      · obtain ⟨conn, buffered', hprc, hst, hsh⟩ := h.processMessage hm hmpd (Nat.not_lt.mp hlt)
        have hms : (s.handedOn m.received conn).messages.length =
            s.messages.length + 1 := length_append
        obtain ⟨s', buffered'', done, pending', hlp, hpn, hdn, hst', ha⟩ :=
          ih hst (hms ▸ hrc.tail) (by omega)
        rw [hprc]
        refine ⟨s', buffered'', m :: done, pending', hlp, ?_, ?_, hst', ha⟩
        · rw [hpn, cons_append]
        · rw [hdn, map_cons]
          exact append_assoc _ [m.received] _

end

/-- What one call of `recvmsg` takes from the stream: at least a byte, as long as there is room. -/
def nextRead (s : Receiver) (size : Nat) (rest : List Carrier) : List Carrier :=
  rest.take (min (size + 1) (messageMaxSize - s.connection.readBuffer.length))

def Receiver.readStream (mappings : Nat → Mapping) (s : Receiver) (carriers : List Carrier) :
    Except Fault Receiver :=
  s.readyRead mappings (.data (carriers.map Prod.fst) (carriers.flatMap Prod.snd))

/-- `readyReadHandler` on the stream, with any sizes of the pieces. It waits when nothing is left.
-/
def receiveStream (mappings : Nat → Mapping) :
    List Nat → Receiver → List Carrier → Except Fault (Receiver × List Carrier)
  | [], s, rest => .ok (s, rest)
  | size :: sizes, s, rest =>
    if rest = [] then .ok (s, rest)
    else do
      let s' ← s.readStream mappings (nextRead s size rest)
      receiveStream mappings sizes s' (rest.drop (nextRead s size rest).length)

/-- No read brings descriptors of two messages together. -/
def OneOwner (s : Receiver) (carriers : List Carrier) : Prop :=
  owners carriers ≤ if s.connection.fileDescriptors = [] then 1 else 0

instance (s : Receiver) (carriers : List Carrier) : Decidable (OneOwner s carriers) :=
  inferInstanceAs (Decidable (_ ≤ _))

/-- The condition for all reads. -/
def OneOwnerReads (mappings : Nat → Mapping) : List Nat → Receiver → List Carrier → Prop
  | [], _, _ => True
  | size :: sizes, s, rest =>
    OneOwner s (nextRead s size rest) ∧
      ∀ s', s.readStream mappings (nextRead s size rest) = .ok s' →
        OneOwnerReads mappings sizes s' (rest.drop (nextRead s size rest).length)

instance decidableOneOwnerReads (mappings : Nat → Mapping) : ∀ (sizes : List Nat) (s : Receiver)
    (rest : List Carrier), Decidable (OneOwnerReads mappings sizes s rest)
  | [], _, _ => isTrue trivial
  | size :: sizes, s, rest =>
    match h : s.readStream mappings (nextRead s size rest) with
    | .ok s' =>
      have := decidableOneOwnerReads mappings sizes s' (rest.drop (nextRead s size rest).length)
      decidable_of_iff (OneOwner s (nextRead s size rest) ∧
        OneOwnerReads mappings sizes s' (rest.drop (nextRead s size rest).length))
        (by simp [OneOwnerReads, h])
    | .error _ => decidable_of_iff (OneOwner s (nextRead s size rest)) (by simp [OneOwnerReads, h])

section

variable {mappings : Nat → Mapping} {s : Receiver} {buffered rest : List Carrier}
  {pending : List Sent}

theorem nextRead_append (s : Receiver) (size : Nat) (rest : List Carrier) :
    nextRead s size rest ++ rest.drop (nextRead s size rest).length = rest :=
  prefix_iff_eq_append.mp ( take_prefix _ _)

section

variable (h : InStep s buffered rest pending)

include h

theorem InStep.descriptors_le (hrc : CanBeReceived mappings s.messages.length pending)
    {x : Carrier} (hx : x ∈ buffered ++ rest) : x.2.length ≤ attachmentMaxAmount := by
  rw [h.stream] at hx
  obtain ⟨m, hm, hx⟩ := mem_flatMap.mp hx
  obtain ⟨i, hi⟩ := getElem?_of_mem hm
  exact Sent.length_descriptors_le (hrc i m hi).1 hx

theorem InStep.length_lt (ha : AllProcessed s pending)
    (hft : ∀ m ∈ pending, m.bytes.length ≤ messageMaxSize) (hrest : rest ≠ []) :
    s.connection.readBuffer.length < messageMaxSize := by
  cases pending with
  | nil => exact absurd (append_eq_nil_iff.mp h.stream).2 hrest
  | cons m pending =>
    exact Nat.lt_of_lt_of_le (ha m rfl) (hft m mem_cons_self)

theorem InStep.readStream (ha : AllProcessed s pending)
    (hrc : CanBeReceived mappings s.messages.length pending)
    (hft : ∀ m ∈ pending, m.bytes.length ≤ messageMaxSize) (hrest : rest ≠ []) (size : Nat)
    (hone : OneOwner s (nextRead s size rest)) :
    ∃ s' buffered' done pending', s.readStream mappings (nextRead s size rest) = .ok s' ∧
      0 < (nextRead s size rest).length ∧
      pending = done ++ pending' ∧ s'.messages = s.messages ++ done.map Sent.received ∧
      InStep s' buffered' (rest.drop (nextRead s size rest).length) pending' ∧
      AllProcessed s' pending' := by
  have hrm := h.length_lt ha hft hrest
  have hspl := nextRead_append s size rest
  have hl : (nextRead s size rest).length =
      min (min (size + 1) (messageMaxSize - s.connection.readBuffer.length)) rest.length :=
    length_take
  have hp := length_pos_iff.mpr hrest
  generalize nextRead s size rest = carriers at hone hspl hl
  -- all descriptors in the buffer are those of one message
  have hoo : owners (buffered ++ carriers) ≤ 1 := by
    have haln := h.alone
    rw [owners_append]
    unfold OneOwner at hone
    split at hone
    case isTrue hnil =>
      have hz := owners_of_flatMap_snd (h.fileDescriptors.symm.trans hnil)
      omega
    case isFalse => omega
  have hfds : (buffered ++ carriers).flatMap Prod.snd =
      s.connection.fileDescriptors ++ carriers.flatMap Prod.snd := by
    rw [flatMap_append, h.fileDescriptors]
  have hds : s.connection.fileDescriptors.length +
      (carriers.flatMap Prod.snd).length ≤ attachmentMaxAmount := by
    rw [← length_append, ← hfds]
    refine length_flatMap_snd_le hoo fun x hx => h.descriptors_le hrc ?_
    rw [← hspl, ← append_assoc]
    exact mem_append_left _ hx
  obtain ⟨connection, hrd, hbuf', hfds'⟩ := s.connection.readBytesFromSocket_eq
    (carriers.map Prod.fst) (by rw [length_map]; omega) hds
  have hst : InStep { s with connection := connection } (buffered ++ carriers)
      (rest.drop carriers.length) pending := by
    refine ⟨h.connected, ?_, hfds'.trans hfds.symm, ?_, hoo⟩
    · rw [map_append, ← h.readBuffer]
      exact hbuf'
    · rw [append_assoc, hspl]
      exact h.stream
  have hln : connection.readBuffer.length = s.connection.readBuffer.length + carriers.length := by
    rw [hbuf', length_append, length_map]
  obtain ⟨s', buffered', done, pending', hlp, hdn⟩ := hst.processMessages hrc
    (connection.readBuffer.length + 1) (by
      rw [hst.readBuffer, length_map]
      exact Nat.lt_succ_self _)
  refine ⟨s', buffered', done, pending', ?_, by omega, hdn⟩
  show (s.connection.readBytesFromSocket _ _ >>= _) = _
  rw [hrd]
  show (if connection.readBuffer.length = _ then _ else _) = _
  rw [if_neg (by omega)]
  exact hlp

/-- **The outer loop.** -/
theorem InStep.receiveStream {sizes : List Nat} (ha : AllProcessed s pending)
    (hrc : CanBeReceived mappings s.messages.length pending)
    (hft : ∀ m ∈ pending, m.bytes.length ≤ messageMaxSize)
    (hone : OneOwnerReads mappings sizes s rest) :
    ∃ s' buffered' rest' done pending', receiveStream mappings sizes s rest = .ok (s', rest') ∧
      pending = done ++ pending' ∧ s'.messages = s.messages ++ done.map Sent.received ∧
      InStep s' buffered' rest' pending' ∧ AllProcessed s' pending' ∧
      (rest.length ≤ sizes.length → rest' = []) := by
  induction sizes generalizing s buffered rest pending with
  | nil =>
    refine ⟨s, buffered, rest, [], pending, rfl, rfl, (append_nil _).symm, h, ha, ?_⟩
    exact fun hle => length_eq_zero_iff.mp (Nat.le_zero.mp hle)
  | cons size sizes ih =>
    rw [Unix.receiveStream]
    by_cases hrest : rest = []
    · rw [if_pos hrest]
      exact ⟨s, buffered, rest, [], pending, rfl, rfl, (append_nil _).symm, h, ha, fun _ => hrest⟩
    obtain ⟨honeNow, honeLater⟩ := hone
    obtain ⟨s₁, buffered₁, done₁, pending₁, hrd, hp, rfl, hms₁, hst₁, ha₁⟩ :=
      h.readStream ha hrc hft hrest size honeNow
    have hrc₁ : CanBeReceived mappings s₁.messages.length pending₁ := by
      intro i m hm
      have hl : s₁.messages.length = s.messages.length + done₁.length := by
        rw [hms₁, length_append, length_map]
      have hg : (done₁ ++ pending₁)[done₁.length + i]? = some m := by
        rw [getElem?_append_right (Nat.le_add_right _ _), Nat.add_sub_cancel_left]
        exact hm
      rw [hl, add_assoc]
      exact hrc _ m hg
    obtain ⟨s', buffered', rest', done', pending', hrds, rfl, hms', hst', ha', he⟩ :=
      ih hst₁ ha₁ hrc₁ (fun m hm => hft m (mem_append_right _ hm)) (honeLater s₁ hrd)
    rw [if_neg hrest, hrd]
    refine ⟨s', buffered', rest', done₁ ++ done', pending', hrds,
      (append_assoc _ _ _).symm, ?_, hst', ha', ?_⟩
    · rw [hms', hms₁, map_append, append_assoc]
    · intro hle
      refine he ?_
      rw [length_drop]
      rw [length_cons] at hle
      omega

end

/-- **Delivery.** For any messages that fit in the read buffer, and any sizes of the pieces in
which their bytes arrive: if no read brings descriptors of two messages together, the messages are
handed on, once each and in order, with their bodies and their attachments. -/
theorem messages_delivered (mappings : Nat → Mapping) (sent : List Sent) (sizes : List Nat)
    (hsent : CanBeReceived mappings 0 sent)
    (hfits : ∀ m ∈ sent, m.bytes.length ≤ messageMaxSize)
    (hone : OneOwnerReads mappings sizes .initial (sent.flatMap Sent.stream)) :
    ∃ s rest, receiveStream mappings sizes .initial (sent.flatMap Sent.stream) = .ok (s, rest) ∧
      s.isConnected = true ∧
      s.messages.map (fun m => (m.body, m.removedAttachments)) <+:
        sent.map (fun m => (m.message.body, m.message.attachments)) ∧
      (rest = [] → s.messages.map (fun m => (m.body, m.removedAttachments)) =
        sent.map fun m => (m.message.body, m.message.attachments)) ∧
      ((sent.flatMap Sent.stream).length ≤ sizes.length → rest = []) := by
  have hinitial : InStep .initial [] (sent.flatMap Sent.stream) sent :=
    ⟨rfl, rfl, rfl, rfl, Nat.zero_le _⟩
  have hall : AllProcessed .initial sent := fun m _ => length_pos_iff.mpr m.bytes_ne_nil
  obtain ⟨s, buffered, rest, done, pending, hrds, rfl, hmsgs, hstep, hall', hend⟩ :=
    hinitial.receiveStream hall hsent hfits hone
  have hrcd : s.messages.map (fun m => (m.body, m.removedAttachments)) =
      done.map fun m => (m.message.body, m.message.attachments) := by
    rw [hmsgs]
    show (done.map Sent.received).map _ = _
    rw [map_map]
    refine map_congr_left fun m _ => ?_
    exact congrArg (Prod.mk m.message.body) (reverse_reverse _)
  refine ⟨s, rest, hrds, hstep.connected, ?_, ?_, hend⟩
  · rw [hrcd, map_append]
    exact prefix_append _ _
  · intro hrest
    -- a message that is not handed on is not complete
    have hnil : pending = [] := by
      cases pending with
      | nil => rfl
      | cons m pending =>
        have hlt := hall' m rfl
        have hstr := congrArg List.length hstep.stream
        rw [hrest, append_nil, flatMap_cons, length_append,
          m.length_stream] at hstr
        rw [hstep.readBuffer, length_map] at hlt
        omega
    rw [hrcd, hnil, append_nil]

end

/-! ## Two messages with descriptors -/

/-- A message of four bytes with a socket. -/
def ping (fd : FileDescriptor) : Sent where
  message := ⟨[1, 2, 3, 4], [.socket fd], by decide⟩
  handle := noFileDescriptor
  junk _ _ := 0

theorem pings_canBeReceived : CanBeReceived (fun _ => noMapping) 0 [ping 5, ping 6] := by
  intro i m hm
  match i, hm with
  | 0, rfl => exact ⟨rfl, fun h => absurd h (by decide)⟩
  | 1, rfl => exact ⟨rfl, fun h => absurd h (by decide)⟩

/-- Four reads: the first and the third end within a message. -/
theorem pings_oneOwnerReads : OneOwnerReads (fun _ => noMapping) [9, 41, 20, 30] .initial
    ([ping 5, ping 6].flatMap Sent.stream) := by
  decide

theorem pings_read : (receiveStream (fun _ => noMapping) [9, 41, 20, 30] .initial
    ([ping 5, ping 6].flatMap Sent.stream)).map Prod.snd = .ok [] :=
  rfl

theorem pings_delivered : ∃ s,
    receiveStream (fun _ => noMapping) [9, 41, 20, 30] .initial
        ([ping 5, ping 6].flatMap Sent.stream) = .ok (s, []) ∧
      s.messages.map (fun m => (m.body, m.removedAttachments)) =
        [([1, 2, 3, 4], [.socket 5]), ([1, 2, 3, 4], [.socket 6])] := by
  obtain ⟨s, rest, hrds, _, _, hdone, _⟩ :=
    messages_delivered (fun _ => noMapping) [ping 5, ping 6] [9, 41, 20, 30] pings_canBeReceived
      (by decide) pings_oneOwnerReads
  obtain rfl : rest = [] := Except.ok.inj (hrds ▸ pings_read)
  exact ⟨s, hrds, hdone rfl⟩

/-- Two messages that arrive with one read: the receiver moves `2 ^ 64 - 2` bytes. -/
theorem pings_not_delivered : (ping 5).IsSent ∧ (ping 6).IsSent ∧
      receiveStream (fun _ => noMapping) [199] .initial ([ping 5, ping 6].flatMap Sent.stream) =
        .error (.outOfBounds .fileDescriptors) :=
  ⟨rfl, rfl, rfl⟩

end WebKit.Ipc.Unix
