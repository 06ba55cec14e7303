import WebKit.Ipc.ArgumentBuffers

/-!
# The Unix transport of IPC messages

`sendOutgoingMessage`, `processMessage` and `readyReadHandler` of `ConnectionUnix.cpp`, for a 64-bit
platform with the least significant byte first. `size_t` arithmetic is that of `BitVec 64`.

A connection holds the first `m_readBufferSize` bytes of `m_readBuffer` and the first
`m_fileDescriptorsSize` entries of `m_fileDescriptors`. An access that leaves these, another array
or the capacity of a buffer is a fault, and so is a crash.
-/

namespace WebKit.Ipc.Unix

/-- An `int`. -/
abbrev FileDescriptor : Type := BitVec 32

/-- The value of an `int` that is no descriptor. -/
def noFileDescriptor : FileDescriptor := -1

def messageMaxSize : Nat := 4096

def attachmentMaxAmount : Nat := 255

def messageInfoSize : Nat := 24

def attachmentInfoSize : Nat := 24

/-! ## Attachments -/

inductive AttachmentType
  | uninitialized
  | socketType
  | mappedMemoryType
  deriving DecidableEq

namespace AttachmentType

def value : AttachmentType → Nat
  | .uninitialized => 0
  | .socketType => 1
  | .mappedMemoryType => 2

/-- The receiver treats any other value as it treats `Uninitialized`. -/
def ofValue : Nat → AttachmentType
  | 1 => .socketType
  | 2 => .mappedMemoryType
  | _ => .uninitialized

theorem ofValue_value (type : AttachmentType) : ofValue type.value = type := by
  cases type with
  | uninitialized => rfl
  | socketType => rfl
  | mappedMemoryType => rfl

end AttachmentType

/-- An attachment as its constructors make it. -/
inductive Attachment
  | uninitialized
  | socket (fileDescriptor : FileDescriptor)
  | mappedMemory (fileDescriptor : FileDescriptor) (size : BitVec 64)
  deriving DecidableEq

namespace Attachment

def type : Attachment → AttachmentType
  | .uninitialized => .uninitialized
  | .socket _ => .socketType
  | .mappedMemory _ _ => .mappedMemoryType

def fileDescriptor : Attachment → FileDescriptor
  | .uninitialized => noFileDescriptor
  | .socket fd => fd
  | .mappedMemory fd _ => fd

def size : Attachment → BitVec 64
  | .mappedMemory _ size => size
  | _ => 0

end Attachment

/-! ## Headers -/

/-- The bytes of a member of a structure. -/
def member (offset size : Nat) (data : List Byte) : Nat := ofBytes ((data.drop offset).take size)

def boolByte (b : Bool) : List Byte := [if b then 1 else 0]

structure MessageInfo where
  bodySize : BitVec 64
  attachmentCount : BitVec 64
  isMessageBodyOutOfLine : Bool
  deriving DecidableEq

namespace MessageInfo

/-- The object in memory. The bytes after the last member hold anything. -/
def bytes (info : MessageInfo) (junk : Nat → Byte) : List Byte :=
  toBytes 8 info.bodySize.toNat ++ toBytes 8 info.attachmentCount.toNat ++
    boolByte info.isMessageBodyOutOfLine ++ (List.range 7).map junk

/-- `memcpy` to a `MessageInfo`. -/
def read (data : List Byte) : MessageInfo where
  bodySize := BitVec.ofNat 64 (member 0 8 data)
  attachmentCount := BitVec.ofNat 64 (member 8 8 data)
  isMessageBodyOutOfLine := member 16 1 data ≠ 0

/-- `messageLength` of `processMessage`. -/
def messageLength (info : MessageInfo) : BitVec 64 :=
  BitVec.ofNat 64 messageInfoSize +
    info.attachmentCount * BitVec.ofNat 64 attachmentInfoSize +
      if info.isMessageBodyOutOfLine then 0 else info.bodySize

end MessageInfo

structure AttachmentInfo where
  type : AttachmentType
  size : BitVec 64
  isNull : Bool
  deriving DecidableEq

namespace AttachmentInfo

variable (info : AttachmentInfo)

def bytes (junk : Nat → Byte) : List Byte :=
  toBytes 4 info.type.value ++ (List.range 4).map junk ++ toBytes 8 info.size.toNat ++
    boolByte info.isNull ++ (List.range 7).map fun i => junk (i + 4)

def read (data : List Byte) : AttachmentInfo where
  type := AttachmentType.ofValue (member 0 4 data)
  size := BitVec.ofNat 64 (member 8 8 data)
  isNull := member 16 1 data ≠ 0

/-- Whether a descriptor was sent for the attachment. -/
def hasFileDescriptor : Bool :=
  match info.type with
  | .mappedMemoryType => !info.isNull
  | .socketType => !info.isNull
  | .uninitialized => false

/-- The attachment that the receiver makes. -/
def attachment (fd : FileDescriptor) : Attachment :=
  match info.type with
  | .mappedMemoryType => .mappedMemory fd info.size
  | .socketType => .socket fd
  | .uninitialized => .uninitialized

/-- What the sender writes for an attachment. -/
def ofAttachment (attachment : Attachment) : AttachmentInfo where
  type := attachment.type
  size := attachment.size
  isNull :=
    match attachment.type with
    | .uninitialized => false
    | _ => attachment.fileDescriptor = noFileDescriptor

end AttachmentInfo

/-! ## Sending -/

/-- What an encoder holds. A buffer is smaller than the address space. -/
structure OutgoingMessage where
  body : List Byte
  attachments : List Attachment
  body_lt : body.length < 2 ^ 63

namespace OutgoingMessage

variable (m : OutgoingMessage)

def messageSizeWithBodyInline : BitVec 64 :=
  BitVec.ofNat 64 messageInfoSize +
    BitVec.ofNat 64 m.attachments.length * BitVec.ofNat 64 attachmentInfoSize +
      BitVec.ofNat 64 m.body.length

/-- The body does not fit and goes to shared memory. -/
def isOutOfLine : Bool :=
  messageMaxSize < m.messageSizeWithBodyInline.toNat && m.body.length ≠ 0

/-- The attachments with the one for the body. `handle` is the descriptor of the shared memory. -/
def allAttachments (handle : FileDescriptor) : List Attachment :=
  if m.isOutOfLine then
    m.attachments ++ [.mappedMemory handle (BitVec.ofNat 64 m.body.length)]
  else m.attachments

def messageInfo (handle : FileDescriptor) : MessageInfo where
  bodySize := BitVec.ofNat 64 m.body.length
  attachmentCount := BitVec.ofNat 64 (m.allAttachments handle).length
  isMessageBodyOutOfLine := m.isOutOfLine

/-- The descriptors of the control message. -/
def fileDescriptors (handle : FileDescriptor) : List FileDescriptor :=
  ((m.allAttachments handle).map Attachment.fileDescriptor).filter (· ≠ noFileDescriptor)

/-- The parts of the message: the header, the array of `AttachmentInfo` and the body. -/
def bytes (m : OutgoingMessage) (handle : FileDescriptor) (junk : Nat → Nat → Byte) : List Byte :=
  (m.messageInfo handle).bytes (junk 0) ++
    ((m.allAttachments handle).zipIdx.flatMap fun p =>
      (AttachmentInfo.ofAttachment p.1).bytes (junk (p.2 + 1))) ++
    if m.isOutOfLine then [] else m.body

end OutgoingMessage

/-- The bytes and descriptors that go to the socket. The shared memory and the socket do not fail.
-/
def sendOutgoingMessage (m : OutgoingMessage) (handle : FileDescriptor)
    (junk : Nat → Nat → Byte) : Option (List Byte × List FileDescriptor) :=
  if attachmentMaxAmount - 1 < m.attachments.length then none
  else some (m.bytes handle junk, m.fileDescriptors handle)

/-! ## Receiving -/

/-- What an access can leave. -/
inductive Bounds
  | readBuffer
  | fileDescriptors
  | attachmentInfo
  | capacity
  | body
  deriving DecidableEq

inductive Fault
  | crash
  | hang
  | outOfBounds (bounds : Bounds)
  deriving DecidableEq

/-- The two buffers of a connection, as far as they are filled. -/
structure Connection where
  readBuffer : List Byte
  fileDescriptors : List FileDescriptor
  readBuffer_le : readBuffer.length ≤ messageMaxSize
  fileDescriptors_le : fileDescriptors.length ≤ attachmentMaxAmount

/-- `SharedMemory::map` of a descriptor and a size. -/
structure Mapping where
  map : FileDescriptor → BitVec 64 → Option (List Byte)
  length_map : ∀ fd size data, map fd size = some data → data.length = size.toNat

/-- What `processIncomingMessage` gets. -/
structure Message where
  body : List Byte
  attachments : List Attachment
  deriving DecidableEq

/-- The attachments in the order in which `removeAttachment` takes them, from the last one. -/
def Message.removedAttachments (m : Message) : List Attachment := m.attachments.reverse

namespace Connection

def initial : Connection := ⟨[], [], Nat.zero_le _, Nat.zero_le _⟩

variable (c : Connection)

/-- The array of `AttachmentInfo`, copied from the read buffer. -/
def readAttachmentInfo (attachmentCount : Nat) :
    Except Fault (List AttachmentInfo) :=
  -- `new` does not return if the size of the array is not a `size_t`
  if 2 ^ 64 ≤ attachmentCount * attachmentInfoSize then .error .crash
  else if c.readBuffer.length < messageInfoSize + attachmentCount * attachmentInfoSize then
    .error (.outOfBounds .readBuffer)
  else .ok ((chunks attachmentInfoSize attachmentCount (c.readBuffer.drop messageInfoSize)).map
    AttachmentInfo.read)

/-- `m_fileDescriptors[index]`. The vector has `attachmentMaxAmount` elements. -/
def fileDescriptor (index : Nat) : Except Fault FileDescriptor :=
  match c.fileDescriptors[index]? with
  | some fd => .ok fd
  | none =>
    if index < attachmentMaxAmount then .error (.outOfBounds .fileDescriptors)
    else .error .crash

/-- The loop that makes the attachments. -/
def makeAttachments (c : Connection) : List AttachmentInfo → Nat → Except Fault (List Attachment)
  | [], _ => .ok []
  | info :: rest, fdIndex =>
    if info.hasFileDescriptor then do
      let fd ← c.fileDescriptor fdIndex
      let attachments ← c.makeAttachments rest (fdIndex + 1)
      .ok (info.attachment fd :: attachments)
    else do
      let attachments ← c.makeAttachments rest fdIndex
      .ok (info.attachment noFileDescriptor :: attachments)

variable (mapping : Mapping)

/-- The decoder's range of a body in shared memory, if the memory can be mapped. -/
def mappedBody (fd : FileDescriptor) (size : BitVec 64) (bodySize : Nat) :
    Except Fault (Option (List Byte)) :=
  match mapping.map fd size with
  | none => .ok none
  | some data =>
    if data.length < bodySize then .error (.outOfBounds .body)
    else .ok (some (data.take bodySize))

/-- The body in shared memory. Without a result `processMessage` returns false. -/
def outOfLineBody (infos : List AttachmentInfo)
    (attachmentCount attachmentFileDescriptorCount bodySize : Nat) :
    Except Fault (Option (List Byte)) :=
  match infos[attachmentCount]? with
  | none => .error (.outOfBounds .attachmentInfo)
  | some info =>
    if info.isNull then .ok none
    else do
      let fd ← c.fileDescriptor (BitVec.ofNat 64 attachmentFileDescriptorCount - 1).toNat
      mappedBody mapping fd info.size bodySize

/-- The body after the array of `AttachmentInfo`. -/
def inlineBody (attachmentCount bodySize : Nat) :
    Except Fault (Option (List Byte)) :=
  let messageData := c.readBuffer.drop (messageInfoSize + attachmentCount * attachmentInfoSize)
  if messageData.length < bodySize then .error (.outOfBounds .body)
  else .ok (some (messageData.take bodySize))

variable (messageInfo : MessageInfo)

/-- The body of a message, if it has one. -/
def messageBody
    (infos : List AttachmentInfo) (attachmentCount attachmentFileDescriptorCount : Nat) :
    Except Fault (Option (List Byte)) :=
  if messageInfo.isMessageBodyOutOfLine then
    c.outOfLineBody mapping infos attachmentCount attachmentFileDescriptorCount
      messageInfo.bodySize.toNat
  else c.inlineBody attachmentCount messageInfo.bodySize.toNat

/-- The bytes of the descriptors after `memmove` of `length` bytes from the byte at `offset`. -/
def moveBytes (fileDescriptors : List FileDescriptor) (offset length : Nat) : List Byte :=
  let bytes := fileDescriptors.flatMap fun fd => toBytes 4 fd.toNat
  (bytes.drop offset).take length ++ bytes.drop length

/-- The bytes and descriptors of a message are removed. The number of bytes of the descriptors is
also used as a number of elements. -/
def compact (messageLength attachmentFileDescriptorCount : Nat) :
    Except Fault Connection :=
  let fileDescriptorsSize := c.fileDescriptors.length
  have hdrop : (c.readBuffer.drop messageLength).length ≤ messageMaxSize := by
    rw [List.length_drop]
    exact Nat.le_trans (Nat.sub_le _ _) c.readBuffer_le
  if attachmentFileDescriptorCount = 0 then
    .ok ⟨c.readBuffer.drop messageLength, c.fileDescriptors, hdrop, c.fileDescriptors_le⟩
  else if attachmentFileDescriptorCount < fileDescriptorsSize then
    let fileDescriptorsLength := attachmentFileDescriptorCount * 4
    let count := (BitVec.ofNat 64 fileDescriptorsSize - BitVec.ofNat 64 fileDescriptorsLength).toNat
    if fileDescriptorsSize * 4 < fileDescriptorsLength * 4 + count then
      .error (.outOfBounds .fileDescriptors)
    else
      .ok ⟨c.readBuffer.drop messageLength,
        (chunks 4 (fileDescriptorsSize - fileDescriptorsLength)
          (moveBytes c.fileDescriptors (fileDescriptorsLength * 4) count)).map
            fun bytes => BitVec.ofNat 32 (ofBytes bytes),
        hdrop, by
          rw [List.length_map, length_chunks]
          exact Nat.le_trans (Nat.sub_le _ _) c.fileDescriptors_le⟩
  else .ok ⟨c.readBuffer.drop messageLength, [], hdrop, Nat.zero_le _⟩

/-- The end of `processMessage`: it returns false if there is no body, and hands the message on
otherwise, with the attachments reversed. -/
def handOn (attachmentFileDescriptorCount : Nat) (attachments : List Attachment) :
    Option (List Byte) → Except Fault (Option (Message × Connection))
  | none => .ok none
  | some body => do
    let c' ← c.compact messageInfo.messageLength.toNat attachmentFileDescriptorCount
    .ok (some (⟨body, attachments.reverse⟩, c'))

/-- `processMessage` of a message whose bytes are all there. -/
def processComplete :
    Except Fault (Option (Message × Connection)) := do
  let infos ← c.readAttachmentInfo messageInfo.attachmentCount.toNat
  let attachmentFileDescriptorCount := infos.countP AttachmentInfo.hasFileDescriptor
  let attachmentCount :=
    if messageInfo.isMessageBodyOutOfLine then infos.length - 1 else infos.length
  let attachments ← c.makeAttachments (infos.take attachmentCount) 0
  let body ← c.messageBody mapping messageInfo infos attachmentCount attachmentFileDescriptorCount
  c.handOn messageInfo attachmentFileDescriptorCount attachments body

/-- The message that is handed on and the connection after it, or nothing if it returns false. -/
def processMessage :
    Except Fault (Option (Message × Connection)) :=
  if c.readBuffer.length < messageInfoSize then .ok none
  else if c.readBuffer.length < (MessageInfo.read c.readBuffer).messageLength.toNat then .ok none
  else c.processComplete mapping (MessageInfo.read c.readBuffer)

end Connection

/-- A connection with the messages that were handed to `processIncomingMessage`. -/
structure Receiver where
  connection : Connection
  messages : List Message := []
  isConnected : Bool := true

namespace Receiver

def initial : Receiver where
  connection := .initial

/-- What `processMessage` has done. -/
def handedOn (s : Receiver) (message : Message) (connection : Connection) : Receiver :=
  { s with connection := connection, messages := s.messages ++ [message] }

/-- The inner loop of `readyReadHandler`. `mappings` is the shared memory for each message. -/
def processMessages (mappings : Nat → Mapping) : Nat → Receiver → Except Fault Receiver
  | 0, _ => .error .hang
  | fuel + 1, s => do
    match ← s.connection.processMessage (mappings s.messages.length) with
    | none => .ok s
    | some (message, connection) => processMessages mappings fuel (s.handedOn message connection)

end Receiver

/-- What a call of `recvmsg` finds. An error other than `EAGAIN` closes the connection. -/
inductive Read
  | failed
  | data (bytes : List Byte) (fileDescriptors : List FileDescriptor)

namespace Connection

/-- Not more bytes and descriptors than there is room for. -/
def readBytesFromSocket (c : Connection) (bytes : List Byte)
    (fileDescriptors : List FileDescriptor) : Except Fault Connection :=
  let bytes := bytes.take (messageMaxSize - c.readBuffer.length)
  let fileDescriptors := fileDescriptors.take attachmentMaxAmount
  if h : c.fileDescriptors.length + fileDescriptors.length ≤ attachmentMaxAmount then
    .ok ⟨c.readBuffer ++ bytes, c.fileDescriptors ++ fileDescriptors, by
      have := c.readBuffer_le
      simp only [bytes, List.length_append, List.length_take]
      omega, by rwa [List.length_append]⟩
  else .error (.outOfBounds .capacity)

end Connection

namespace Receiver

/-- One round of the outer loop of `readyReadHandler`. -/
def readyRead (mappings : Nat → Mapping) (s : Receiver) : Read → Except Fault Receiver
  | .failed => .ok { s with isConnected := false }
  | .data bytes fileDescriptors => do
    let connection ← s.connection.readBytesFromSocket bytes fileDescriptors
    if connection.readBuffer.length = s.connection.readBuffer.length then
      .ok { s with connection := connection, isConnected := false }
    else
      processMessages mappings (connection.readBuffer.length + 1)
        { s with connection := connection }

/-- `readyReadHandler`, as long as the connection is open. -/
def receive (mappings : Nat → Mapping) : Receiver → List Read → Except Fault Receiver
  | s, [] => .ok s
  | s, read :: rest =>
    if s.isConnected then do
      let s' ← s.readyRead mappings read
      receive mappings s' rest
    else .ok s

end Receiver

end WebKit.Ipc.Unix
