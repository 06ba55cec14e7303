import WebKit.Ipc.ArgumentRoundTrip
import WebKit.Ipc.UnixTransportDelivery

/-!
# Delivery of arguments

What is encoded into messages on one side of a socket, the other side decodes.
-/

namespace WebKit.Ipc.Unix

open List Wtf

/-- A message, and the arguments that were encoded into its body. -/
structure Call (traits : (k : KeyTy) → HashTraits k.Content) (junk : Nat → Nat → Byte) where
  sent : Sent
  arguments : List Value
  encoded : sent.message.body = (encodeAll junk arguments (.create junk)).bytes
  wellFormed : ∀ v ∈ arguments, v.1.All (wellFormedParts traits) v.2
  short : ∀ v ∈ arguments, v.1.All shortParts v.2

variable {traits : (k : KeyTy) → HashTraits k.Content} {junk : Nat → Nat → Byte}

/-- Wherever the body is put, the arguments of the call are decoded from it. -/
def Call.DecodedFrom (call : Call traits junk) (m : Message) : Prop :=
  ∀ address, ∃ ws d', decodeAll traits (call.arguments.map (·.1)) (.create m.body address) =
    .ok (some ws, d') ∧ Forall₂ Value.Same call.arguments ws

theorem Call.decodedFrom_received (call : Call traits junk) :
    call.DecodedFrom call.sent.received := by
  intro address
  obtain ⟨ws, hsame, hcodes⟩ := codes_all junk call.wellFormed call.short
  obtain ⟨d', hd'⟩ := Between.create (prefix_rfl (l := call.sent.message.body)) address
  refine ⟨ws, d', hcodes.reads (.create junk) _ _ ?_, hsame⟩
  rw [← call.encoded]
  exact hd'

/-- The message with the socket, as a call with an argument of 32 bits. -/
def pingCall (fd : FileDescriptor) : Call defaultTraits fun _ _ => 0 where
  sent := ping fd
  arguments := [⟨.key (.arith (.integer .four)), (0x04030201 : BitVec 32)⟩]
  encoded := show [1, 2, 3, 4] = _ by decide
  wellFormed := by simp [Ty.All, wellFormedParts, KeyTy.WellFormed]
  short := by simp [Ty.All, shortParts, KeyTy.Short]

end WebKit.Ipc.Unix
