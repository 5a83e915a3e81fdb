import RalioFirmware.Mesh.Reception

/-!
# How an ESP-NOW node sends a message

`espnowSendToNodeUnsynchronized` sends the transmissions of a message one by one, each as often as
it takes until it is confirmed or the time is up.  With the first of them the own session key of an
encrypted connection goes on, unless the confirmation fails to come.
-/

namespace Mesh

open Http

structure Sending where
  targetBSSID : Mac
  meshInstance : Nat
  messageType : MessageType
  messageID : Nat
  message : Text
  transmissionsRemaining : Nat
  messageStart : Bool
deriving DecidableEq, Repr

namespace Sending

def start (s : Settings) (targetBSSID : Mac) (meshInstance : Nat) (messageType : MessageType)
    (messageID : Nat) (message : Text) : Except Fault Sending :=
  let transmissionsRequired := s.transmissionsRequired message
  if transmissionsRequired ≤ s.maxTransmissionsPerMessage ∧
      ((messageType = .P ∨ messageType = .C) → transmissionsRequired = 1) then
    .ok ⟨targetBSSID, meshInstance, messageType, messageID, message, transmissionsRequired - 1,
      true⟩
  else .error .assertFailed

def frame (s : Settings) (softAPmac : Mac) (sd : Sending) : Frame where
  messageType := sd.messageType.char
  transmissionsRemaining := sd.transmissionsRemaining
  messageStart := sd.messageStart
  transmissionMac := softAPmac
  messageID := sd.messageID
  part := s.part sd.message sd.transmissionsRemaining

def next (sd : Sending) : Option Sending :=
  if sd.transmissionsRemaining = 0 then none
  else some { sd with
    transmissionsRemaining := sd.transmissionsRemaining - 1
    messageStart := false }

end Sending

end Mesh
