import Bryllite.P2p.Read

/-!
# The messages of a node server (peer_message.inl, node_server)

`node_server::onMessage` casts the memory at a header to the class that belongs to its
id, whatever the size in the header, and calls the handler of that class. A string in a
message is read from where it begins up to the first zero, wherever that is.
-/

namespace Bryllite.P2p

open Bryllite.Framework

namespace Target

/-- An unsigned integer in memory, least significant byte first. -/
def readUnsigned (mem : List UInt8) (off len : Nat) : Nat := Nat.ofDigits 256 ((slice mem off len).map UInt8.toNat)

/-- `msgid`. -/
def msgid (t : Target) (mem : List UInt8) : Nat := readUnsigned mem (4 + t.sizeofSizeT) 2

/-- The first offset from `off` on that is a multiple of `alignment`. -/
def align (off alignment : Nat) : Nat := (off + alignment - 1) / alignment * alignment

/-- Where `_id` is in `message_ping` and `message_pong`. These are not packed, as the
header is. -/
def offsetId (t : Target) : Nat := align t.sizeofMessage t.sizeofSizeT

/-- Where `_node_id` is in `node_message_peer_notify`, -/
def offsetNodeId (t : Target) : Nat := t.sizeofMessage

/-- `_host`, behind `max_peer_id_length` bytes, -/
def offsetHost (t : Target) : Nat := t.offsetNodeId + 32

/-- and `_port`, behind `max_host_length` bytes. -/
def offsetPort (t : Target) : Nat := align (t.offsetHost + 16) 2

end Target

/-- `message_ping_id`. -/
def messagePingId : Nat := 101

/-- `message_pong_id`. -/
def messagePongId : Nat := 102

/-- `node_message_peer_notify_id`. -/
def nodeMessagePeerNotifyId : Nat := 1001

/-- A message with its fields, of the classes that have handlers. -/
inductive PeerMessage where
  | ping (id : Nat)
  | pong (id : Nat)
  | peerNotify (nodeId host : List UInt8) (port : Nat)
deriving DecidableEq

/-- The message that a handler is called with, if one is, from the memory at its header. -/
def Target.peerMessage (t : Target) (msg : List UInt8) : Option PeerMessage :=
  if t.msgid msg = messagePingId then some (.ping (readUnsigned msg t.offsetId t.sizeofSizeT))
  else if t.msgid msg = messagePongId then some (.pong (readUnsigned msg t.offsetId t.sizeofSizeT))
  else if t.msgid msg = nodeMessagePeerNotifyId then
    some (.peerNotify (slice msg t.offsetNodeId 32) (slice msg t.offsetHost 16) (readUnsigned msg t.offsetPort 2))
  else none

/-! ## The handlers -/

/-- `peer_info`, with its strings as their bytes. -/
structure PeerInfo where
  peerId : List UInt8
  host : List UInt8
  port : Nat
deriving DecidableEq

/-- What a handler has done: a message written to the session, the session closed, the
session set for a peer, or a connection to it asked for. -/
inductive Action where
  | write (m : PeerMessage)
  | closeSession
  | session (peer : PeerInfo)
  | connectPeer (peer : PeerInfo)
deriving DecidableEq

namespace NodeServer

/-- `find_peer`, in the entries of `_peers`. -/
def findPeer (peers : List (List UInt8 × PeerInfo)) (peerId : List UInt8) : Option PeerInfo :=
  (peers.find? fun p => peerId = p.1).map Prod.snd

/-- `onPeerMessagePing`, with what it returns. -/
def onPeerMessagePing (t : Target) (msg : List UInt8) : List Action × Nat :=
  ([.write (.pong (Target.readUnsigned msg t.offsetId t.sizeofSizeT))], 0)

/-- `onPeerMessagePong`. -/
def onPeerMessagePong (_t : Target) (_msg : List UInt8) : List Action × Nat := ([], 0)

/-- `onPeerMessagePeerNotify`; `none` where it reads a string beyond the memory. -/
def onPeerMessagePeerNotify (t : Target) (peers : List (List UInt8 × PeerInfo)) (msg : List UInt8) :
    Option (List Action × Nat) := do
  let nodeId ← upTo 0 (msg.drop t.offsetNodeId)
  match findPeer peers nodeId with
  | none => some ([.closeSession], 1)
  | some peer =>
    let host ← upTo 0 (msg.drop t.offsetHost)
    if peer = ⟨nodeId, host, Target.readUnsigned msg t.offsetPort 2⟩ then
      some ([.session peer, .connectPeer peer], 0)
    else some ([.closeSession], 2)

/-- `onMessage`, which drops what the handlers return. -/
def onMessage (t : Target) (peers : List (List UInt8 × PeerInfo)) (msg : List UInt8) : Option (List Action) :=
  if t.msgid msg = messagePingId then some (onPeerMessagePing t msg).1
  else if t.msgid msg = messagePongId then some (onPeerMessagePong t msg).1
  else if t.msgid msg = nodeMessagePeerNotifyId then (onPeerMessagePeerNotify t peers msg).map Prod.fst
  else some []

variable {t : Target} {peers : List (List UInt8 × PeerInfo)} {msg : List UInt8}

/-- What has been read where `onPeerMessagePeerNotify` does something. -/
theorem onPeerMessagePeerNotify_cases {as : List Action} {n : Nat}
    (h : onPeerMessagePeerNotify t peers msg = some (as, n)) :
    ∃ nodeId, upTo 0 (msg.drop t.offsetNodeId) = some nodeId ∧
      (findPeer peers nodeId = none ∧ as = [.closeSession] ∧ n = 1 ∨
        ∃ peer host, findPeer peers nodeId = some peer ∧ upTo 0 (msg.drop t.offsetHost) = some host ∧
          if peer = ⟨nodeId, host, Target.readUnsigned msg t.offsetPort 2⟩ then
            as = [.session peer, .connectPeer peer] ∧ n = 0
          else as = [.closeSession] ∧ n = 2) := by
  unfold onPeerMessagePeerNotify at h
  obtain ⟨nodeId, hn, h⟩ := Option.bind_eq_some_iff.mp h
  refine ⟨nodeId, hn, ?_⟩
  split at h
  · rename_i hp
    obtain ⟨rfl, rfl⟩ := Prod.mk.inj (Option.some.inj h)
    exact .inl ⟨hp, rfl, rfl⟩
  · rename_i peer hp
    obtain ⟨host, hh, h⟩ := Option.bind_eq_some_iff.mp h
    refine .inr ⟨peer, host, hp, hh, ?_⟩
    split at h
    · obtain ⟨rfl, rfl⟩ := Prod.mk.inj (Option.some.inj h)
      rw [if_pos ‹_›]
      exact ⟨rfl, rfl⟩
    · obtain ⟨rfl, rfl⟩ := Prod.mk.inj (Option.some.inj h)
      rw [if_neg ‹_›]
      exact ⟨rfl, rfl⟩

/-- A peer with the host and the port of the message. -/
theorem onPeerMessagePeerNotify_of_findPeer {nodeId host : List UInt8}
    (hn : upTo 0 (msg.drop t.offsetNodeId) = some nodeId) (hh : upTo 0 (msg.drop t.offsetHost) = some host)
    {peer : PeerInfo} (hpeer : peer = ⟨nodeId, host, Target.readUnsigned msg t.offsetPort 2⟩)
    (hp : findPeer peers nodeId = some peer) :
    onPeerMessagePeerNotify t peers msg = some ([.session peer, .connectPeer peer], 0) := by
  simp only [onPeerMessagePeerNotify, hn, hh, hp, Option.bind_eq_bind, Option.bind_some]
  exact if_pos hpeer

end NodeServer

/-- The memory at the message that an event passes on to `onMessage`, if it does. Nothing
is written to its slot while the message is handled. -/
def P2pServer.dispatched (t : Target) (r : Reader 32) (e : ReadEvent) : Option (List UInt8) :=
  let r' := (P2pServer.handlers t).step r e
  if r'.received.length = r.received.length then none else r.op.map fun op => r'.buffer.memory op.slot

end Bryllite.P2p
