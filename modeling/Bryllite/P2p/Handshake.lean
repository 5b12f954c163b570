import Bryllite.Framework.Field
import Bryllite.Framework.Run
import Bryllite.P2p.Dispatch

/-!
# The handshake of peers (peer.cpp, peer_message.inl, p2p_server.cpp)

A peer that has connected sends its id, host and port in fixed fields, and the server
compares them with what `append_peer` was called with. The strings are copied without
room for a terminator being left, so a configured peer is accepted, and its strings are
read within their fields, exactly if both are shorter than their fields
(`handshake_iff`). An id of 32 bytes is read on into the host (`handshake_overrun`).
-/

namespace Bryllite.P2p

open Bryllite.Framework

/-- `strlen`. -/
def strlen (s : List UInt8) : Nat := (s.takeWhile (· ≠ 0)).length

/-- `copy_string`, into a target of `targetLength` bytes. -/
def copyString (targetLength : Nat) (source : List UInt8) (sourceLength : Nat) : List UInt8 :=
  patch (List.replicate targetLength 0) 0
    (source.take (if sourceLength < targetLength then sourceLength else targetLength))

namespace Target

/-- An unsigned integer in `len` bytes, least significant byte first. -/
def unsignedBytes (n : Nat) : (len : Nat) → List UInt8
  | 0 => []
  | len + 1 => UInt8.ofNat n :: unsignedBytes (n / 256) len

/-- The `message` of a class, from its id and its size. -/
def message (t : Target) (id size : Nat) : List UInt8 :=
  signature ++ unsignedBytes size t.sizeofSizeT ++ unsignedBytes id 2

/-- `sizeof(node_message_peer_notify)`. -/
def sizeofPeerNotify (t : Target) : Nat := align (t.offsetPort + 2) 2

/-- `node_message_peer_notify`, which has no bytes between its fields. -/
def nodeMessagePeerNotify (t : Target) (nodeId host : List UInt8) (port : UInt16) : List UInt8 :=
  t.message nodeMessagePeerNotifyId t.sizeofPeerNotify ++
    (copyString 32 nodeId (strlen nodeId) ++ (copyString 16 host (strlen host) ++ unsignedBytes port.toNat 2))

end Target

/-- The message that `CPeer::onConnected` writes, with the id, host and port of `_me`. -/
def CPeer.onConnected (t : Target) (peerId host : List UInt8) (port : UInt16) : List UInt8 :=
  t.nodeMessagePeerNotify peerId host port

namespace P2pServer

open NodeServer (findPeer)

/-- `append_peer`, with what it returns. The entries are in the order of their keys. -/
def appendPeer (peers : List (List UInt8 × PeerInfo)) (peer : PeerInfo) : Bool × List (List UInt8 × PeerInfo) :=
  if (findPeer peers peer.peerId).isSome then (false, peers)
  else
    let before := peers.takeWhile fun p => p.1 < peer.peerId
    (true, before ++ (peer.peerId, peer) :: peers.dropWhile fun p => p.1 < peer.peerId)

/-- The peers of a new server after calls of `append_peer`. -/
def appended (calls : List PeerInfo) : List (List UInt8 × PeerInfo) :=
  run (fun peers peer => (appendPeer peers peer).2) [] calls

variable {peers : List (List UInt8 × PeerInfo)} {peer : PeerInfo}

theorem findPeer_append (as bs : List (List UInt8 × PeerInfo)) (peerId : List UInt8) :
    findPeer (as ++ bs) peerId = (findPeer as peerId).or (findPeer bs peerId) := by
  simp [findPeer, List.find?_append, Option.map_or]

theorem findPeer_cons (p : List UInt8 × PeerInfo) (as : List (List UInt8 × PeerInfo)) (peerId : List UInt8) :
    findPeer (p :: as) peerId = if peerId = p.1 then some p.2 else findPeer as peerId := by
  unfold findPeer
  rw [List.find?_cons]
  split <;> simp_all

/-- The entry of a call that returns true is found, -/
theorem findPeer_appendPeer_self (h : (appendPeer peers peer).1 = true) :
    findPeer (appendPeer peers peer).2 peer.peerId = some peer := by
  unfold appendPeer at h ⊢
  split at h
  · cases h
  · rename_i hn
    rw [if_neg hn]
    have hsplit := findPeer_append (peers.takeWhile fun p => p.1 < peer.peerId)
      (peers.dropWhile fun p => p.1 < peer.peerId) peer.peerId
    rw [List.takeWhile_append_dropWhile, Option.not_isSome_iff_eq_none.mp hn] at hsplit
    have hbefore := (Option.or_eq_none_iff.mp hsplit.symm).1
    rw [findPeer_append, hbefore, Option.none_or, findPeer_cons, if_pos rfl]

/-- and so is what was found before a call. -/
theorem findPeer_appendPeer {peerId : List UInt8} {found : PeerInfo} (h : findPeer peers peerId = some found)
    (peer : PeerInfo) : findPeer (appendPeer peers peer).2 peerId = some found := by
  unfold appendPeer
  split
  · exact h
  · rename_i hn
    have hne : peerId ≠ peer.peerId := by
      rintro rfl
      simp [h] at hn
    rw [findPeer_append, findPeer_cons, if_neg hne, ← findPeer_append, List.takeWhile_append_dropWhile]
    exact h

/-- A peer that was appended stays. -/
theorem findPeer_appended {before after : List PeerInfo} (h : (appendPeer (appended before) peer).1 = true) :
    findPeer (appended (before ++ peer :: after)) peer.peerId = some peer := by
  rw [appended, run_append, run_cons]
  exact run_inv_of_all (I := fun peers => findPeer peers peer.peerId = some peer)
    (fun _ p hp => findPeer_appendPeer hp p) (findPeer_appendPeer_self h)

end P2pServer

/-! ## What is in the message -/

theorem copyString_eq (n : Nat) {s : List UInt8} (hs : 0 ∉ s) : copyString n s (strlen s) = field 0 n s := by
  have hlen : strlen s = s.length := by
    rw [strlen, List.takeWhile_eq_self_iff.mpr]
    exact fun c hc => decide_eq_true fun h => hs (h ▸ hc)
  have htake : s.take (if s.length < n then s.length else n) = s.take n := by
    split
    · rw [List.take_length, List.take_of_length_le (by omega)]
    · rfl
  rw [copyString, hlen, htake, patch_zero, field, List.drop_replicate, List.length_take]
  congr 2
  omega

namespace Target

variable {t : Target}

theorem length_unsignedBytes (n len : Nat) : (unsignedBytes n len).length = len := by
  induction len generalizing n with
  | zero => rfl
  | succ len ih => exact congrArg _ (ih _)

theorem ofDigits_unsignedBytes (n len : Nat) :
    Nat.ofDigits 256 ((unsignedBytes n len).map UInt8.toNat) = n % 256 ^ len := by
  induction len generalizing n with
  | zero => rw [pow_zero, Nat.mod_one]; rfl
  | succ len ih =>
    have hbyte : (UInt8.ofNat n).toNat = n % 256 := UInt8.toNat_ofNat'
    rw [unsignedBytes, List.map_cons, Nat.ofDigits_cons, ih, hbyte, Nat.pow_succ', Nat.mod_mul]

theorem length_message (id size : Nat) : (t.message id size).length = t.sizeofMessage := by
  simp only [message, List.length_append, length_unsignedBytes]
  rfl

/-- The fields one after the other, and what is behind them. -/
theorem offsets (t : Target) : t.offsetHost = t.sizeofMessage + 32 ∧ t.offsetPort = t.offsetHost + 16 := by
  cases t <;> decide

end Target

section Notify

variable {t : Target} {peerId host : List UInt8} {port : UInt16}

theorem onConnected_eq (hid : 0 ∉ peerId) (hhost : 0 ∉ host) : CPeer.onConnected t peerId host port =
    t.message nodeMessagePeerNotifyId t.sizeofPeerNotify ++
      (field 0 32 peerId ++ (field 0 16 host ++ Target.unsignedBytes port.toNat 2)) := by
  rw [CPeer.onConnected, Target.nodeMessagePeerNotify, copyString_eq 32 hid, copyString_eq 16 hhost]

/-- The message is a frame, so a session that it is sent to passes it on. -/
theorem isFrame_onConnected (hid : 0 ∉ peerId) (hhost : 0 ∉ host) :
    t.framing.IsFrame (CPeer.onConnected t peerId host port) := by
  rw [onConnected_eq hid hhost]
  have htake : ∀ bs, (t.message nodeMessagePeerNotifyId t.sizeofPeerNotify ++ bs).take t.sizeofMessage =
      (t.message nodeMessagePeerNotifyId t.sizeofPeerNotify).take t.sizeofMessage := fun bs => by
    rw [List.take_append_of_le_length (Nat.le_of_eq (Target.length_message _ _).symm)]
  apply Target.isFrame
  · rw [Target.valid_congr (htake _)]
    cases t <;> decide
  · rw [Target.size_congr (htake _)]
    simp only [List.length_append, Target.length_message, length_field, Target.length_unsignedBytes]
    cases t <;> decide

variable (behind : List UInt8)

theorem drop_offsetNodeId (hid : 0 ∉ peerId) (hhost : 0 ∉ host) :
    (CPeer.onConnected t peerId host port ++ behind).drop t.offsetNodeId =
      field 0 32 peerId ++ (field 0 16 host ++ Target.unsignedBytes port.toNat 2 ++ behind) := by
  rw [onConnected_eq hid hhost, List.append_assoc, Target.offsetNodeId, List.drop_left' (Target.length_message _ _),
    List.append_assoc]

theorem drop_offsetHost (hid : 0 ∉ peerId) (hhost : 0 ∉ host) :
    (CPeer.onConnected t peerId host port ++ behind).drop t.offsetHost =
      field 0 16 host ++ (Target.unsignedBytes port.toNat 2 ++ behind) := by
  have hoff : t.offsetHost = t.offsetNodeId + 32 := rfl
  rw [hoff, ← List.drop_drop, drop_offsetNodeId behind hid hhost, List.drop_left' (length_field _ _ _),
    List.append_assoc]

theorem readUnsigned_offsetPort (hid : 0 ∉ peerId) (hhost : 0 ∉ host) :
    Target.readUnsigned (CPeer.onConnected t peerId host port ++ behind) t.offsetPort 2 = port.toNat := by
  rw [Target.readUnsigned, slice, t.offsets.2, ← List.drop_drop, drop_offsetHost behind hid hhost,
    List.drop_left' (length_field _ _ _), List.take_left' (Target.length_unsignedBytes _ _),
    Target.ofDigits_unsignedBytes]
  exact Nat.mod_eq_of_lt port.toNat_lt

end Notify

/-! ## The handshake -/

/-- The string at `off` is read within the `len` bytes of its field, with its terminator. -/
def ReadsWithin (msg : List UInt8) (off len : Nat) : Prop := ∃ s, upTo 0 (msg.drop off) = some s ∧ s.length < len

/-- `onPeerMessagePeerNotify` finds the peer `me` and returns 0, and reads the strings
within their fields. -/
structure Handshake (t : Target) (peers : List (List UInt8 × PeerInfo)) (me : PeerInfo) (msg : List UInt8) : Prop where
  accepted : NodeServer.onPeerMessagePeerNotify t peers msg = some ([.session me, .connectPeer me], 0)
  nodeId : ReadsWithin msg t.offsetNodeId 32
  host : ReadsWithin msg t.offsetHost 16

open P2pServer (appendPeer appended findPeer_appended)

variable {t : Target} {peerId host : List UInt8} {port : UInt16} {peers : List (List UInt8 × PeerInfo)}

/-- A peer is accepted if its strings are read back. -/
theorem accepted_iff (hid : 0 ∉ peerId) (hhost : 0 ∉ host) (behind : List UInt8)
    (hf : NodeServer.findPeer peers peerId = some ⟨peerId, host, port.toNat⟩) :
    let msg := CPeer.onConnected t peerId host port ++ behind
    let me : PeerInfo := ⟨peerId, host, port.toNat⟩
    NodeServer.onPeerMessagePeerNotify t peers msg = some ([.session me, .connectPeer me], 0) ↔
      upTo 0 (msg.drop t.offsetNodeId) = some peerId ∧ upTo 0 (msg.drop t.offsetHost) = some host := by
  intro msg me
  constructor
  · intro h
    obtain ⟨nodeId, hn, ⟨-, hclose, -⟩ | ⟨peer, host', -, hh, hpeer⟩⟩ := NodeServer.onPeerMessagePeerNotify_cases h
    · cases hclose
    · split at hpeer
      · rename_i heq
        obtain ⟨hme, -⟩ := hpeer
        simp only [List.cons.injEq, Action.session.injEq] at hme
        obtain ⟨rfl, rfl, -⟩ := PeerInfo.mk.inj (hme.1.trans heq)
        exact ⟨hn, hh⟩
      · cases hpeer.1
  · rintro ⟨hn, hh⟩
    exact NodeServer.onPeerMessagePeerNotify_of_findPeer hn hh (by rw [readUnsigned_offsetPort behind hid hhost]) hf

/-- A peer that was appended with its own id, host and port sends a message that is
accepted, with its strings read within their fields, exactly if both are shorter than
these. -/
theorem handshake_iff (hid : 0 ∉ peerId) (hhost : 0 ∉ host) {before after : List PeerInfo}
    (ha : (appendPeer (appended before) ⟨peerId, host, port.toNat⟩).1 = true) {msg : List UInt8}
    (hm : CPeer.onConnected t peerId host port <+: msg) :
    Handshake t (appended (before ++ ⟨peerId, host, port.toNat⟩ :: after)) ⟨peerId, host, port.toNat⟩ msg ↔
      peerId.length < 32 ∧ host.length < 16 := by
  obtain ⟨behind, rfl⟩ := hm
  have hnode := @drop_offsetNodeId t peerId host port behind hid hhost
  have hhostd := @drop_offsetHost t peerId host port behind hid hhost
  constructor
  · rintro ⟨-, hn, hh⟩
    unfold ReadsWithin at hn hh
    rw [hnode, upTo_field_within_iff hid] at hn
    rw [hhostd, upTo_field_within_iff hhost] at hh
    exact ⟨hn, hh⟩
  · rintro ⟨hn, hh⟩
    have hreadn := hnode ▸ (upTo_field_iff hid _).mpr (.inl hn)
    have hreadh := hhostd ▸ (upTo_field_iff hhost _).mpr (.inl hh)
    exact
      { accepted := (accepted_iff hid hhost behind (findPeer_appended ha)).mpr ⟨hreadn, hreadh⟩
        nodeId := ⟨peerId, hreadn, hn⟩
        host := ⟨host, hreadh, hh⟩ }

/-- `127.0.0.1`. -/
def localhost : List UInt8 := [49, 50, 55, 46, 48, 46, 48, 46, 49]

/-- `node1` is accepted by a server that has another peer too. -/
theorem handshake_iff_sample :
    let peers := appended [⟨[110, 111, 100, 101, 50], localhost, 8001⟩, ⟨[110, 111, 100, 101, 49], localhost, 8000⟩]
    Handshake .x64 peers ⟨[110, 111, 100, 101, 49], localhost, 8000⟩
      (CPeer.onConnected .x64 [110, 111, 100, 101, 49] localhost 8000) :=
  (@handshake_iff .x64 [110, 111, 100, 101, 49] localhost 8000 (by decide) (by decide)
    [⟨[110, 111, 100, 101, 50], localhost, 8001⟩] [] (by decide) _ (List.prefix_refl _)).mpr (by decide)

/-- An id of 32 bytes is read with the host behind it, and its peer is not found. -/
theorem handshake_overrun :
    let peerId : List UInt8 := List.replicate 32 97
    let me : PeerInfo := ⟨peerId, localhost, 8000⟩
    let msg := CPeer.onConnected .x64 peerId localhost 8000
    (appendPeer [] me).1 = true ∧ upTo 0 (msg.drop Target.x64.offsetNodeId) = some (peerId ++ localhost) ∧
      NodeServer.onPeerMessagePeerNotify .x64 (appended [me]) msg = some ([.closeSession], 1) ∧
      ¬Handshake .x64 (appended [me]) me msg := by
  intro peerId me msg
  have hr : NodeServer.onPeerMessagePeerNotify .x64 (appended [me]) msg = some ([.closeSession], 1) := by decide +kernel
  refine ⟨by decide +kernel, by decide +kernel, hr, fun h => ?_⟩
  rw [h.accepted] at hr
  simp at hr

end Bryllite.P2p
