import Mathlib
import Tetra.Primitives

/-!
Messages between two nodes: how one is written to the queue and sent as the socket takes
it, and how the other reads the bytes in whatever pieces they arrive.
-/
namespace Tetra

abbrev CSerializeData := List UInt8

/-- The bytes that start every message, and the hash behind the checksum. -/
structure NetRules where
  pchMessageStart : List UInt8
  size_start : pchMessageStart.length = 4
  Hash : List UInt8 → uint256

/-- The bytes of an `unsigned int` in memory. -/
def uintBytes (n : Nat) : List UInt8 := [UInt8.ofNat n,UInt8.ofNat (n/2^8),UInt8.ofNat (n/2^16),UInt8.ofNat (n/2^24)]

def uintOf : List UInt8 → Nat
  | [a,b,c,d] => a.toNat+b.toNat*2^8+c.toNat*2^16+d.toNat*2^24
  | _ => 0

/-- `memcpy(&buf[pos], bytes)` -/
def overwrite (buf : List UInt8) (pos : Nat) (bytes : List UInt8) : List UInt8 := buf.take pos ++ bytes ++ buf.drop (pos+bytes.length)

def resize (buf : List UInt8) (n : Nat) : List UInt8 := buf.take n ++ List.replicate (n-buf.length) 0

def COMMAND_SIZE : Nat := 12

/-- `strncpy(pchCommand, pszCommand, COMMAND_SIZE)`: the command ends at its first zero. -/
def strncpy (pszCommand : List UInt8) : List UInt8 := resize (pszCommand.takeWhile fun byte => byte != 0) COMMAND_SIZE

structure CMessageHeader where
  pchMessageStart : List UInt8
  pchCommand : List UInt8
  nMessageSize : Nat
  nChecksum : Nat
deriving DecidableEq

namespace CMessageHeader

def HEADER_SIZE : Nat := 24
def MESSAGE_SIZE_OFFSET : Nat := 16
def CHECKSUM_OFFSET : Nat := 20

def make (net : NetRules) (pszCommand : List UInt8) (nMessageSizeIn : Nat) : CMessageHeader :=
  ⟨net.pchMessageStart,strncpy pszCommand,nMessageSizeIn,0⟩

/-- A header before it is read. -/
def unread (net : NetRules) : CMessageHeader := ⟨net.pchMessageStart,0 :: 1 :: List.replicate 10 0,2^32-1,0⟩

def bytes (hdr : CMessageHeader) : List UInt8 := hdr.pchMessageStart ++ hdr.pchCommand ++ uintBytes hdr.nMessageSize ++ uintBytes hdr.nChecksum

/-- `hdrbuf >> hdr`; none is the exception at the end of the data. -/
def read (hdrbuf : List UInt8) : Option CMessageHeader :=
  if hdrbuf.length < HEADER_SIZE then none
  else some ⟨hdrbuf.take 4,(hdrbuf.drop 4).take 12,uintOf ((hdrbuf.drop 16).take 4),uintOf ((hdrbuf.drop 20).take 4)⟩

end CMessageHeader

structure CNetMessage where
  in_data : Bool := false
  hdrbuf : List UInt8 := List.replicate 24 0
  hdr : CMessageHeader
  nHdrPos : Nat := 0
  vRecv : List UInt8 := []
  nDataPos : Nat := 0
deriving DecidableEq

namespace CNetMessage

def complete (msg : CNetMessage) : Bool := if !msg.in_data then false else msg.hdr.nMessageSize == msg.nDataPos

/-- The bytes it took, or -1. The buffer is empty after its last byte was read. -/
def readHeader (msg : CNetMessage) (pch : List UInt8) : Int × CNetMessage :=
  let nRemaining := 24-msg.nHdrPos
  let nCopy := min nRemaining pch.length
  let msg := {msg with hdrbuf := overwrite msg.hdrbuf msg.nHdrPos (pch.take nCopy),nHdrPos := msg.nHdrPos+nCopy}
  if msg.nHdrPos < 24 then (nCopy,msg)
  else
    match CMessageHeader.read msg.hdrbuf with
    | none => (-1,msg)
    | some hdr =>
      let msg := {msg with hdr := hdr,hdrbuf := msg.hdrbuf.drop 24}
      if hdr.nMessageSize > MAX_SIZE then (-1,msg)
      else (nCopy,{msg with in_data := true,vRecv := resize msg.vRecv hdr.nMessageSize})

def readData (msg : CNetMessage) (pch : List UInt8) : Int × CNetMessage :=
  let nRemaining := msg.hdr.nMessageSize-msg.nDataPos
  let nCopy := min nRemaining pch.length
  (nCopy,{msg with vRecv := overwrite msg.vRecv msg.nDataPos (pch.take nCopy),nDataPos := msg.nDataPos+nCopy})

end CNetMessage

/-- What a node has for one peer. -/
structure CNode where
  /-- Whether the socket is open. -/
  hSocket : Bool := true
  fDisconnect : Bool := false
  ssSend : List UInt8 := []
  nSendSize : Nat := 0
  nSendOffset : Nat := 0
  nSendBytes : Nat := 0
  vSendMsg : List CSerializeData := []
  vRecvMsg : List CNetMessage := []

/-- What `send` returns: the bytes that the socket takes, which may be none, or an error;
    some errors close the connection. -/
inductive SendResult
  | bytes (n : Nat)
  | error (fatal : Bool)

namespace CNode

def CloseSocketDisconnect (node : CNode) : CNode := {node with fDisconnect := true,hSocket := false,vRecvMsg := []}

/-- The loop of `SocketSendData` from an entry of the queue on: the entries that are left
    and the bytes that go out. After the last given result the socket takes nothing. -/
def sendMsgs (node : CNode) : List CSerializeData → List SendResult → Except Reject (List CSerializeData × CNode × List UInt8)
  | [], _ => .ok ([],node,[])
  | data :: rest, results =>
    if ¬data.length > node.nSendOffset then .error (.asserts "data.size() > pnode->nSendOffset")
    else
      match if node.hSocket then results.head?.getD (.error false) else .error true with
      | .bytes n =>
        let sent := (data.drop node.nSendOffset).take n
        if sent.isEmpty then .ok (data :: rest,node,[])
        else
          let node := {node with nSendBytes := node.nSendBytes+sent.length,nSendOffset := node.nSendOffset+sent.length}
          if node.nSendOffset = data.length then
            match sendMsgs {node with nSendOffset := 0,nSendSize := node.nSendSize-data.length} rest results.tail with
            | .error e => .error e
            | .ok (left,node,more) => .ok (left,node,sent ++ more)
          else .ok (data :: rest,node,sent)
      | .error fatal => .ok (data :: rest,if fatal then node.CloseSocketDisconnect else node,[])

def SocketSendData (node : CNode) (results : List SendResult) : Except Reject (CNode × List UInt8) :=
  match node.sendMsgs node.vSendMsg results with
  | .error e => .error e
  | .ok (left,node,sent) =>
    if left.isEmpty ∧ node.nSendOffset ≠ 0 then .error (.asserts "pnode->nSendOffset == 0")
    else if left.isEmpty ∧ node.nSendSize ≠ 0 then .error (.asserts "pnode->nSendSize == 0")
    else .ok ({node with vSendMsg := left},sent)

def BeginMessage (net : NetRules) (node : CNode) (pszCommand : List UInt8) : Except Reject CNode :=
  if node.ssSend.length ≠ 0 then .error (.asserts "ssSend.size() == 0")
  else .ok {node with ssSend := node.ssSend ++ (CMessageHeader.make net pszCommand 0).bytes}

def AbortMessage (node : CNode) : CNode := {node with ssSend := []}

/-- A node under test may drop the message instead. -/
def EndMessage (net : NetRules) (node : CNode) (drops : Bool) (results : List SendResult) : Except Reject (CNode × List UInt8) :=
  if drops then .ok (node.AbortMessage,[])
  else if node.ssSend.length = 0 then .ok (node,[])
  else
    let nSize := (node.ssSend.length-CMessageHeader.HEADER_SIZE)%2^32
    let ssSend := overwrite node.ssSend CMessageHeader.MESSAGE_SIZE_OFFSET (uintBytes nSize)
    let nChecksum := net.Hash (ssSend.drop CMessageHeader.HEADER_SIZE)%2^32
    if ¬ssSend.length ≥ CMessageHeader.CHECKSUM_OFFSET+4 then
      .error (.asserts "ssSend.size () >= CMessageHeader::CHECKSUM_OFFSET + sizeof(nChecksum)")
    else
      let data := overwrite ssSend CMessageHeader.CHECKSUM_OFFSET (uintBytes nChecksum)
      let wasEmpty := node.vSendMsg.isEmpty
      let node := {node with ssSend := [],vSendMsg := node.vSendMsg ++ [data],nSendSize := node.nSendSize+data.length}
      if wasEmpty then node.SocketSendData results else .ok (node,[])

/-- The arguments come as the bytes of their serialization. -/
def PushMessage (net : NetRules) (node : CNode) (pszCommand arguments : List UInt8) (drops : Bool) (results : List SendResult) :
    Except Reject (CNode × List UInt8) :=
  match node.BeginMessage net pszCommand with
  | .error e => .error e
  | .ok node => ({node with ssSend := node.ssSend ++ arguments} : CNode).EndMessage net drops results

/-- The loop of `ReceiveMsgBytes`. -/
def receive (net : NetRules) : Nat → CNode → List UInt8 → Bool × CNode
  | fuel+1, node, pch =>
    if pch.length > 0 then
      let vRecvMsg := if (node.vRecvMsg.getLast?.map CNetMessage.complete).getD true then
          node.vRecvMsg ++ [{hdr := CMessageHeader.unread net}]
        else node.vRecvMsg
      match vRecvMsg.getLast? with
      | none => (true,node)
      | some msg =>
        let (handled,msg) := if !msg.in_data then msg.readHeader pch else msg.readData pch
        let node := {node with vRecvMsg := vRecvMsg.dropLast ++ [msg]}
        if handled < 0 then (false,node) else receive net fuel node (pch.drop handled.toNat)
    else (true,node)
  | 0, node, _ => (true,node)

/-- Every turn takes a byte, so their number is enough fuel. -/
def ReceiveMsgBytes (net : NetRules) (node : CNode) (pch : List UInt8) : Bool × CNode := receive net pch.length node pch

end CNode

/-- One direction of a connection. -/
structure Connection where
  sender : CNode := {}
  receiver : CNode := {}
  /-- What was sent, and the last bytes of it, which have not been received. -/
  wire : List UInt8 := []
  inFlight : List UInt8 := []

inductive NetEvent
  | PushMessage (pszCommand arguments : List UInt8) (drops : Bool) (results : List SendResult)
  | SocketSendData (results : List SendResult)
  | ReceiveMsgBytes (nBytes : UInt32)

namespace Connection

def push (c : Connection) (sent : CNode × List UInt8) : Connection :=
  {c with sender := sent.1,wire := c.wire ++ sent.2,inFlight := c.inFlight ++ sent.2}

def step (net : NetRules) (c : Connection) : NetEvent → Except Reject Connection
  | .PushMessage pszCommand arguments drops results => (c.sender.PushMessage net pszCommand arguments drops results).map c.push
  | .SocketSendData results => (c.sender.SocketSendData results).map c.push
  | .ReceiveMsgBytes nBytes =>
    if !c.receiver.hSocket then .ok c
    else
      let (received,receiver) := c.receiver.ReceiveMsgBytes net (c.inFlight.take nBytes.toNat)
      .ok {c with receiver := if received then receiver else receiver.CloseSocketDisconnect,inFlight := c.inFlight.drop nBytes.toNat}

def run (net : NetRules) (c : Connection) : List NetEvent → Except Reject Connection
  | [] => .ok c
  | event :: events =>
    match c.step net event with
    | .error e => .error e
    | .ok c => run net c events

end Connection
end Tetra
