import WarheadFix.Common.MessageBuffer
import WarheadFix.Lib.Channel

/-! The socket of a session: one read at a time, and a queue of packets to write. The two
builds differ in how a packet gets out. With readiness notifications `HandleQueue` writes
as much as the kernel takes and waits for it to take more; with completion ports every
packet is handed over and its completion says how much of it has gone. -/

namespace Warhead
open Lib

inductive WriteResult where
  | wouldBlock
  | tryAgain
  | error
  | sent (bytesSent : Nat)
  deriving DecidableEq

/-- What the kernel answers to the n-th `write_some` of a callback when so many bytes are
offered. -/
abbrev Net := Nat → Nat → WriteResult

structure ReadRequest where
  pos : Nat
  space : Nat
  deriving DecidableEq

/-- The members, and besides them what the socket has outstanding, the packets queued and the
bytes accepted so far, and how often `OnClose` has run. -/
structure Socket where
  readBuffer : MessageBuffer
  writeQueue : List MessageBuffer
  closed : Bool
  closing : Bool
  isWritingAsync : Bool
  reads : List ReadRequest
  writes : List Bytes
  queued : List MessageBuffer
  accepted : Bytes
  onCloseRuns : Nat
  deriving DecidableEq

namespace Socket

def READ_BLOCK_SIZE : Nat := 4096

def new : Socket where
  readBuffer := MessageBuffer.new.resize READ_BLOCK_SIZE
  writeQueue := []
  closed := false
  closing := false
  isWritingAsync := false
  reads := []
  writes := []
  queued := []
  accepted := []
  onCloseRuns := 0

def isOpen (s : Socket) : Bool := !s.closed && !s.closing

def asyncRead (s : Socket) : Socket :=
  if s.isOpen then
    let readBuffer := s.readBuffer.normalize.ensureFreeSpace
    { s with readBuffer, reads := s.reads ++ [⟨readBuffer.wpos, readBuffer.remainingSpace⟩] }
  else s

def closeSocket (s : Socket) : Socket :=
  if s.closed then s else { s with closed := true, onCloseRuns := s.onCloseRuns + 1 }

def delayedCloseSocket (s : Socket) : Socket := { s with closing := true }

def received (s : Socket) (r : ReadRequest) (data : Bytes) : Socket :=
  { s with
    reads := s.reads.tail
    readBuffer := { s.readBuffer with storage := overwrite s.readBuffer.storage r.pos data } }

def queuePacket (s : Socket) (buffer : MessageBuffer) : Socket :=
  { s with writeQueue := s.writeQueue ++ [buffer], queued := s.queued ++ [buffer] }

/-! ## The readiness build -/

def asyncProcessQueue (s : Socket) : Socket × Bool :=
  if s.isWritingAsync then (s, false)
  else ({ s with isWritingAsync := true, writes := s.writes ++ [[]] }, false)

def popPacket (s : Socket) : Socket :=
  let s := { s with writeQueue := s.writeQueue.tail }
  if s.closing && s.writeQueue.isEmpty then s.closeSocket else s

def handleQueue (answer : Nat → WriteResult) (s : Socket) : Socket × Bool :=
  match s.writeQueue with
  | [] => (s, false)
  | queuedMessage :: rest =>
    let bytesToSend := queuedMessage.activeSize
    match answer bytesToSend with
    | .wouldBlock | .tryAgain => s.asyncProcessQueue
    | .error => (s.popPacket, false)
    | .sent bytesSent =>
      let s := { s with accepted := s.accepted ++ queuedMessage.active.take bytesSent }
      if bytesSent = 0 then (s.popPacket, false)
      else if bytesSent < bytesToSend then
        { s with writeQueue := queuedMessage.readCompleted bytesSent :: rest }.asyncProcessQueue
      else
        let s := s.popPacket
        (s, !s.writeQueue.isEmpty)

/-- The loop `for (; HandleQueue();)`, of which the fuel bounds the rounds. -/
def drain (net : Net) : Nat → Nat → Socket → Option Socket
  | 0, _, _ => none
  | fuel + 1, n, s =>
    match s.handleQueue (net n) with
    | (s, true) => drain net fuel (n + 1) s
    | (s, false) => some s

def update (net : Net) (fuel : Nat) (s : Socket) : Option (Socket × Bool) :=
  if s.closed then some (s, false)
  else if s.isWritingAsync || (s.writeQueue.isEmpty && !s.closing) then some (s, true)
  else (drain net fuel 0 s).map (·, true)

def writeHandlerWrapper (net : Net) (s : Socket) : Socket :=
  ({ s with isWritingAsync := false, writes := s.writes.tail }.handleQueue (net 0)).1

end Socket

/-! ## The completion port build -/

namespace Iocp

/-- Nothing, where the front of an empty queue is taken. -/
def asyncProcessQueue (s : Socket) : Option Socket :=
  if s.isWritingAsync then some s
  else
    match s.writeQueue with
    | [] => none
    | buffer :: _ =>
      some { s with isWritingAsync := true, writes := s.writes ++ [buffer.active] }

def queuePacket (s : Socket) (buffer : MessageBuffer) : Option Socket :=
  asyncProcessQueue (s.queuePacket buffer)

def writeHandler (s : Socket) (offered : Bytes) (transferedBytes : Nat) : Option Socket :=
  let s := { s with
    isWritingAsync := false
    writes := s.writes.tail
    accepted := s.accepted ++ offered.take transferedBytes }
  match s.writeQueue with
  | [] => none
  | front :: rest =>
    let front := front.readCompleted transferedBytes
    let s := { s with writeQueue := if front.activeSize = 0 then rest else front :: rest }
    if !s.writeQueue.isEmpty then asyncProcessQueue s
    else some (if s.closing then s.closeSocket else s)

def writeHandlerError (s : Socket) : Socket :=
  { s with writes := s.writes.tail }.closeSocket

def update (s : Socket) : Socket × Bool := (s, !s.closed)

end Iocp
end Warhead
