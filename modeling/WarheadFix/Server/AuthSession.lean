import WarheadFix.Shared.FixMessage
import WarheadFix.Shared.Socket

/-! The session of one client: what it does with what it reads, and its callbacks as the
steps of a machine. -/

namespace Warhead
open Lib

inductive AuthStatus where
  | notAuthed
  | authed
  deriving DecidableEq

structure HandlerRun where
  key : Bytes
  buffer : MessageBuffer
  result : Result Bool

/-- The session, and besides its members the handlers it has run and its error lines. -/
structure AuthSession extends Socket where
  status : AuthStatus
  handled : List HandlerRun
  log : List LogLine

def FIX_PROTOCOL_SUPPORT : Bytes := ascii "FIX.5.0"

def HandlerRun.received (r : HandlerRun) : Bytes := r.buffer.active

namespace AuthSession

def new : AuthSession := { Socket.new with status := .notAuthed, handled := [], log := [] }

def closeSocket (s : AuthSession) : AuthSession := { s with toSocket := s.toSocket.closeSocket }

def asyncRead (s : AuthSession) : AuthSession := { s with toSocket := s.toSocket.asyncRead }

def start (s : AuthSession) : AuthSession := s.asyncRead

def logErrors (s : AuthSession) (lines : List LogLine) : AuthSession :=
  { s with log := s.log ++ lines }

def sendPacket (packet : ByteBuffer) (s : AuthSession) : AuthSession × Result Unit :=
  if !s.isOpen then (s.logErrors [.socketIsClose], .ok ())
  else if packet.empty then (s.logErrors [.packetIsEmpty], .ok ())
  else
    match packet.contents with
    | .error f => (s, .error f)
    | .ok contents =>
      match (MessageBuffer.ofSize packet.size).write contents with
      | .error f => (s, .error f)
      | .ok buffer => ({ s with toSocket := s.toSocket.queuePacket buffer }, .ok ())

def handleLogonMessage (env : Env) (s : AuthSession) : AuthSession × Result Bool :=
  let buffer := ByteBuffer.ofMessageBuffer s.readBuffer
  match FixMessage.isReadLogonMessage env buffer with
  | .error f => (s, .error f)
  | .ok (false, lines) => (s.logErrors lines, .ok false)
  | .ok (true, lines) =>
    let s := { s.logErrors lines with status := .authed }
    match FixMessage.prepareTestMessage env buffer with
    | .error f => (s, .error f)
    | .ok buffer =>
      match s.sendPacket buffer with
      | (s, .error f) => (s, .error f)
      | (s, .ok ()) => (s, .ok true)

def handleNewOrderSingleMessage (env : Env) (s : AuthSession) : AuthSession × Result Bool :=
  let buffer := ByteBuffer.ofMessageBuffer s.readBuffer
  match FixMessage.isReadNewOrderSingleMessage env buffer with
  | .error f => (s, .error f)
  | .ok (accepted, lines) => (s.logErrors lines, .ok accepted)

structure AuthHandler where
  status : AuthStatus
  handler : Env → AuthSession → AuthSession × Result Bool

def handlers (cmd : Bytes) : Option AuthHandler :=
  if cmd = ascii "A" then some ⟨.notAuthed, handleLogonMessage⟩
  else if cmd = ascii "D" then some ⟨.authed, handleNewOrderSingleMessage⟩
  else none

def noteRun (s : AuthSession) (r : HandlerRun) : AuthSession :=
  { s with handled := s.handled ++ [r] }

def runHandler (key : Bytes) (h : AuthHandler) (env : Env) (s : AuthSession) :
    AuthSession × Result Bool :=
  let (t, result) := h.handler env s
  (t.noteRun ⟨key, s.readBuffer, result⟩, result)

def fixProtocol (packet : MessageBuffer) : Result Bytes := do
  let data ← span packet.storage (packet.rpos + 2 : Nat) (packet.rpos + 9 : Nat)
  let header ← (MessageBuffer.new.resize 7).write data
  let (text, _) ← (ByteBuffer.ofMessageBuffer header).readCString
  pure text

def resetReadBuffer (s : AuthSession) : AuthSession :=
  { s with readBuffer := s.readBuffer.reset }

def readHandler (env : Env) (s : AuthSession) : AuthSession × Result Unit :=
  match fixProtocol s.readBuffer with
  | .error f => (s, .error f)
  | .ok protocol =>
    if protocol ≠ FIX_PROTOCOL_SUPPORT then
      ((s.logErrors [.unsupportProtocol protocol]).closeSocket, .ok ())
    else
      let buffer := ByteBuffer.ofMessageBuffer s.readBuffer
      match FixMessage.getCommand buffer with
      | .error f => (s, .error f)
      | .ok cmd =>
        match handlers cmd with
        -- the socket stays open here, and so it does at an invalid command
        | none => (s.logErrors [.unknownCommand cmd], .ok ())
        | some h =>
          if s.status ≠ h.status then (s.closeSocket, .ok ())
          else
            match FixMessage.isValidCommand buffer cmd with
            | .error f => (s, .error f)
            | .ok false => (s.logErrors [.invalidCommand cmd], .ok ())
            | .ok true =>
              match s.runHandler cmd h env with
              | (s, .error f) => (s, .error f)
              | (s, .ok false) => (s.closeSocket, .ok ())
              | (s, .ok true) => (s.resetReadBuffer.asyncRead, .ok ())

def readHandlerInternal (env : Env) (transferredBytes : Nat) (s : AuthSession) :
    AuthSession × Result Unit :=
  readHandler env { s with readBuffer := s.readBuffer.writeCompleted transferredBytes }

/-! ## Runs -/

/-- The server with this session; a fault ends it. -/
structure Process where
  session : AuthSession
  failure : Option (Fault Exn)

inductive Event where
  | readCompletion (env : Env) (data : Bytes)
  | readError
  | update (net : Net)
  | writeReady (net : Net)

def Process.after : AuthSession × Result Unit → Process
  | (s, .ok ()) => ⟨s, none⟩
  | (s, .error f) => ⟨s, some f⟩

def completeRead (s : AuthSession) (r : ReadRequest) (env : Env) (data : Bytes) : Process :=
  .after (readHandlerInternal env data.length { s with toSocket := s.toSocket.received r data })

/-- A callback runs only for an operation that is outstanding, and a read completes with some
bytes and no more than were asked for. -/
def step (p : Process) (e : Event) : Option Process :=
  let s := p.session
  if p.failure.isSome then none
  else
    match e with
    | .readCompletion env data =>
      match s.reads with
      | [] => none
      | r :: _ =>
        if data ≠ [] ∧ data.length ≤ r.space then some (s.completeRead r env data) else none
    | .readError =>
      if s.reads = [] then none
      else some { p with session := { s with reads := s.reads.tail }.closeSocket }
    | .update net =>
      (s.toSocket.update net (s.writeQueue.length + 1)).map fun (t, _) =>
        { p with session := { s with toSocket := t } }
    | .writeReady net =>
      if s.writes = [] then none
      else some { p with session := { s with toSocket := s.toSocket.writeHandlerWrapper net } }

def system : System Process Event := ⟨⟨new.start, none⟩, step⟩

end AuthSession
end Warhead
