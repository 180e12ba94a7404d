import WarheadFix.Shared.MessageReader
import WarheadFix.Shared.MessageWriter

/-! What the server does with a FIX message: its command, the two readers and the reply.
The checks of a reader are first a function of the bytes and then of the packet. -/

namespace Warhead
open Lib Hffix

inductive LogLine where
  | invalidFixMessage (text : Option Bytes)
  | isNotLogonType (type : Bytes)
  | isNotNewOrderSingleType (type : Bytes)
  | errorReadingFields (what : Exn)
  | unsupportProtocol (fixProtocol : Bytes)
  | unknownCommand (cmd : Bytes)
  | invalidCommand (cmd : Bytes)
  | socketIsClose
  | packetIsEmpty
  deriving DecidableEq

/-- What a handler finds outside the message: whether the info lines are logged, the clock,
and the memory from the local array of `PrepareTestMessage` on, which is not initialized. -/
structure Env where
  shouldLog : Bool
  now : Timestamp
  stack : Bytes

namespace FixMessage

def commandOf (mem : Bytes) (size : Nat) : Result Bytes := do
  let reader ← messageReader mem size
  if reader.isValid then asString mem reader.begin_.current.value else pure []

def getCommand (packet : ByteBuffer) : Result Bytes := do
  let message ← packet.contents
  commandOf message packet.size

def isValidCommand (packet : ByteBuffer) (command : Bytes) : Result Bool := do
  let message ← packet.contents
  let reader ← messageReader message packet.size
  if reader.isValid then do
    let value ← asString message reader.begin_.current.value
    pure (eqString value command)
  else pure false

/-! ## Reading the fields -/

/-- A log macro evaluates its arguments under a handler for every exception. -/
def logged {α : Type} : Result α → Result Unit
  | .ok _ => .ok ()
  | .error (.thrown _) => .ok ()
  | .error f => .error f

/-- Looks a field up and logs its value. The iterator moves on inside the arguments of the
macro, so only when the line is logged. -/
def logField {α : Type} (shouldLog : Bool) (mem : Bytes) (reader : MessageReader) (tag : Int)
    (convert : Bytes → FieldValue → Result α) (i : ConstIterator) : Result ConstIterator := do
  match ← findWithHint mem reader tag i with
  | none => pure i
  | some j =>
    if shouldLog then do
      let k ← increment mem reader j
      logged (convert mem j.current.value)
      pure k
    else pure j

def logonFields (shouldLog : Bool) (mem : Bytes) (reader : MessageReader) : Result Unit := do
  let i ← logField shouldLog mem reader 49 asString reader.begin_
  let i ← logField shouldLog mem reader 8 asString i
  let i ← logField shouldLog mem reader 34 asInt i
  match ← findWithHint mem reader 52 i with
  | none => pure ()
  | some j => do
    let _ ← increment mem reader j
    let _ ← asTimestamp mem j.current.value
    pure ()

def newOrderSingleFields (shouldLog : Bool) (mem : Bytes) (reader : MessageReader) :
    Result Unit := do
  let i ← logField shouldLog mem reader 54 asChar reader.begin_
  let i ← logField shouldLog mem reader 55 asString i
  let i ← logField shouldLog mem reader 38 asInt i
  match ← findWithHint mem reader 44 i with
  | none => pure ()
  | some j => do
    let _ ← asDecimal mem j.current.value
    pure ()

inductive Reading where
  | invalid
  | wrongType (type : Bytes)
  | failed (what : Exn)
  | read
  deriving DecidableEq

/-- The handler both readers have around the fields, for exceptions of the standard library. -/
def caught : Result Reading → Result Reading
  | .error (.thrown what) => .ok (.failed what)
  | body => body

def readingOf (type : Bytes) (fields : Bytes → MessageReader → Result Unit) (mem : Bytes)
    (size : Nat) : Result Reading := do
  let reader ← messageReader mem size
  if reader.isValid then
    caught do
      let value ← asString mem reader.begin_.current.value
      if ← eqCString value type then do
        fields mem reader
        pure .read
      else pure (.wrongType value)
  else pure .invalid

def logonReading (shouldLog : Bool) : Bytes → Nat → Result Reading :=
  readingOf (ascii "A") (logonFields shouldLog)

def newOrderSingleReading (shouldLog : Bool) : Bytes → Nat → Result Reading :=
  readingOf (ascii "D") (newOrderSingleFields shouldLog)

def answer (packet : ByteBuffer) (isNotType : Bytes → LogLine) : Reading → Bool × List LogLine
  | .invalid => (false, [.invalidFixMessage (packet.readCString.toOption.map Prod.fst)])
  | .wrongType type => (false, [isNotType type])
  | .failed what => (false, [.errorReadingFields what])
  | .read => (true, [])

def isReadLogonMessage (env : Env) (packet : ByteBuffer) : Result (Bool × List LogLine) := do
  let message ← packet.contents
  let reading ← logonReading env.shouldLog message packet.size
  pure (answer packet .isNotLogonType reading)

def isReadNewOrderSingleMessage (env : Env) (packet : ByteBuffer) :
    Result (Bool × List LogLine) := do
  let message ← packet.contents
  let reading ← newOrderSingleReading env.shouldLog message packet.size
  pure (answer packet .isNotNewOrderSingleType reading)

/-! ## The reply -/

def logonCalls (now : Timestamp) : List (MessageWriter → Result MessageWriter) :=
  [ (·.pushBackString 35 (ascii "A")),
    (·.pushBackString 49 (ascii "AAAA")),
    (·.pushBackString 56 (ascii "BBBB")),
    (·.pushBackInt 34 1),
    (·.pushBackTimestamp 52 now),
    (·.pushBackInt 98 0),
    (·.pushBackInt 108 10)]

def newOrderCalls (now : Timestamp) : List (MessageWriter → Result MessageWriter) :=
  [ (·.pushBackString 35 (ascii "D")),
    (·.pushBackString 49 (ascii "AAAA")),
    (·.pushBackString 56 (ascii "BBBB")),
    (·.pushBackInt 34 2),
    (·.pushBackTimestamp 52 now),
    (·.pushBackString 11 (ascii "A1")),
    (·.pushBackChar 21 49),
    (·.pushBackString 55 (ascii "OIH")),
    (·.pushBackChar 54 49),
    (·.pushBackTimestamp 60 now),
    (·.pushBackInt 38 100),
    (·.pushBackChar 40 50),
    (·.pushBackDecimal 44 50001 (-2)),
    (·.pushBackChar 59 49)]

def writeMessage (room : Nat) (calls : List (MessageWriter → Result MessageWriter)) :
    Result Bytes := do
  let w ← (MessageWriter.new room).pushBackHeader (ascii "FIX.5.0")
  let w ← MessageWriter.pushAll calls w
  let w ← w.pushBackTrailer
  pure w.written

/-- The Logon and the New Order Single, one after the other in an array of 4096 characters. -/
def testMessages (now : Timestamp) : Result (Bytes × Bytes) := do
  let logon ← writeMessage 4096 (logonCalls now)
  let newOrder ← writeMessage (4096 - logon.length) (newOrderCalls now)
  pure (logon, newOrder)

def cString (mem : Bytes) : Result Bytes :=
  if (0 : UInt8) ∈ mem then .ok (mem.takeWhile (· != 0)) else .error .undefined

def prepareTestMessage (env : Env) (packet : ByteBuffer) : Result ByteBuffer := do
  let (logon, newOrder) ← testMessages env.now
  let buffer := overwrite env.stack 0 (logon ++ newOrder)
  let packet := packet.resize 4096
  let text ← cString buffer
  packet.appendString text

end FixMessage
end Warhead
