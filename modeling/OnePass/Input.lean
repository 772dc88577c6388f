/-! # Program input

A program is a sequence of characters in which reading may fail. Read from a text it never fails.
Read as bytes, it arrives in pieces cut anywhere: the bytes are gathered into lines, each line up to
and including its line feed, and a line is decoded as a whole. A read that brings no bytes stands for
the end of what is read: it completes the line begun before it, and with no such line the program
ends there.
-/
namespace OnePass

inductive ReadFailure where
  | invalidUtf8
  | device (message : String)
  deriving DecidableEq, Repr

def ReadFailure.message : ReadFailure → String
  | invalidUtf8 => "stream did not contain valid UTF-8"
  | device text => text

/-- What one attempt to read bytes may bring. An interrupted attempt is made again. -/
inductive ReadEvent where
  | bytes (data : List UInt8)
  | failure (message : String)
  | interrupted
  deriving DecidableEq, Repr

namespace Input

/-- A character of the program, or a failure in place of a lost line. -/
inductive Item where
  | char (c : Char)
  | failure (reason : ReadFailure)
  deriving DecidableEq, Repr

/-- One byte of the stream, the failure of a read, or a read without bytes. -/
inductive Signal where
  | byte (b : UInt8)
  | failure (message : String)
  | nothing
  deriving DecidableEq, Repr

def signals (events : List ReadEvent) : List Signal :=
  events.flatMap fun
    | .bytes [] => [.nothing]
    | .bytes data => data.map .byte
    | .failure message => [.failure message]
    | .interrupted => []

def decodeLine (line : List UInt8) : List Item :=
  match ByteArray.utf8Decode? ⟨line.toArray⟩ with
  | some chars => chars.toList.map .char
  | none => [.failure .invalidUtf8]

/-- Gathers the stream into lines. `pending` holds the bytes of the line begun so far, last one
first; a failing read loses them. -/
def gather (pending : List UInt8) : List Signal → List Item
  | [] => if pending.isEmpty then [] else decodeLine pending.reverse
  | .byte b :: rest =>
    if b = 0x0A then decodeLine (b :: pending).reverse ++ gather [] rest
    else gather (b :: pending) rest
  | .failure message :: rest => .failure (.device message) :: gather [] rest
  | .nothing :: rest => if pending.isEmpty then [] else decodeLine pending.reverse ++ gather [] rest

end Input

structure Input where
  items : List Input.Item
  deriving DecidableEq, Repr

namespace Input

def ofText (text : String) : Input :=
  ⟨text.toList.map .char⟩

def ofReads (events : List ReadEvent) : Input :=
  ⟨gather [] (signals events)⟩

end Input

end OnePass
