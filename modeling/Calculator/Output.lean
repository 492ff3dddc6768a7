import Calculator.Sink

/-!
# The output of a session

An output takes bytes until it has no room for the next one. The line that needs more room
is cut there and its writing fails. Then the output is full for good, or it recovers and
has no limit any more.
-/

namespace Calculator

structure Output where
  written : Array UInt8 := #[]
  room : Option Nat := none
  recovers : Bool := false
  deriving DecidableEq, Repr

namespace Output

def append (out : Output) (bytes : List UInt8) : Output :=
  { out with written := out.written ++ bytes }

def writeLine (line : Text) (out : Output) : Except WriteError Unit × Output :=
  let bytes := Text.utf8 (line ++ ['\n'])
  match out.room with
  | none => (.ok (), out.append bytes)
  | some room =>
    if bytes.length ≤ room then
      (.ok (), { out.append bytes with room := some (room - bytes.length) })
    else
      (.error .full,
        { out.append (bytes.take room) with room := if out.recovers then none else some 0 })

def sink : Sink Output := ⟨writeLine⟩

end Output

end Calculator
