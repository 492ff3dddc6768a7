import Calculator.Text

/-!
# Control characters and control sequences

A terminal takes some characters as orders. A control sequence begins with the escape
character, and the characters after it say what kind it is and where it ends: an escape
sequence, a control sequence proper, a device control string, or another string.
`withoutControls` leaves out these sequences and all control characters that are no space.
-/

namespace Calculator

inductive Control where
  | outside
  | escape
  | escapeIntermediate
  | parameters
  | deviceEntry
  | deviceParameters
  | deviceIntermediate
  | string
  | systemString
  deriving DecidableEq, Repr

def isAscii (c : Char) : Bool := c.toNat < 0x80

def isC0 (c : Char) : Bool := c.toNat < 0x20

def isSpacing (c : Char) : Bool := c = '\t' || c = '\n' || c = '\x0C' || c = '\r'

def isPlain (c : Char) : Bool := (!isC0 c && c ≠ '\x7F') || isSpacing c

namespace Control

/-- Whether a character inside a sequence is shown. Spacing is obeyed at once, except inside
the strings. -/
def shows (control : Control) (c : Char) : Bool :=
  match control with
  | outside => isPlain c
  | escape | escapeIntermediate | parameters => isSpacing c
  | _ => false

/-- A string also ends at the byte 9C, wherever it occurs. -/
def endsString (c : Char) : Bool := (String.utf8EncodeChar c).contains 0x9C

def afterEscape (c : Char) : Control :=
  if c = '[' then parameters
  else if c = ']' then systemString
  else if c = 'P' then deviceEntry
  else if c = 'X' ∨ c = '^' ∨ c = '_' then string
  else if c.toNat < 0x30 then escapeIntermediate
  else outside

def next (control : Control) (c : Char) : Control :=
  if c = '\x18' ∨ c = '\x1A' then outside
  else if c = '\x1B' then escape
  else
    match control with
    | outside => outside
    | string => if endsString c then outside else string
    | systemString => if c = '\x07' then outside else systemString
    | _ =>
      if isC0 c || c = '\x7F' || !isAscii c then control
      else
        match control with
        | escape => afterEscape c
        | escapeIntermediate => if c.toNat < 0x30 then control else outside
        | parameters => if c.toNat < 0x40 then control else outside
        | deviceEntry =>
          if c.toNat < 0x30 then deviceIntermediate
          else if c.toNat < 0x40 then deviceParameters
          else string
        | deviceParameters =>
          if c.toNat < 0x30 then deviceIntermediate
          else if c.toNat < 0x3C then deviceParameters
          else string
        | _ => if c.toNat < 0x30 then deviceIntermediate else string

end Control

namespace Text

/-- Leaves out what a terminal would not show. Once something is shown inside a sequence, the
sequence is only resumed by the next character that is not plain. -/
def hideControls (control : Control) (resumed : Bool) : Text → Text
  | [] => []
  | c :: rest =>
    if (if resumed then control.shows c else isPlain c) then
      c :: hideControls (if isAscii c then control else .outside) false rest
    else hideControls (control.next c) true rest

def withoutControls (text : Text) : Text := hideControls .outside true text

end Text

end Calculator
