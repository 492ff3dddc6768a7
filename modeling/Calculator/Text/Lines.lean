import Calculator.Text

/-!
# Lines

A line ends at a line feed, which takes one carriage return before it along. The last line
may lack its end; it then keeps a carriage return.
-/

namespace Calculator.Text

def lines : Text → List Text
  | [] => []
  | '\n' :: rest => [] :: lines rest
  | '\r' :: '\n' :: rest => [] :: lines rest
  | c :: rest =>
    match lines rest with
    | [] => [[c]]
    | line :: more => (c :: line) :: more

example : lines "1+1\r\n\n2\r".toList = ["1+1".toList, [], "2\r".toList] := by decide

end Calculator.Text
