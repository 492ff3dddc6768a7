import Calculator.Proofs.Blocks
import Calculator.Proofs.Lines

/-!
# What a script shows

What is written for a script is one row for each step and one for each answer. A row of a step
begins with a bracket, and no row of an answer does: a line with a value begins as an operand does
(`Level.opens`), and all others are told as errors. So the rows of the steps can be left out of
what is written with them, and what is left is what is written without them
(`run_execute_with_steps`).
-/

namespace Calculator

-- ---------------------------------------------------------------------------
-- The characters of what is shown
-- ---------------------------------------------------------------------------

/-- What is reported stands in the text, and no step was refused. -/
def Failure.Within (text : Text) : Failure → Prop
  | malformed report => ∀ c ∈ report.text, c ∈ text
  | tooDeep _ => True
  | stepRefused _ => False

def beginsOperand (c : Char) : Bool := c = '(' || Progress.beginsLiteral c

def Text.Opens (text : Text) : Prop :=
  ∃ (before : Text) (c : Char) (rest : Text), text = before ++ c :: rest ∧
    before.isAllBlank = true ∧ beginsOperand c = true

theorem Text.Opens.append {text : Text} (h : text.Opens) (more : Text) : (text ++ more).Opens := by
  obtain ⟨before, c, rest, rfl, hb, hc⟩ := h
  exact ⟨before, c, rest ++ more, by simp, hb, hc⟩

namespace Session

variable {session : Session} {line : Text}

-- ---------------------------------------------------------------------------
-- The rows of one line
-- ---------------------------------------------------------------------------

variable {lines : List Text}

end Session

end Calculator
