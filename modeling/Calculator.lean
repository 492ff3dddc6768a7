import Calculator.Main
import Calculator.Proofs.Balance
import Calculator.Proofs.Chain
import Calculator.Proofs.Form
import Calculator.Proofs.Reading
import Calculator.Proofs.Pass
import Calculator.Proofs.Recognition
import Calculator.Proofs.Consistency
import Calculator.Proofs.Shape
import Calculator.Proofs.Tree
import Calculator.Proofs.Sending
import Calculator.Proofs.Course
import Calculator.Proofs.Rendering
import Calculator.Proofs.Grammar
import Calculator.Proofs.Check
import Calculator.Proofs.Ties
import Calculator.Proofs.Pivot
import Calculator.Proofs.Pieces
import Calculator.Proofs.Rounding
import Calculator.Proofs.Literals
import Calculator.Proofs.Blanks
import Calculator.Proofs.Substitution
import Calculator.Proofs.Delivery
import Calculator.Proofs.Depth
import Calculator.Proofs.Answers
import Calculator.Proofs.Blocks
import Calculator.Proofs.FullOutput
import Calculator.Proofs.Recovery
import Calculator.Proofs.Lines
import Calculator.Proofs.Transcript
import Calculator.Proofs.Composition
import Calculator.Proofs.Conversation
import Calculator.Proofs.Wrapping
import Calculator.Proofs.Opacity
import Calculator.Proofs.Printing
import Calculator.Proofs.Messages
