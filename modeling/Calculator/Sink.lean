import Calculator.Text

/-!
# Sinks

A sink takes lines one at a time and may refuse one. It is known by what a line does to its
state; a refused line may change the state too.
-/

namespace Calculator

inductive WriteError where
  | closed
  | full
  | other (reason : Text)
  deriving DecidableEq, Repr

def WriteError.message : WriteError → Text
  | closed => "sink closed".toList
  | full => "output full".toList
  | other reason => reason

structure Sink (σ : Type) where
  write : Text → σ → Except WriteError Unit × σ

namespace Sink

def collecting : Sink (Array Text) where
  write line kept := (.ok (), kept.push line)

end Sink

structure Quota where
  left : Nat
  kept : Array Text
  refused : Nat
  deriving DecidableEq, Repr

namespace Quota

def ofLimit (limit : Nat) : Quota := ⟨limit, #[], 0⟩

def write (line : Text) (quota : Quota) : Except WriteError Unit × Quota :=
  match quota.left with
  | 0 => (.error .closed, { quota with refused := quota.refused + 1 })
  | left + 1 => (.ok (), { quota with left := left, kept := quota.kept.push line })

def sink : Sink Quota := ⟨write⟩

end Quota

end Calculator
