import Calculator.Log
import Calculator.Sink

/-!
# Actions that leave a trail

Whatever is evaluated or answered leaves a trail: what its sink has taken, and a log. An
action goes on from a trail; it gives a value or fails, and leaves the trail that it has got
to in both cases. The equations for `Trail.run` say what each kind of action does.
-/

namespace Calculator

structure Trail (σ : Type) where
  sink : σ
  log : Log
  deriving DecidableEq, Repr

abbrev Act (ε σ : Type) := ExceptT ε (StateM (Trail σ))

variable {ε δ σ α β : Type}

def Trail.run (trail : Trail σ) (action : Act ε σ α) : Except ε α × Trail σ :=
  StateT.run (ExceptT.run action) trail

def note (message : Message) : Act ε σ Unit :=
  modify fun trail => { trail with log := trail.log.add message }

def send (sink : Sink σ) (asError : WriteError → ε) (line : Text) : Act ε σ Unit :=
  ExceptT.mk <| modifyGet fun trail =>
    let (outcome, state) := sink.write line trail.sink
    (outcome.mapError asError, { trail with sink := state })

/-- Turns a failure into a value, so that its trail can be followed further. -/
def attempt (action : Act ε σ α) : Act δ σ (Except ε α) :=
  ExceptT.lift (ExceptT.run action)

namespace Trail

@[simp] theorem run_pure (trail : Trail σ) (a : α) :
    trail.run (pure a : Act ε σ α) = (.ok a, trail) := rfl

theorem run_bind (trail : Trail σ) (action : Act ε σ α) (f : α → Act ε σ β) :
    trail.run (action >>= f) =
      match trail.run action with
      | (.ok a, next) => next.run (f a)
      | (.error error, next) => (.error error, next) := by
  unfold run
  simp only [ExceptT.run, StateT.run, bind, ExceptT.bind, ExceptT.mk, StateT.bind,
    ExceptT.bindCont]
  cases action trail with
  | mk result next => cases result <;> rfl

@[simp] theorem run_note (trail : Trail σ) (message : Message) :
    trail.run (note message : Act ε σ Unit) =
      (.ok (), { trail with log := trail.log.add message }) := rfl

theorem run_send (trail : Trail σ) (sink : Sink σ) (asError : WriteError → ε) (line : Text) :
    trail.run (send sink asError line) =
      ((sink.write line trail.sink).1.mapError asError,
        { trail with sink := (sink.write line trail.sink).2 }) := rfl

@[simp] theorem run_attempt (trail : Trail σ) (action : Act ε σ α) :
    trail.run (attempt action : Act δ σ (Except ε α)) =
      (.ok (trail.run action).1, (trail.run action).2) := by
  unfold attempt run
  simp only [ExceptT.run, StateT.run, ExceptT.lift, ExceptT.mk, Functor.map, StateT.map]
  cases action trail with
  | mk result next => rfl

end Trail

end Calculator
