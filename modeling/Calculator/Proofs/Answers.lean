import Calculator.Session

/-!
# The answers of a session

Whatever a sink takes or refuses: a line is answered by telling what came of its evaluation
(`run_answer`), and lines are answered one after the other up to the first that cannot be. Nothing
in this depends on the log or logs the end of a script (`Quiet`); a script logs its end only if all
of it could be answered (`goesOn_of_execute_error`).
-/

namespace Calculator

variable {ε δ σ α β : Type}

-- ---------------------------------------------------------------------------
-- The log of a script that is not finished
-- ---------------------------------------------------------------------------

def Message.endsScript : Message → Bool
  | .scriptFinished _ => true
  | _ => false

/-- The log has gone on to another one without the end of a script. -/
def Log.GoesOn (log next : Log) : Prop :=
  ∃ messages : List Message, (∀ message ∈ messages, message.endsScript = false) ∧
    next = messages.foldl Log.add log

/-- What the action does is the same with each log. It adds messages, and none of them tells the
end of a script. -/
def Quiet (action : Act ε σ α) : Prop :=
  ∀ state : σ, ∃ result next, ∃ messages : List Message,
    (∀ message ∈ messages, message.endsScript = false) ∧
    ∀ log, Trail.run ⟨state, log⟩ action = (result, ⟨next, messages.foldl Log.add log⟩)

namespace Quiet

theorem goesOn {action : Act ε σ α} (h : Quiet action) (trail : Trail σ) :
    trail.log.GoesOn (trail.run action).2.log := by
  obtain ⟨result, next, messages, hquiet, hrun⟩ := h trail.sink
  exact ⟨messages, hquiet, congrArg (·.2.log) (hrun trail.log)⟩

protected theorem pure (a : α) : Quiet (pure a : Act ε σ α) :=
  fun _ => ⟨_, _, [], by simp, fun _ => rfl⟩

protected theorem throw (error : ε) : Quiet (throw error : Act ε σ α) :=
  fun _ => ⟨_, _, [], by simp, fun _ => rfl⟩

protected theorem note {message : Message} (h : message.endsScript = false) :
    Quiet (note message : Act ε σ Unit) :=
  fun _ => ⟨_, _, [message], by simp [h], fun _ => rfl⟩

protected theorem send (sink : Sink σ) (asError : WriteError → ε) (line : Text) :
    Quiet (send sink asError line) := by
  intro state
  refine ⟨(sink.write line state).1.mapError asError, (sink.write line state).2, [], ?_, ?_⟩
  · simp
  · exact fun log => Trail.run_send ⟨state, log⟩ sink asError line

theorem bind {action : Act ε σ α} {next : α → Act ε σ β} (h : Quiet action)
    (hnext : ∀ a, Quiet (next a)) : Quiet (action >>= next) := by
  intro state
  obtain ⟨result, middle, messages, hquiet, hrun⟩ := h state
  cases result with
  | ok a =>
    obtain ⟨result, last, more, hmore, hrest⟩ := hnext a middle
    refine ⟨result, last, messages ++ more, ?_, fun log => ?_⟩
    · exact List.forall_mem_append.mpr ⟨hquiet, hmore⟩
    · rw [Trail.run_bind, hrun, List.foldl_append]
      exact hrest _
  | error error =>
    exact ⟨.error error, middle, messages, hquiet, fun log => by rw [Trail.run_bind, hrun]⟩

protected theorem attempt {action : Act ε σ α} (h : Quiet action) :
    Quiet (attempt action : Act δ σ (Except ε α)) := by
  intro state
  obtain ⟨result, next, messages, hquiet, hrun⟩ := h state
  exact ⟨.ok result, next, messages, hquiet, fun log => by rw [Trail.run_attempt, hrun]⟩

protected theorem record (sink : Option (Sink σ)) (step : Step) : Quiet (record sink step) := by
  cases sink with
  | none => exact .pure ()
  | some sink => exact .send sink _ _

protected theorem evaluateWithin (settings : Settings) (sink : Option (Sink σ)) (levels : Nat)
    (text : Text) : Quiet (evaluateWithin settings sink levels text) := by
  induction levels generalizing text with
  | zero => exact (Quiet.note rfl).bind fun _ => .throw _
  | succ levels ih =>
    rw [Calculator.evaluateWithin]
    split
    case h_1 => exact .throw _
    case h_2 =>
      refine (Quiet.note rfl).bind fun _ => (ih _).bind fun x => (ih _).bind fun y => ?_
      exact (Quiet.record sink _).bind fun _ => .pure _
    case h_3 => exact (Quiet.note rfl).bind fun _ => .pure _
    case h_4 => exact (Quiet.note rfl).bind fun _ => ih _

end Quiet

namespace Session

variable {session : Session} {sink : Sink σ} {trail : Trail σ}

-- ---------------------------------------------------------------------------
-- One line
-- ---------------------------------------------------------------------------

def answerLine (line : Text) : Except Failure Number → Text
  | .ok value => resultLine line value
  | .error failure => failureLine failure

def tell (sink : Sink σ) (line : Text) (result : Except Failure Number) : SessionM σ Bool := do
  writeLine sink (answerLine line result)
  pure result.isOk

theorem answer_eq (session : Session) (sink : Sink σ) (line : Text) :
    session.answer sink line = (do
      tell sink line (← attempt (evaluate session.settings (session.stepSink sink) line))) := by
  refine bind_congr fun result => ?_
  cases result <;> rfl

theorem run_answer {line : Text} {result : Except Failure Number} {next : Trail σ}
    (h : trail.run (evaluate session.settings (session.stepSink sink) line) = (result, next)) :
    trail.run (session.answer sink line) = next.run (tell sink line result) := by
  rw [answer_eq, Trail.run_bind, Trail.run_attempt, h]

theorem quiet_answer (session : Session) (sink : Sink σ) (line : Text) :
    Quiet (session.answer sink line) := by
  have hevaluate : Quiet (evaluate session.settings (session.stepSink sink) line) :=
    .evaluateWithin session.settings (session.stepSink sink) _ line
  rw [answer_eq]
  refine (Quiet.attempt hevaluate).bind fun result => ?_
  exact (Quiet.send sink id _).bind fun _ => .pure _

theorem quiet_interact (session : Session) (sink : Sink σ) (line : Text) :
    Quiet (session.interact sink line) := by
  unfold interact
  split
  · exact .pure Wish.stop
  · exact (quiet_answer session sink line).bind fun _ => .pure Wish.another

-- ---------------------------------------------------------------------------
-- Lines one after the other
-- ---------------------------------------------------------------------------

theorem quiet_answers (session : Session) (sink : Sink σ) (lines : List Text) :
    Quiet (lines.mapM (session.answer sink)) := by
  induction lines with
  | nil => exact .pure []
  | cons line rest ih =>
    rw [List.mapM_cons]
    exact (quiet_answer session sink line).bind fun _ => ih.bind fun _ => .pure _

theorem run_answers_append {a b : List Text} {first second : List Bool} {next last : Trail σ}
    (ha : trail.run (a.mapM (session.answer sink)) = (.ok first, next))
    (hb : next.run (b.mapM (session.answer sink)) = (.ok second, last)) :
    trail.run ((a ++ b).mapM (session.answer sink)) = (.ok (first ++ second), last) := by
  rw [List.mapM_append, Trail.run_bind, ha]
  simp only
  rw [Trail.run_bind, hb]
  rfl

theorem run_answers_append_of_error {a : List Text} {error : WriteError} {next : Trail σ}
    (h : trail.run (a.mapM (session.answer sink)) = (.error error, next)) (b : List Text) :
    trail.run ((a ++ b).mapM (session.answer sink)) = (.error error, next) := by
  rw [List.mapM_append, Trail.run_bind, h]

theorem run_answers_append_of_rest_error {a b : List Text} {first : List Bool}
    {error : WriteError} {next last : Trail σ}
    (ha : trail.run (a.mapM (session.answer sink)) = (.ok first, next))
    (hb : next.run (b.mapM (session.answer sink)) = (.error error, last)) :
    trail.run ((a ++ b).mapM (session.answer sink)) = (.error error, last) := by
  rw [List.mapM_append, Trail.run_bind, ha]
  simp only
  rw [Trail.run_bind, hb]

theorem run_answers_concat_of_error {a : List Text} {line : Text} {first : List Bool}
    {error : WriteError} {next last : Trail σ}
    (ha : trail.run (a.mapM (session.answer sink)) = (.ok first, next))
    (h : next.run (session.answer sink line) = (.error error, last)) :
    trail.run ((a ++ [line]).mapM (session.answer sink)) = (.error error, last) := by
  refine run_answers_append_of_rest_error ha ?_
  rw [List.mapM_cons, Trail.run_bind, h]

theorem run_answers_singleton {line : Text} {outcome : Bool} {next : Trail σ}
    (h : trail.run (session.answer sink line) = (.ok outcome, next)) :
    trail.run ([line].mapM (session.answer sink)) = (.ok [outcome], next) := by
  rw [List.mapM_cons, Trail.run_bind, h]
  rfl

theorem run_execute_of_ok {script : Text} {outcomes : List Bool} {next : Trail σ}
    (h : trail.run ((statements script).mapM (session.answer sink)) = (.ok outcomes, next)) :
    trail.run (session.execute sink script) = (.ok (outcomes.count false), {
      next with log := next.log.add (.scriptFinished (outcomes.count false)) }) := by
  rw [execute, Trail.run_bind, h]
  rfl

theorem run_execute_of_error {script : Text} {error : WriteError} {next : Trail σ}
    (h : trail.run ((statements script).mapM (session.answer sink)) = (.error error, next)) :
    trail.run (session.execute sink script) = (.error error, next) := by
  rw [execute, Trail.run_bind, h]

/-- The end of a script is logged only if all of it could be answered. -/
theorem goesOn_of_execute_error {script : Text} {error : WriteError} {next : Trail σ}
    (h : trail.run (session.execute sink script) = (.error error, next)) :
    trail.log.GoesOn next.log := by
  have hlog := (quiet_answers session sink (statements script)).goesOn trail
  rw [execute, Trail.run_bind] at h
  split at h
  case h_1 outcomes middle hrun => exact nomatch congrArg Prod.fst h
  case h_2 found middle hrun =>
    obtain ⟨-, rfl⟩ := Prod.mk.inj h
    rwa [hrun] at hlog

end Session

end Calculator
