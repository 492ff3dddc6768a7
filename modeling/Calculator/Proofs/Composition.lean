import Calculator.Proofs.Answers
import Calculator.Proofs.Lines

/-!
# Scripts one after the other

Nothing that is answered depends on the log (`Quiet`), so the end of a script, which is only
logged, makes no difference to the script after it: two scripts do what both together do if a line
ends between them, whatever their sink takes or refuses (`run_execute_append`). What is skipped, and
how a line ends, makes no difference at all.
-/

namespace Calculator

namespace Session

variable {σ : Type} {sink : Sink σ} {a : Text}

theorem execute_congr {session : Session} {a b : Text} (h : statements a = statements b) :
    session.execute sink a = session.execute sink b := by
  rw [execute, execute, h]

theorem run_execute_parts (session : Session) (trail : Trail σ) (h : Text.EndsLine a) (b : Text) :
    let first := trail.run (session.execute sink a)
    let second := first.2.run (session.execute sink b)
    let whole := trail.run (session.execute sink (a ++ b))
    whole.1 = (first.1.bind fun x => second.1.map fun y => x + y) ∧
      whole.2.sink = if first.1.isOk then second.2.sink else first.2.sink := by
  have hlines := statements_append h b
  intro first second whole
  cases ha : trail.run ((statements a).mapM (session.answer sink)) with
  | mk result middle =>
  cases result with
  | error error =>
    have hfirst := run_execute_of_error ha
    have hwhole := run_answers_append_of_error ha (statements b)
    rw [← hlines] at hwhole
    have hwhole := run_execute_of_error hwhole
    rw [show first = _ from hfirst, show whole = _ from hwhole]
    exact ⟨rfl, rfl⟩
  | ok outcomes =>
    have hfirst := run_execute_of_ok ha
    -- The first script has logged its end where the whole one goes on.
    obtain ⟨result, next, messages, -, hrun⟩ :=
      quiet_answers session sink (statements b) middle.sink
    have hb := hrun middle.log
    have hlogged := hrun (middle.log.add (.scriptFinished (outcomes.count false)))
    have hsecond : second = _ := congrArg (fun run => run.2.run (session.execute sink b)) hfirst
    rw [show first = _ from hfirst, hsecond]
    cases result with
    | error error =>
      have hwhole := run_answers_append_of_rest_error ha hb
      rw [← hlines] at hwhole
      rw [run_execute_of_error hlogged, show whole = _ from run_execute_of_error hwhole]
      exact ⟨rfl, rfl⟩
    | ok rest =>
      have hwhole := run_answers_append ha hb
      rw [← hlines] at hwhole
      rw [run_execute_of_ok hlogged, show whole = _ from run_execute_of_ok hwhole,
        List.count_append]
      exact ⟨rfl, rfl⟩

end Session

open Session in
/-- A script in two parts, cut where a line ends, is answered as the parts are one after the other:
the sink takes the same, whichever lines it refuses, and the numbers of failures add up. The second
part is not begun if the first is ended by an error. A line that is blank or a comment may stand
between any two lines, and a carriage return before the end of any line. -/
theorem run_execute_append {σ : Type} (session : Session) (sink : Sink σ) {a : Text}
    (h : Text.EndsLine a) :
    (∀ (trail : Trail σ) (b : Text),
      let first := trail.run (session.execute sink a)
      let second := first.2.run (session.execute sink b)
      let whole := trail.run (session.execute sink (a ++ b))
      whole.1 = (first.1.bind fun x => second.1.map fun y => x + y) ∧
        whole.2.sink = if first.1.isOk then second.2.sink else first.2.sink) ∧
    (∀ line : Text, '\n' ∉ line →
      line.isAllBlank = true ∨ (Text.trim line).head? = some '#' →
      (∀ b, session.execute sink (a ++ line ++ '\n' :: b) = session.execute sink (a ++ b)) ∧
        session.execute sink (a ++ line) = session.execute sink a) ∧
    ∀ before after : Text, before.getLast? ≠ some '\r' →
      session.execute sink (before ++ '\r' :: '\n' :: after) =
        session.execute sink (before ++ '\n' :: after) := by
  refine ⟨fun trail b => run_execute_parts session trail h b, ?_, ?_⟩
  · intro line hline hskipped
    have hskipped := isSkipped_iff.mpr hskipped
    refine ⟨fun b => execute_congr ?_, execute_congr ?_⟩
    · rw [List.append_assoc, statements_append h, statements_append h,
        statements_skipped_line hline hskipped]
    · rw [statements_append h, statements_of_skipped hline hskipped, List.append_nil]
  · intro before after hreturn
    refine execute_congr ?_
    rw [statements, statements, Text.lines_return hreturn]

/-- The step is refused and told as a failure, so the second part is begun. Then its answer is
refused. -/
theorem run_execute_append_refused_twice :
    let session : Session := ⟨⟨4, .right⟩, true⟩
    let sink : Sink (List Bool) :=
      ⟨fun _ taken => (if taken.headD true then .ok () else .error .full, taken.tail)⟩
    let trail : Trail (List Bool) := ⟨[false, true, false, true], ⟨0, #[]⟩⟩
    let first := trail.run (session.execute sink ['1', '+', '2', '\n'])
    let whole := trail.run (session.execute sink ['1', '+', '2', '\n', '3', '\n', '4'])
    Text.EndsLine ['1', '+', '2', '\n'] ∧ first.1 = .ok 1 ∧ first.2.sink = [false, true] ∧
      whole.1 = .error .full ∧ whole.2.sink = [true] ∧
      session.execute sink ['1', '+', '2', '\n', ' ', '#', '\n', '3'] =
        session.execute sink ['1', '+', '2', '\n', '3'] ∧
      session.execute sink ['1', '+', '2', '\r', '\n', '3'] =
        session.execute sink ['1', '+', '2', '\n', '3'] := by
  intro session sink trail first whole
  have hends : Text.EndsLine ['1', '+', '2', '\n'] := .inr ⟨['1', '+', '2'], rfl⟩
  have hfirst : first.1 = .ok 1 ∧ first.2.sink = [false, true] := by decide +kernel
  have hsecond : (first.2.run (session.execute sink ['3', '\n', '4'])).1 = .error .full ∧
      (first.2.run (session.execute sink ['3', '\n', '4'])).2.sink = [true] := by decide +kernel
  obtain ⟨hparts, hskipped, hreturn⟩ := run_execute_append session sink hends
  obtain ⟨hresult, hsink⟩ := hparts trail ['3', '\n', '4']
  rw [show (trail.run (session.execute sink ['1', '+', '2', '\n'])).1 = _ from hfirst.1]
    at hresult hsink
  refine ⟨hends, hfirst.1, hfirst.2, hresult.trans ?_, hsink.trans hsecond.2, ?_, ?_⟩
  · exact congrArg (Except.bind (.ok 1) fun x => Except.map (x + ·) ·) hsecond.1
  · exact (hskipped [' ', '#'] (by decide) (.inr (by decide))).1 ['3']
  · exact hreturn ['1', '+', '2'] ['3'] (by decide)

end Calculator
