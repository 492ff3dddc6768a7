import Calculator.Proofs.Answers
import Calculator.Proofs.Course

/-!
# The blocks that a session writes

Each line that is answered has a block of lines: its steps, if they are shown, and the answer.
`Writes` says that an action writes a text to an output and gives a value as long as there is room
for the text, and fails on an output that has not room enough. The blocks are what answers write
(`writes_answers`).
-/

namespace Calculator

variable {α β : Type}

/-- The action writes the text and gives the value. An output without room for all of the text
takes what it has room for; if it does not recover, the action fails. -/
structure Writes (action : SessionM Output α) (text : Text) (a : α) : Prop where
  ofRoom {trail : Trail Output} : trail.sink.HasRoom text →
    ∃ log, trail.run action = (.ok a, ⟨trail.sink.absorb text, log⟩)
  ofFull {trail : Trail Output} : trail.sink.recovers = false → ¬ trail.sink.HasRoom text →
    ∃ log, trail.run action = (.error .full, ⟨trail.sink.absorb text, log⟩)

namespace Writes

variable {action : SessionM Output α} {text : Text} {a : α}

theorem of_run (h : ∀ trail : Trail Output, ∃ log, trail.run action = (.ok a, ⟨trail.sink, log⟩)) :
    Writes action [] a where
  ofRoom {trail} _ := by simpa using h trail
  ofFull {trail} _ hfull := absurd (Output.hasRoom_nil trail.sink) hfull

protected theorem pure (a : α) : Writes (pure a) [] a := of_run fun trail => ⟨trail.log, rfl⟩

theorem note (message : Message) : Writes (Calculator.note message) [] () :=
  of_run fun trail => ⟨_, Trail.run_note trail message⟩

theorem bind {next : α → SessionM Output β} {rest : Text} {b : β} (h : Writes action text a)
    (hnext : Writes (next a) rest b) : Writes (action >>= next) (text ++ rest) b where
  ofRoom {trail} hroom := by
    obtain ⟨hfirst, hrest⟩ := Output.hasRoom_append.mp hroom
    obtain ⟨log, hrun⟩ := h.ofRoom hfirst
    rw [Trail.run_bind, hrun, Output.absorb_append]
    exact hnext.ofRoom hrest
  ofFull {trail} hr hfull := by
    rw [Trail.run_bind]
    by_cases hfirst : trail.sink.HasRoom text
    · obtain ⟨log, hrun⟩ := h.ofRoom hfirst
      rw [hrun, Output.absorb_append]
      exact hnext.ofFull hr (Output.not_hasRoom_absorb hfirst hfull)
    · obtain ⟨log, hrun⟩ := h.ofFull hr hfirst
      rw [hrun, Output.absorb_append_of_not_hasRoom hfirst]
      exact ⟨log, rfl⟩

theorem bind_nil {next : α → SessionM Output β} {b : β} (h : Writes action text a)
    (hnext : Writes (next a) [] b) : Writes (action >>= next) text b := by
  simpa using h.bind hnext

theorem run_unlimited (h : Writes action text a) {out : Output} (hroom : out.room = none)
    (log : Log) : ∃ last, Trail.run ⟨out, log⟩ action = (.ok a, ⟨out.absorb text, last⟩) :=
  @ofRoom _ _ _ _ h ⟨out, log⟩ (Output.hasRoom_of_room_eq_none hroom text)

theorem sink_run (h : Writes action text a) {trail : Trail Output}
    (hr : trail.sink.recovers = false) :
    (trail.run action).2.sink = trail.sink.absorb text := by
  by_cases hroom : trail.sink.HasRoom text
  · obtain ⟨log, hrun⟩ := h.ofRoom hroom
    rw [hrun]
  · obtain ⟨log, hrun⟩ := h.ofFull hr hroom
    rw [hrun]

end Writes

namespace Session

variable {session : Session} {line : Text} {trail : Trail Output}

-- ---------------------------------------------------------------------------
-- One line
-- ---------------------------------------------------------------------------

theorem run_writeLine_of_hasRoom (h : trail.sink.HasRoom (line ++ ['\n'])) :
    trail.run (writeLine Output.sink line) =
      (.ok (), { trail with sink := trail.sink.absorb (line ++ ['\n']) }) := by
  rw [writeLine, Trail.run_send, Output.write_sink, Output.writeLine_of_hasRoom h]
  rfl

theorem run_writeLine_of_not_hasRoom (h : ¬ trail.sink.HasRoom (line ++ ['\n'])) :
    trail.run (writeLine Output.sink line) =
      (.error .full, { trail with sink := trail.sink.breakOff (line ++ ['\n']) }) := by
  rw [writeLine, Trail.run_send, Output.write_sink, Output.writeLine_of_not_hasRoom h]
  rfl

theorem writes_line (line : Text) : Writes (writeLine Output.sink line) (line ++ ['\n']) () where
  ofRoom hroom := ⟨_, run_writeLine_of_hasRoom hroom⟩
  ofFull hr hfull := by
    rw [← Output.breakOff_eq_absorb hr hfull]
    exact ⟨_, run_writeLine_of_not_hasRoom hfull⟩

theorem run_tell_of_not_hasRoom {result : Except Failure Number}
    (h : ¬ trail.sink.HasRoom (answerLine line result ++ ['\n'])) :
    trail.run (tell Output.sink line result) =
      (.error .full, {
        trail with sink := trail.sink.breakOff (answerLine line result ++ ['\n']) }) := by
  rw [tell, Trail.run_bind, run_writeLine_of_not_hasRoom h]

theorem writes_tell (line : Text) (result : Except Failure Number) :
    Writes (tell Output.sink line result) (answerLine line result ++ ['\n']) result.isOk :=
  (writes_line (answerLine line result)).bind_nil (.pure result.isOk)

def stepLines (session : Session) (line : Text) : List Text :=
  if session.trace then (evaluateKeeping session.settings line).2 else []

def result (session : Session) (line : Text) : Except Failure Number :=
  (evaluateKeeping session.settings line).1

theorem result_eq (session : Session) (line : Text) :
    session.result line = (Course.ofText session.settings line).result :=
  congrArg Prod.fst (evaluateKeeping_eq session.settings line)

def lastLine (session : Session) (line : Text) : Text := answerLine line (session.result line)

def block (session : Session) (line : Text) : Text :=
  Text.unlines (session.stepLines line) ++ (session.lastLine line ++ ['\n'])

theorem size_block_pos (session : Session) (line : Text) : 0 < (session.block line).size := by
  have hend := Char.utf8Size_pos '\n'
  simp only [block, Text.size_append, Text.size_cons]
  omega

def hasValue (session : Session) (line : Text) : Bool := (session.result line).isOk

def failures (session : Session) (lines : List Text) : Nat :=
  (lines.map session.hasValue).count false

theorem run_evaluate_of_hasRoom
    (h : trail.sink.HasRoom (Text.unlines (session.stepLines line))) :
    ∃ log, trail.run (evaluate session.settings (session.stepSink Output.sink) line) =
      (session.result line, ⟨trail.sink.absorb (Text.unlines (session.stepLines line)), log⟩) := by
  unfold stepLines result at *
  unfold stepSink
  rw [evaluateKeeping_eq] at *
  split
  case isTrue htrace =>
    rw [if_pos htrace] at h
    exact ⟨_, run_evaluate_of_ok (Output.feed_of_hasRoom h)⟩
  case isFalse htrace =>
    rw [Text.unlines_nil, Output.absorb_nil]
    exact ⟨_, run_evaluate_without line trail⟩

theorem run_evaluate_of_not_hasRoom
    (h : ¬ trail.sink.HasRoom (Text.unlines (session.stepLines line))) :
    ∃ log, trail.run (evaluate session.settings (session.stepSink Output.sink) line) =
      (.error (.stepRefused .full),
        ⟨trail.sink.breakOff (Text.unlines (session.stepLines line)), log⟩) := by
  unfold stepLines at *
  unfold stepSink
  rw [evaluateKeeping_eq] at *
  split
  case isTrue htrace =>
    rw [if_pos htrace] at h
    obtain ⟨messages, -, hrun⟩ := run_evaluate_of_error (Output.feed_of_not_hasRoom h)
    exact ⟨_, hrun⟩
  case isFalse htrace =>
    rw [if_neg htrace] at h
    exact absurd (Output.hasRoom_nil _) h

/-- A step that cannot be written is answered like a failure, on what has become of the output. -/
theorem run_answer_of_step_cut
    (h : ¬ trail.sink.HasRoom (Text.unlines (session.stepLines line))) :
    ∃ log, trail.run (session.answer Output.sink line) =
      Trail.run ⟨trail.sink.breakOff (Text.unlines (session.stepLines line)), log⟩
        (tell Output.sink line (.error (.stepRefused .full))) := by
  obtain ⟨log, hrun⟩ := run_evaluate_of_not_hasRoom h
  exact ⟨log, run_answer hrun⟩

theorem run_answer_of_last_cut
    (hsteps : trail.sink.HasRoom (Text.unlines (session.stepLines line)))
    (h : ¬ trail.sink.HasRoom (session.block line)) :
    ∃ log, trail.run (session.answer Output.sink line) =
      (.error .full, ⟨trail.sink.breakOff (session.block line), log⟩) := by
  obtain ⟨log, hrun⟩ := run_evaluate_of_hasRoom hsteps
  refine ⟨log, ?_⟩
  rw [run_answer hrun, block, Output.breakOff_append]
  exact run_tell_of_not_hasRoom (Output.not_hasRoom_absorb hsteps h)

theorem writes_answer (session : Session) (line : Text) :
    Writes (session.answer Output.sink line) (session.block line) (session.hasValue line) where
  ofRoom {trail} hroom := by
    obtain ⟨hsteps, hlast⟩ := Output.hasRoom_append.mp hroom
    obtain ⟨log, hrun⟩ := run_evaluate_of_hasRoom hsteps
    rw [run_answer hrun, block, Output.absorb_append]
    exact (writes_tell line _).ofRoom hlast
  ofFull {trail} hr hfull := by
    by_cases hsteps : trail.sink.HasRoom (Text.unlines (session.stepLines line))
    · obtain ⟨log, hrun⟩ := run_answer_of_last_cut hsteps hfull
      exact ⟨log, by rw [hrun, Output.breakOff_eq_absorb hr hfull]⟩
    · -- The output is full, so the answer cannot be written either.
      obtain ⟨log, hrun⟩ := run_answer_of_step_cut hsteps
      have hlast := Output.not_hasRoom_breakOff hr (Text.unlines (session.stepLines line))
        (answerLine line (.error (.stepRefused .full)))
      rw [Output.breakOff_eq_absorb hr hsteps] at hrun hlast
      have htold := writes_tell line (.error (.stepRefused .full))
      obtain ⟨log', htell⟩ := @htold.ofFull
        ⟨trail.sink.absorb (Text.unlines (session.stepLines line)), log⟩ hr hlast
      rw [← Output.absorb_append, Output.absorb_append_of_not_hasRoom hsteps] at htell
      rw [hrun, htell, block, Output.absorb_append_of_not_hasRoom hsteps]
      exact ⟨log', rfl⟩

theorem writes_answers (session : Session) (lines : List Text) :
    Writes (lines.mapM (session.answer Output.sink)) (lines.flatMap session.block)
      (lines.map session.hasValue) := by
  induction lines with
  | nil => exact .pure []
  | cons line rest ih =>
    rw [List.mapM_cons]
    exact (writes_answer session line).bind (ih.bind_nil (.pure _))

theorem writes_execute (session : Session) (script : Text) :
    Writes (session.execute Output.sink script) ((statements script).flatMap session.block)
      (session.failures (statements script)) := by
  have hend (failures : Nat) :
      Writes (do note (.scriptFinished failures); pure failures) [] failures :=
    (Writes.note _).bind_nil (.pure failures)
  exact (writes_answers session (statements script)).bind_nil (hend _)

theorem writes_interact (session : Session) (line : Text) :
    Writes (session.interact Output.sink line) (if line.isAllBlank then [] else session.block line)
      (if line.isAllBlank then .stop else .another) := by
  unfold interact
  split
  · exact .pure Wish.stop
  · exact (writes_answer session line).bind_nil (.pure Wish.another)

end Session

end Calculator
