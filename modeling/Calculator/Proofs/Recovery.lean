import Calculator.Proofs.Blocks

/-!
# Scripts on an output that recovers

An output that recovers cuts one line and has no limit after it. If the line shows a step, the
failure to write it is told in place of the answer, and the script goes on; if it is an answer, the
script ends (`run_execute_of_recovering`).
-/

namespace Calculator

namespace Session

variable {session : Session} {lines : List Text} {trail : Trail Output}

theorem exists_block_of_lt {n : Nat} (h : n < Text.size (lines.flatMap session.block)) :
    ∃ before line after, lines = before ++ line :: after ∧
      Text.size (before.flatMap session.block) ≤ n ∧
      n < Text.size (before.flatMap session.block ++ session.block line) := by
  induction lines generalizing n with
  | nil => contradiction
  | cons line rest ih =>
    by_cases hfirst : n < (session.block line).size
    · exact ⟨[], line, rest, rfl, Nat.zero_le n, hfirst⟩
    · rw [List.flatMap_cons, Text.size_append] at h
      obtain ⟨before, found, after, rfl, hle, hlt⟩ :=
        @ih (n - (session.block line).size) (by omega)
      refine ⟨line :: before, found, after, rfl, ?_, ?_⟩
      · rw [List.flatMap_cons, Text.size_append]
        omega
      · rw [Text.size_append] at hlt
        rw [List.flatMap_cons, Text.size_append, Text.size_append]
        omega

-- ---------------------------------------------------------------------------
-- The line that is cut
-- ---------------------------------------------------------------------------

def refusal : Text := "Error: Failed to write trace output: output full.\n".toList

theorem failureLine_stepRefused : failureLine (.stepRefused .full) ++ ['\n'] = refusal := by
  decide

/-- If a step is cut, its line fails, and the others are answered as ever. -/
theorem run_answers_of_step_cut {before after : List Text} {line : Text}
    (hr : trail.sink.recovers = true) (hbefore : trail.sink.HasRoom (before.flatMap session.block))
    (h : ¬ trail.sink.HasRoom
      (before.flatMap session.block ++ Text.unlines (session.stepLines line))) :
    ∃ log, trail.run ((before ++ line :: after).mapM (session.answer Output.sink)) =
      (.ok (before.map session.hasValue ++ false :: after.map session.hasValue), ⟨
        (trail.sink.breakOff
            (before.flatMap session.block ++ Text.unlines (session.stepLines line))).absorb
          (refusal ++ after.flatMap session.block), log⟩) := by
  have hsteps := Output.not_hasRoom_absorb hbefore h
  obtain ⟨log, hfirst⟩ := (session.writes_answers before).ofRoom hbefore
  obtain ⟨cutLog, hcut⟩ := @run_answer_of_step_cut session line
    ⟨trail.sink.absorb (before.flatMap session.block), log⟩ hsteps
  rw [← Output.breakOff_append] at hcut
  -- The output has no limit from here on.
  have hroom := @Output.room_breakOff trail.sink hr
    (before.flatMap session.block ++ Text.unlines (session.stepLines line))
  obtain ⟨toldLog, htold⟩ :=
    (writes_tell line (.error (.stepRefused .full))).run_unlimited hroom cutLog
  rw [← hcut] at htold
  obtain ⟨last, hafter⟩ := (session.writes_answers after).run_unlimited
    (Output.room_absorb_of_eq_none hroom _) toldLog
  refine ⟨last, ?_⟩
  rw [Output.absorb_append, ← failureLine_stepRefused]
  exact run_answers_append hfirst (run_answers_append (run_answers_singleton htold) hafter)

/-- If an answer is cut, the script ends there. -/
theorem run_answers_of_last_cut {before : List Text} {line : Text}
    (hsteps : trail.sink.HasRoom
      (before.flatMap session.block ++ Text.unlines (session.stepLines line)))
    (h : ¬ trail.sink.HasRoom (before.flatMap session.block ++ session.block line)) :
    ∃ log, trail.run ((before ++ [line]).mapM (session.answer Output.sink)) = (.error .full,
      ⟨trail.sink.breakOff (before.flatMap session.block ++ session.block line), log⟩) := by
  obtain ⟨hbefore, hsteps⟩ := Output.hasRoom_append.mp hsteps
  obtain ⟨log, hfirst⟩ := (session.writes_answers before).ofRoom hbefore
  have hlast := Output.not_hasRoom_absorb hbefore h
  obtain ⟨cutLog, hcut⟩ := @run_answer_of_last_cut session line
    ⟨trail.sink.absorb (before.flatMap session.block), log⟩ hsteps hlast
  refine ⟨cutLog, ?_⟩
  rw [Output.breakOff_append]
  exact run_answers_concat_of_error hfirst hcut

-- ---------------------------------------------------------------------------
-- The script
-- ---------------------------------------------------------------------------

variable {script : Text} {before after : List Text} {line : Text}

theorem run_execute_of_step_cut (hlines : statements script = before ++ line :: after)
    (hr : trail.sink.recovers = true) (hbefore : trail.sink.HasRoom (before.flatMap session.block))
    (h : ¬ trail.sink.HasRoom
      (before.flatMap session.block ++ Text.unlines (session.stepLines line))) :
    ∃ log, trail.run (session.execute Output.sink script) =
      (.ok (session.failures before + 1 + session.failures after), ⟨
        (trail.sink.breakOff ((statements script).flatMap session.block)).absorb
          (refusal ++ after.flatMap session.block), log⟩) := by
  obtain ⟨log, hrun⟩ := @run_answers_of_step_cut session trail before after line hr hbefore h
  rw [← hlines] at hrun
  have hcount : (before.map session.hasValue ++ false :: after.map session.hasValue).count false =
      session.failures before + 1 + session.failures after := by
    simp only [failures, List.count_append, List.count_cons_self]
    omega
  have hwhole : (statements script).flatMap session.block =
      before.flatMap session.block ++ Text.unlines (session.stepLines line) ++
        (session.lastLine line ++ ['\n'] ++ after.flatMap session.block) := by
    simp [hlines, block]
  rw [run_execute_of_ok hrun, hcount, hwhole, Output.breakOff_append_of_not_hasRoom h]
  exact ⟨_, rfl⟩

theorem run_execute_of_last_cut (hlines : statements script = before ++ line :: after)
    (hsteps : trail.sink.HasRoom
      (before.flatMap session.block ++ Text.unlines (session.stepLines line)))
    (h : ¬ trail.sink.HasRoom (before.flatMap session.block ++ session.block line)) :
    ∃ log, trail.run (session.execute Output.sink script) =
        (.error .full, ⟨trail.sink.breakOff ((statements script).flatMap session.block), log⟩) ∧
      trail.run ((before ++ [line]).mapM (session.answer Output.sink)) =
        (.error .full, ⟨trail.sink.breakOff ((statements script).flatMap session.block), log⟩) := by
  obtain ⟨log, hrun⟩ := run_answers_of_last_cut hsteps h
  have hwhole : (statements script).flatMap session.block =
      before.flatMap session.block ++ session.block line ++ after.flatMap session.block := by
    simp [hlines]
  rw [← Output.breakOff_append_of_not_hasRoom h (after.flatMap session.block), ← hwhole] at hrun
  refine ⟨log, run_execute_of_error ?_, hrun⟩
  have hall := run_answers_append_of_error hrun after
  rwa [List.append_assoc, List.singleton_append, ← hlines] at hall

end Session

open Session in
/-- Let an output recover from a cut within what a script would write. If the byte without room
belongs to a step of a line, this line fails, with a message in place of the rest of its block, and
the blocks after it are whole. If it belongs to an answer, the script ends as if it had no more
lines. -/
theorem run_execute_of_recovering (session : Session) (script : Text) (log : Log) {room : Nat}
    (h : room < Text.size ((statements script).flatMap session.block)) :
    let whole : Text := (statements script).flatMap session.block
    let trail : Trail Output := ⟨{ room := some room, recovers := true }, log⟩
    let got := trail.run (session.execute Output.sink script)
    (∃ last, Trail.run ⟨{}, log⟩ (session.execute Output.sink script) =
      (.ok (session.failures (statements script)), ⟨Output.append {} (Text.utf8 whole), last⟩)) ∧
    ∃ before line after, statements script = before ++ line :: after ∧
      Text.size (before.flatMap session.block) ≤ room ∧
      room < Text.size (before.flatMap session.block ++ session.block line) ∧
      (room < Text.size
          (before.flatMap session.block ++ Text.unlines (session.stepLines line)) →
        got.1 = .ok (session.failures before + 1 + session.failures after) ∧
        got.2.sink.written.toList = (Text.utf8 whole).take room ++
          Text.utf8 (refusal ++ after.flatMap session.block)) ∧
      (Text.size (before.flatMap session.block ++ Text.unlines (session.stepLines line)) ≤ room →
        got.1 = .error .full ∧
        got.2.sink.written.toList = (Text.utf8 whole).take room ∧
        got.2 = (trail.run ((before ++ [line]).mapM (session.answer Output.sink))).2) := by
  intro whole trail got
  refine ⟨?_, ?_⟩
  · exact (session.writes_execute script).run_unlimited rfl log
  obtain ⟨before, line, after, hlines, hle, hlt⟩ := exists_block_of_lt h
  have hroom (text : Text) : trail.sink.HasRoom text ↔ text.size ≤ room :=
    Output.hasRoom_iff_of_room_eq_some rfl
  have hwritten : (trail.sink.breakOff whole).written.toList = (Text.utf8 whole).take room := by
    simp [trail, Output.breakOff, Output.append, Output.fitting]
  refine ⟨before, line, after, hlines, hle, hlt, fun hcut => ?_, fun hsteps => ?_⟩
  · obtain ⟨last, hrun⟩ := run_execute_of_step_cut hlines rfl ((hroom _).mpr hle)
      (mt (hroom _).mp (Nat.not_le_of_lt hcut))
    rw [show got = _ from hrun]
    refine ⟨rfl, ?_⟩
    rw [← hwritten, Output.absorb_of_room_eq_none (Output.room_breakOff rfl _)]
    simp [Output.append, whole]
  · obtain ⟨last, hrun, hshort⟩ := run_execute_of_last_cut hlines ((hroom _).mpr hsteps)
      (mt (hroom _).mp (Nat.not_le_of_lt hlt))
    rw [show got = _ from hrun, hshort]
    exact ⟨rfl, hwritten, rfl⟩

theorem run_execute_of_recovering_sum :
    let session : Session := ⟨⟨4, .right⟩, true⟩
    let got := Trail.run ⟨{ room := some 0, recovers := true }, ⟨0, #[]⟩⟩
      (session.execute Output.sink ['1', '+', '2', '\n', '3'])
    (0 < Text.size ((Session.statements ['1', '+', '2', '\n', '3']).flatMap session.block)) ∧
      got.1 = .ok 1 ∧
      got.2.sink.written.toList = Text.utf8 (Session.refusal ++ session.block ['3']) := by
  intro session got
  have hlines : Session.statements ['1', '+', '2', '\n', '3'] = [['1', '+', '2'], ['3']] := by
    decide
  have hpos : 0 < Text.size
      ((Session.statements ['1', '+', '2', '\n', '3']).flatMap session.block) := by
    rw [hlines, List.flatMap_cons, Text.size_append]
    exact Nat.add_pos_left (session.size_block_pos _) _
  have hsteps : 0 < Text.size (Text.unlines (session.stepLines ['1', '+', '2'])) := by
    have hone : Numeral ['1'] := .digit rfl
    have htwo : Numeral ['2'] := .digit rfl
    have hcourse : Course.ofText ⟨4, .right⟩ ['1', '+', '2'] = Tree.course 4 5 _ :=
      congrArg (Tree.course 4 5) (Tree.ofText_operation .right .add hone htwo)
    have hlines : session.stepLines ['1', '+', '2'] = (Course.ofText ⟨4, .right⟩ _).lines :=
      congrArg Prod.snd (evaluateKeeping_eq ⟨4, .right⟩ ['1', '+', '2'])
    rw [hlines, hcourse]
    exact Text.size_unlines_pos (List.cons_ne_nil _ _)
  have hvalue : session.hasValue ['3'] = true := by
    have hresult : session.result ['3'] = (Course.ofText ⟨4, .right⟩ _).result :=
      congrArg Prod.fst (evaluateKeeping_eq ⟨4, .right⟩ ['3'])
    have hcourse : Course.ofText ⟨4, .right⟩ ['3'] = Tree.course 4 5 _ :=
      congrArg (Tree.course 4 5) (Tree.ofText_bareNumeral .right (.digit rfl : Numeral ['3']))
    rw [Session.hasValue, hresult, hcourse]
    rfl
  obtain ⟨-, before, line, after, hsplit, hbefore, -, hcut, -⟩ :=
    run_execute_of_recovering session ['1', '+', '2', '\n', '3'] ⟨0, #[]⟩ hpos
  obtain rfl : before = [] := by
    cases before with
    | nil => rfl
    | cons first rest =>
      have hfirst := session.size_block_pos first
      rw [List.flatMap_cons, Text.size_append] at hbefore
      omega
  rw [hlines] at hsplit
  obtain ⟨rfl, rfl⟩ := List.cons.inj hsplit
  obtain ⟨hcount, hwritten⟩ := hcut hsteps
  refine ⟨hpos, hcount.trans ?_, hwritten.trans ?_⟩
  · simp [Session.failures, hvalue]
  · simp

end Calculator
