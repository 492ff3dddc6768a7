import Calculator.Proofs.Course

/-!
# The sink of an evaluation

What an evaluation gives and which lines it has to show do not depend on its sink. A sink that
refuses a line ends it there (`run_evaluate_by_sink`).
-/

namespace Calculator

/-- Let an evaluation that keeps all lines be given. One without a sink has its result. One that
writes to an output without a limit has its result too and writes its lines. With a limit on the
number of lines nothing changes if it is high enough; else the first line too many is refused,
and nothing is sent after it. -/
theorem run_evaluate_by_sink {settings : Settings} {text : Text} {log last : Log}
    {result : Except Failure Number} {lines : Array Text}
    (h : Trail.run ⟨#[], log⟩ (evaluate settings (some Sink.collecting) text) =
      (result, ⟨lines, last⟩)) :
    (∀ {σ : Type} (state : σ),
      Trail.run ⟨state, log⟩ (evaluate settings none text) = (result, ⟨state, last⟩)) ∧
    (∀ out : Output, out.room = none →
      Trail.run ⟨out, log⟩ (evaluate settings (some Output.sink) text) =
        (result, ⟨out.append (Text.unlines lines.toList).utf8, last⟩)) ∧
    ∀ limit,
      (lines.size ≤ limit →
        Trail.run ⟨Quota.ofLimit limit, log⟩ (evaluate settings (some Quota.sink) text) =
          (result, ⟨⟨limit - lines.size, lines, 0⟩, last⟩)) ∧
      (limit < lines.size →
        ∃ cut, Trail.run ⟨Quota.ofLimit limit, log⟩ (evaluate settings (some Quota.sink) text) =
          (.error (.stepRefused .closed), ⟨⟨0, lines.take limit, 1⟩, cut⟩)) := by
  rw [run_evaluate_keeping] at h
  obtain ⟨rfl, rfl, rfl⟩ : (Course.ofText settings text).result = result ∧
      (Course.ofText settings text).lines.toArray = lines ∧
      (Course.ofText settings text).messages.foldl Log.add log = last := by
    simpa using h
  refine ⟨fun state => run_evaluate_without text ⟨state, log⟩, ?_, fun limit => ⟨?_, ?_⟩⟩
  · intro out hroom
    have hfeed := Output.feed_of_hasRoom
      (Output.hasRoom_of_room_eq_none hroom (Text.unlines (Course.ofText settings text).lines))
    rw [Output.absorb_of_room_eq_none hroom] at hfeed
    exact run_evaluate_of_ok hfeed
  · intro hle
    have hfeed := @Quota.feed_of_le _ (Quota.ofLimit limit) hle
    have hrun := @run_evaluate_of_ok _ _ _ _ ⟨Quota.ofLimit limit, log⟩ _ hfeed
    simpa [Quota.ofLimit] using hrun
  · intro hlt
    have hfeed := @Quota.feed_of_lt _ (Quota.ofLimit limit) hlt
    obtain ⟨messages, -, hrun⟩ :=
      @run_evaluate_of_error _ _ _ _ ⟨Quota.ofLimit limit, log⟩ _ _ hfeed
    refine ⟨messages.foldl Log.add log, ?_⟩
    simpa [Quota.ofLimit] using hrun

/-- A step is completed before the missing operand is found. A sink that refuses it hides the
report on the operand. -/
theorem run_evaluate_by_sink_trailing :
    ∃ lines last cut,
      Trail.run ⟨#[], ⟨0, #[]⟩⟩
          (evaluate ⟨4, .left⟩ (some Sink.collecting) ['1', '-', '2', '+']) =
        (.error (.malformed ⟨[]⟩), ⟨lines, last⟩) ∧
      (0 < lines.size) ∧
      Trail.run ⟨{}, ⟨0, #[]⟩⟩ (evaluate ⟨4, .left⟩ (some Output.sink) ['1', '-', '2', '+']) =
        (.error (.malformed ⟨[]⟩),
          ⟨Output.append {} (Text.unlines lines.toList).utf8, last⟩) ∧
      Trail.run ⟨Quota.ofLimit 0, ⟨0, #[]⟩⟩
          (evaluate ⟨4, .left⟩ (some Quota.sink) ['1', '-', '2', '+']) =
        (.error (.stepRefused .closed), ⟨⟨0, lines.take 0, 1⟩, cut⟩) := by
  have hone : Numeral ['1'] := .digit rfl
  have htwo : Numeral ['2'] := .digit rfl
  have hwhole : Chain.WellFormed ⟨[⟨['1'], .sub⟩, ⟨['2'], .add⟩], []⟩ :=
    ⟨by simp [hone.term, htwo.term], .inr rfl⟩
  have htree : Tree.ofText .left ['1', '-', '2', '+'] =
      .binary ['1', '-', '2', '+'] .add (Tree.ofText .left ['1', '-', '2'])
        (Tree.ofText .left []) :=
    @Tree.ofText_chain .left [⟨['1'], .sub⟩] [] ['2'] [] .add hwhole ⟨by decide, by simp⟩
  have hleft : Tree.ofText .left ['1', '-', '2'] = .binary ['1', '-', '2'] .sub _ _ :=
    Tree.ofText_operation .left .sub hone htwo
  rw [hleft, @Tree.ofText_blank .left [] rfl] at htree
  have hcourse : Course.ofText ⟨4, .left⟩ ['1', '-', '2', '+'] = Tree.course 4 5 _ :=
    congrArg (Tree.course 4 5) htree
  have hrun := run_evaluate_keeping ⟨4, .left⟩ ['1', '-', '2', '+'] ⟨#[], ⟨0, #[]⟩⟩
  rw [hcourse] at hrun
  obtain ⟨-, hwritten, hquota⟩ := run_evaluate_by_sink hrun
  obtain ⟨cut, hcut⟩ := (hquota 0).2 Nat.one_pos
  exact ⟨_, _, cut, hrun, Nat.one_pos, hwritten {} rfl, hcut⟩

end Calculator
