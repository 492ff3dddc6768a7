import Calculator.Program
import Calculator.Proofs.Blocks
import Calculator.Proofs.Lines

/-!
# A conversation and a script

The program answers the lines of its standard input up to the first blank one, or those of a
script. Both loops write the blocks of the lines that they answer (`exists_writes_converse`,
`writes_execute`), so they agree on the lines before a blank one (`run_conversation`). Only the
script tells with its exit code whether all lines have values.
-/

namespace Calculator

namespace Session

theorem exists_writes_converse (session : Session) (lines : List Text) :
    ∃ wish, Writes (session.converse Output.sink lines)
      ((lines.takeWhile fun line => !line.isAllBlank).flatMap session.block) wish := by
  induction lines with
  | nil => exact ⟨.another, .pure Wish.another⟩
  | cons line rest ih =>
    obtain ⟨wish, hrest⟩ := ih
    have hline := writes_interact session line
    cases hb : line.isAllBlank with
    | true =>
      rw [List.takeWhile_cons_of_neg (by simp [hb])]
      rw [if_pos hb, if_pos hb] at hline
      exact ⟨.stop, hline.bind_nil (.pure Wish.stop)⟩
    | false =>
      rw [List.takeWhile_cons_of_pos (by simp [hb])]
      rw [hb] at hline
      exact ⟨wish, hline.bind hrest⟩

theorem failures_eq_zero_iff {session : Session} {lines : List Text} :
    session.failures lines = 0 ↔ ∀ line ∈ lines, session.hasValue line = true := by
  simp [failures, List.count_eq_zero]

theorem hasValue_iff {σ : Type} {session : Session} {line : Text} (trail : Trail σ) :
    session.hasValue line = true ↔
      ∃ x, (trail.run (evaluate session.settings none line)).1 = .ok x := by
  rw [hasValue, result_eq, run_evaluate_without]
  cases (Course.ofText session.settings line).result <;> simp [Except.isOk, Except.toBool]

theorem statements_beforeBlankLine {text : Text}
    (h : ∀ line ∈ Text.lines text, (Text.trim line).head? ≠ some '#') :
    statements text.beforeBlankLine =
      (Text.lines text).takeWhile fun line => !line.isAllBlank := by
  rw [statements_eq, Text.lines_beforeBlankLine, List.filter_eq_self]
  intro line hline
  have hblank := List.mem_takeWhile_imp hline
  have hcomment := h line ((List.takeWhile_sublist _).subset hline)
  simpa [hcomment] using hblank

end Session

namespace Options

variable {options : Options} {readFile : Text → Except FileError ByteArray}
  {readLines : Text → TypedLines}

theorem runTyped_eq (options : Options) (typed : TypedLines) (h : typed.failure = none) :
    ∃ log, options.runTyped typed = Outcome.ofTrail 0 []
      ⟨Output.absorb {} ((typed.lines.takeWhile fun line =>
        !line.isAllBlank).flatMap options.session.block), log⟩ := by
  obtain ⟨wish, hwrites⟩ := options.session.exists_writes_converse typed.lines
  obtain ⟨log, hrun⟩ := @Writes.run_unlimited _ _ _ _ hwrites {} rfl options.trail.log
  refine ⟨log, ?_⟩
  rw [runTyped, show options.trail.run _ = _ from hrun, h]
  cases wish <;> rfl

theorem runScript_eq (options : Options) (script : Text) :
    ∃ log, options.runScript script = Outcome.ofTrail
      (if options.session.failures (Session.statements script) = 0 then 0 else 1) []
      ⟨Output.absorb {} ((Session.statements script).flatMap options.session.block), log⟩ := by
  have hwrites := options.session.writes_execute script
  obtain ⟨log, hrun⟩ := @Writes.run_unlimited _ _ _ _ hwrites {} rfl options.trail.log
  refine ⟨log, ?_⟩
  rw [runScript, show options.trail.run _ = _ from hrun]

theorem run_of_no_input (h : options.input = none) (stdin : Text) :
    options.run readFile readLines stdin = options.runTyped (readLines stdin) := by
  rw [run, h]

theorem run_of_input {input script : Text} (hinput : options.input = some input)
    (h : (if options.fromFile then (readFile input).bind decodeFile else .ok input) = .ok script)
    (stdin : Text) : options.run readFile readLines stdin = options.runScript script := by
  rw [run, hinput]
  simp only
  split at h
  case isTrue hfile => rw [if_pos hfile, h]
  case isFalse hfile =>
    obtain rfl := Except.ok.inj h
    rw [if_neg hfile]

end Options

/-- The reader returns the lines of a text as they are, if it has no backspace. -/
def ReadsLines (readLines : Text → TypedLines) : Prop :=
  ∀ text : Text, '\x08' ∉ text → readLines text = .ofText text

open Session in
/-- With the same options the program writes the same for a text on its standard input and for the
script of the lines before the first blank one, if the text has no backspace and no line is a
comment. The script is given as the input itself, or in the file that the input names. The exit
code tells of lines without a value only after a script. -/
theorem run_conversation {σ : Type} {options : Options} {fromFile : Bool}
    {readFile : Text → Except FileError ByteArray} {readLines : Text → TypedLines}
    {text input : Text} (hreader : ReadsLines readLines) (hinput : options.input = none)
    (hbackspace : '\x08' ∉ text)
    (hcomments : ∀ line ∈ Text.lines text, (Text.trim line).head? ≠ some '#')
    (hscript : (if fromFile then (readFile input).bind decodeFile else .ok input) =
      .ok text.beforeBlankLine)
    (stdin : Text) (trail : Trail σ) :
    let talk := options.run readFile readLines text
    let script := { options with input := some input, fromFile := fromFile }.run
      readFile readLines stdin
    talk.stdout = script.stdout ∧
      talk.exitCode = 0 ∧
      (script.exitCode = 0 ↔
        ∀ line ∈ (Text.lines text).takeWhile fun line => !line.isAllBlank,
          ∃ x, (trail.run (evaluate options.settings none line)).1 = .ok x) := by
  intro talk script
  have htalk : talk = options.runTyped (.ofText text) := by
    rw [← hreader text hbackspace]
    exact Options.run_of_no_input hinput text
  have hran : script = { options with input := some input, fromFile := fromFile }.runScript
      text.beforeBlankLine := Options.run_of_input rfl hscript stdin
  obtain ⟨talkLog, hlines⟩ := options.runTyped_eq (.ofText text) rfl
  obtain ⟨scriptLog, hstatements⟩ :=
    { options with input := some input, fromFile := fromFile }.runScript_eq text.beforeBlankLine
  rw [statements_beforeBlankLine hcomments] at hstatements
  rw [htalk, hlines, hran, hstatements]
  refine ⟨rfl, rfl, ?_⟩
  have hcode (failures : Nat) : (if failures = 0 then (0 : UInt8) else 1) = 0 ↔ failures = 0 := by
    split <;> simp_all
  refine (hcode _).trans (failures_eq_zero_iff.trans ?_)
  exact forall_congr' fun line => imp_congr_right fun _ => hasValue_iff trail

theorem run_conversation_sum :
    let options : Options := { hidesSteps := true, leftToRight := true, maxDepth := some 5 }
    let readFile : Text → Except FileError ByteArray := fun _ => .error .missing
    let talk := options.run readFile .ofText ['1', '+', '2', '\r', '\n', ' ', '\n', '3']
    let script := { options with input := some ['1', '+', '2', '\r', '\n'] }.run
      readFile .ofText []
    ReadsLines .ofText ∧ talk.stdout = script.stdout ∧ talk.exitCode = 0 ∧
      script.exitCode = 0 := by
  intro options readFile talk script
  have hreader : ReadsLines .ofText := fun _ _ => rfl
  have hlines : (Text.lines ['1', '+', '2', '\r', '\n', ' ', '\n', '3']).takeWhile
      (fun line => !line.isAllBlank) = [['1', '+', '2']] := by decide
  obtain ⟨hstdout, hzero, hcode⟩ :=
    @run_conversation Unit options false readFile .ofText
      ['1', '+', '2', '\r', '\n', ' ', '\n', '3'] ['1', '+', '2', '\r', '\n'] hreader rfl
      (by decide) (by decide) (by decide) [] ⟨(), ⟨0, #[]⟩⟩
  refine ⟨hreader, hstdout, hzero, hcode.mpr ?_⟩
  rw [hlines]
  intro line hline
  obtain rfl := List.mem_singleton.mp hline
  have hsum : Course.ofText ⟨5, .left⟩ ['1', '+', '2'] = Tree.course 5 6 _ :=
    congrArg (Tree.course 5 6) (Tree.ofText_operation .left .add (.digit rfl : Numeral ['1'])
      (.digit rfl : Numeral ['2']))
  rw [run_evaluate_without]
  exact ⟨_, congrArg Course.result hsum⟩

end Calculator
