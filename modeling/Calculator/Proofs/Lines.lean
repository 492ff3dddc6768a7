import Mathlib.Data.List.TakeWhile
import Calculator.Session
import Calculator.Proofs.Form
import Calculator.Proofs.Sending

/-!
# Lines of a text

A text is a line without an end, or a line with its end before the rest of the text
(`lineInduction`). So lines are read one by one (`lines_line`), and the lines of two texts are
those of both together if a line ends between the texts (`lines_append`). The rows of a text are
its lines with their ends; no character gets lost in them (`flatten_rows`).
-/

namespace Calculator

namespace Text

variable {a b line rest : Text}

def withoutReturn (line : Text) : Text :=
  if line.getLast? = some '\r' then line.dropLast else line

/-- A new line begins after the text. -/
def EndsLine (text : Text) : Prop := text = [] ∨ ∃ before, text = before ++ ['\n']

/-- The lines of a text, each with the line feed at its end. The last one may lack it. -/
def rows : Text → List Text
  | [] => []
  | c :: rest =>
    if c = '\n' then [c] :: rows rest
    else
      match rows rest with
      | [] => [[c]]
      | row :: more => (c :: row) :: more

@[elab_as_elim]
theorem lineInduction {motive : Text → Prop} (last : ∀ line, '\n' ∉ line → motive line)
    (cons : ∀ line rest, '\n' ∉ line → motive rest → motive (line ++ '\n' :: rest))
    (text : Text) : motive text := by
  induction hn : text.length using Nat.strongRecOn generalizing text with
  | ind n ih =>
    by_cases h : '\n' ∈ text
    · obtain ⟨line, rest, rfl, hline⟩ := List.eq_append_cons_of_mem h
      rw [List.length_append, List.length_cons] at hn
      exact cons line rest hline (ih rest.length (by omega) rest rfl)
    · exact last text h

theorem EndsLine.eq_nil (h : EndsLine line) (hline : '\n' ∉ line) : line = [] := by
  rcases h with h | ⟨before, rfl⟩
  · exact h
  · simp at hline

theorem EndsLine.tail (h : EndsLine (line ++ '\n' :: rest)) : EndsLine rest := by
  rcases h with h | ⟨before, h⟩
  · simp at h
  rcases List.eq_nil_or_concat rest with rfl | ⟨init, c, rfl⟩
  · exact .inl rfl
  · rw [List.concat_eq_append, ← List.cons_append, ← List.append_assoc] at h
    obtain ⟨-, hc⟩ := List.append_inj' h rfl
    exact .inr ⟨init, by rw [List.concat_eq_append, hc]⟩

-- ---------------------------------------------------------------------------
-- The end of a line
-- ---------------------------------------------------------------------------

theorem withoutReturn_cons {c : Char} (hne : line ≠ []) :
    withoutReturn (c :: line) = c :: withoutReturn line := by
  obtain ⟨d, tail, rfl⟩ := List.exists_cons_of_ne_nil hne
  unfold withoutReturn
  rw [List.getLast?_cons_cons]
  split <;> rfl

theorem withoutReturn_of_ne (h : line.getLast? ≠ some '\r') : withoutReturn line = line := if_neg h

theorem withoutReturn_concat (line : Text) : withoutReturn (line ++ ['\r']) = line := by
  rw [withoutReturn, if_pos (by simp), List.dropLast_concat]

theorem withoutReturn_cases (line : Text) :
    withoutReturn line = line ∨
      ∃ before, line = before ++ ['\r'] ∧ withoutReturn line = before := by
  by_cases h : line.getLast? = some '\r'
  · obtain ⟨before, rfl⟩ := List.getLast?_eq_some_iff.mp h
    exact .inr ⟨before, rfl, withoutReturn_concat before⟩
  · exact .inl (withoutReturn_of_ne h)

theorem isAllBlank_concat {c : Char} (hc : isBlank c = true) (text : Text) :
    isAllBlank (text ++ [c]) = text.isAllBlank := by
  rw [isAllBlank, isAllBlank, List.all_append, List.all_cons, hc]
  simp

theorem isAllBlank_withoutReturn (line : Text) :
    (withoutReturn line).isAllBlank = line.isAllBlank := by
  rcases withoutReturn_cases line with h | ⟨before, rfl, h⟩
  · rw [h]
  · rw [h, isAllBlank_concat (by decide)]

theorem trim_concat {c : Char} (hc : isBlank c = true) (text : Text) :
    trim (text ++ [c]) = trim text := by
  unfold trim
  rw [List.dropWhile_append]
  split
  case isTrue h =>
    rw [List.isEmpty_iff.mp h]
    simp [hc]
  case isFalse =>
    rw [List.reverse_append, List.reverse_singleton, List.singleton_append,
      List.dropWhile_cons_of_pos hc]

theorem trim_eq_nil_iff {text : Text} : trim text = [] ↔ text.isAllBlank = true := by
  rw [trim, List.reverse_eq_nil_iff, List.dropWhile_eq_nil_iff, isAllBlank, List.all_eq_true]
  refine ⟨fun h => ?_, fun h c hc => ?_⟩
  · -- The first character that is left would not be blank.
    have hnil : text.dropWhile isBlank = [] := by
      cases hd : text.dropWhile isBlank with
      | nil => rfl
      | cons c rest =>
        have hc := List.head?_dropWhile_not isBlank text
        simp only [hd, List.head?_cons] at hc
        rw [h c (by simp [hd])] at hc
        contradiction
    exact List.dropWhile_eq_nil_iff.mp hnil
  · exact h c ((List.dropWhile_sublist isBlank).subset (List.mem_reverse.mp hc))

theorem trim_withoutReturn (line : Text) : trim (withoutReturn line) = trim line := by
  rcases withoutReturn_cases line with h | ⟨before, rfl, h⟩
  · rw [h]
  · rw [h, trim_concat (by decide)]

-- ---------------------------------------------------------------------------
-- Reading lines
-- ---------------------------------------------------------------------------

theorem lines_cons {c : Char} (hc : c ≠ '\n') (hr : c = '\r' → rest.head? ≠ some '\n') :
    lines (c :: rest) =
      match lines rest with
      | [] => [[c]]
      | line :: more => (c :: line) :: more := by
  have htail (tail : Text) (h : c = '\r') (hrest : rest = '\n' :: tail) : False := by
    rw [hrest] at hr
    exact hr h rfl
  exact lines.eq_4 c rest hc htail

theorem lines_line (h : '\n' ∉ line) (rest : Text) :
    lines (line ++ '\n' :: rest) = withoutReturn line :: lines rest := by
  induction line with
  | nil => rfl
  | cons c line ih =>
    rw [List.mem_cons, not_or] at h
    cases line with
    | nil =>
      by_cases hr : c = '\r'
      · subst hr
        rfl
      · rw [List.singleton_append, lines_cons (Ne.symm h.1) fun heq => absurd heq hr,
          withoutReturn_of_ne (by simpa using hr)]
        rfl
    | cons d line =>
      have hnext : (d :: line ++ '\n' :: rest).head? ≠ some '\n' := by
        simpa using fun heq : d = '\n' => h.2 (by simp [heq])
      rw [List.cons_append, lines_cons (Ne.symm h.1) fun _ => hnext, ih h.2,
        withoutReturn_cons (List.cons_ne_nil d line)]

theorem lines_of_not_mem (h : '\n' ∉ line) (hne : line ≠ []) : lines line = [line] := by
  induction line with
  | nil => contradiction
  | cons c line ih =>
    rw [List.mem_cons, not_or] at h
    have hnext : line.head? ≠ some '\n' := fun hd => h.2 (List.mem_of_mem_head? hd)
    rw [lines_cons (Ne.symm h.1) fun _ => hnext]
    cases line with
    | nil => rfl
    | cons d line => rw [ih h.2 (List.cons_ne_nil d line)]

theorem lines_append (h : EndsLine a) (b : Text) : lines (a ++ b) = lines a ++ lines b := by
  induction a using lineInduction with
  | last line hline =>
    rw [h.eq_nil hline]
    rfl
  | cons line rest hline ih =>
    rw [List.append_assoc, List.cons_append, lines_line hline, lines_line hline, ih h.tail,
      List.cons_append]

theorem lines_return (h : a.getLast? ≠ some '\r') (b : Text) :
    lines (a ++ '\r' :: '\n' :: b) = lines (a ++ '\n' :: b) := by
  induction a using lineInduction with
  | last line hline =>
    have hreturn : '\n' ∉ line ++ ['\r'] := by simpa using hline
    rw [lines_line hline, withoutReturn_of_ne h, List.append_cons, lines_line hreturn,
      withoutReturn_concat]
  | cons line rest hline ih =>
    have hrest : rest.getLast? ≠ some '\r' := by
      intro heq
      rw [List.getLast?_append, List.getLast?_cons, heq] at h
      exact h rfl
    simp only [List.append_assoc, List.cons_append]
    rw [lines_line hline, lines_line hline, ih hrest]

theorem rows_line (h : '\n' ∉ line) (rest : Text) :
    rows (line ++ '\n' :: rest) = (line ++ ['\n']) :: rows rest := by
  induction line with
  | nil => rfl
  | cons c line ih =>
    rw [List.mem_cons, not_or] at h
    rw [List.cons_append, rows, if_neg (Ne.symm h.1), ih h.2]
    rfl

theorem rows_of_not_mem (h : '\n' ∉ line) (hne : line ≠ []) : rows line = [line] := by
  induction line with
  | nil => contradiction
  | cons c line ih =>
    rw [List.mem_cons, not_or] at h
    rw [rows, if_neg (Ne.symm h.1)]
    cases line with
    | nil => rfl
    | cons d line => rw [ih h.2 (List.cons_ne_nil d line)]

/-- The lines before the first blank one, with their ends. -/
def beforeBlankLine (text : Text) : Text :=
  ((rows text).takeWhile fun row => !row.isAllBlank).flatten

theorem lines_beforeBlankLine (text : Text) :
    lines (beforeBlankLine text) = (lines text).takeWhile fun line => !line.isAllBlank := by
  induction text using lineInduction with
  | last line hline =>
    by_cases hne : line = []
    · rw [hne]
      rfl
    · rw [beforeBlankLine, rows_of_not_mem hline hne, lines_of_not_mem hline hne]
      cases hb : line.isAllBlank with
      | true => simp [hb, lines]
      | false => simp [hb, lines_of_not_mem hline hne]
  | cons line rest hline ih =>
    have hend : (line ++ ['\n']).isAllBlank = line.isAllBlank := isAllBlank_concat (by decide) line
    rw [beforeBlankLine, rows_line hline, lines_line hline]
    cases hb : line.isAllBlank with
    | true => simp [hend, hb, isAllBlank_withoutReturn, lines]
    | false =>
      rw [List.takeWhile_cons_of_pos (by simp [hend, hb]),
        List.takeWhile_cons_of_pos (by simp [isAllBlank_withoutReturn, hb]), ← ih,
        List.flatten_cons, ← List.append_cons, lines_line hline, beforeBlankLine]

end Text

namespace Session

-- ---------------------------------------------------------------------------
-- The statements of a script
-- ---------------------------------------------------------------------------

theorem isSkipped_iff {line : Text} :
    isSkipped line = true ↔ line.isAllBlank = true ∨ (Text.trim line).head? = some '#' := by
  rw [← Text.trim_eq_nil_iff, isSkipped]
  cases Text.trim line <;> simp

theorem isSkipped_withoutReturn (line : Text) :
    isSkipped line.withoutReturn = isSkipped line := by
  rw [isSkipped, isSkipped, Text.trim_withoutReturn]

theorem statements_eq (script : Text) :
    statements script = (Text.lines script).filter fun line =>
      !line.isAllBlank && (Text.trim line).head? ≠ some '#' := by
  refine List.filter_congr fun line _ => ?_
  rw [Bool.eq_iff_iff, Bool.not_eq_true', Bool.eq_false_iff, ne_eq, isSkipped_iff]
  simp

variable {a line : Text}

theorem statements_append (h : Text.EndsLine a) (b : Text) :
    statements (a ++ b) = statements a ++ statements b := by
  rw [statements, Text.lines_append h, List.filter_append]
  rfl

theorem statements_of_skipped (hline : '\n' ∉ line) (h : isSkipped line = true) :
    statements line = [] := by
  by_cases hne : line = []
  · rw [hne]
    rfl
  · rw [statements, Text.lines_of_not_mem hline hne]
    simp [h]

theorem statements_skipped_line (hline : '\n' ∉ line) (h : isSkipped line = true) (b : Text) :
    statements (line ++ '\n' :: b) = statements b := by
  rw [statements, Text.lines_line hline, List.filter_cons_of_neg]
  · rfl
  · simp [isSkipped_withoutReturn, h]

end Session

end Calculator
