import Calculator.Output

/-!
# Sending lines

Lines are sent to a sink one after the other, up to the first that is refused (`Sink.feed`). An
output takes lines like one text, as far as it has room (`feed_of_hasRoom`,
`feed_of_not_hasRoom`).
-/

namespace Calculator

variable {σ : Type}

def Sink.feed (sink : Sink σ) : List Text → σ → Except WriteError Unit × σ
  | [], state => (.ok (), state)
  | line :: rest, state =>
    match sink.write line state with
    | (.ok (), next) => sink.feed rest next
    | (.error cause, next) => (.error cause, next)

theorem Sink.feed_append_of_error {sink : Sink σ} {lines : List Text} {state next : σ}
    {cause : WriteError} (h : sink.feed lines state = (.error cause, next)) (rest : List Text) :
    sink.feed (lines ++ rest) state = (.error cause, next) := by
  induction lines generalizing state with
  | nil => simp [feed] at h
  | cons line lines ih =>
    rw [List.cons_append, feed]
    rw [feed] at h
    split at h
    · exact ih h
    · exact h

theorem Sink.feed_collecting (lines : List Text) (kept : Array Text) :
    collecting.feed lines kept = (.ok (), kept ++ lines) := by
  induction lines generalizing kept with
  | nil => simp [feed]
  | cons line rest ih =>
    refine (ih (kept.push line)).trans ?_
    simp

theorem Quota.feed_of_le {lines : List Text} {quota : Quota} (h : lines.length ≤ quota.left) :
    sink.feed lines quota =
      (.ok (), ⟨quota.left - lines.length, quota.kept ++ lines, quota.refused⟩) := by
  induction lines generalizing quota with
  | nil => simp [Sink.feed]
  | cons line rest ih =>
    obtain ⟨left, kept, refused⟩ := quota
    cases left with
    | zero => contradiction
    | succ left =>
      refine (@ih ⟨left, kept.push line, refused⟩ (Nat.le_of_succ_le_succ h)).trans ?_
      simp

theorem Quota.feed_of_lt {lines : List Text} {quota : Quota} (h : quota.left < lines.length) :
    sink.feed lines quota =
      (.error .closed, ⟨0, quota.kept ++ lines.take quota.left, quota.refused + 1⟩) := by
  induction lines generalizing quota with
  | nil => contradiction
  | cons line rest ih =>
    obtain ⟨left, kept, refused⟩ := quota
    cases left with
    | zero => simp [Sink.feed, sink, write]
    | succ left =>
      refine (@ih ⟨left, kept.push line, refused⟩ (Nat.lt_of_succ_lt_succ h)).trans ?_
      simp

namespace Text

def unlines (lines : List Text) : Text := lines.flatMap (· ++ ['\n'])

@[simp] theorem unlines_nil : unlines [] = [] := rfl

theorem unlines_cons (line : Text) (rest : List Text) :
    unlines (line :: rest) = line ++ ['\n'] ++ unlines rest := rfl

theorem size_unlines_pos {lines : List Text} (h : lines ≠ []) : 0 < (unlines lines).size := by
  cases lines with
  | nil => contradiction
  | cons line rest =>
    have hend := Char.utf8Size_pos '\n'
    simp only [unlines_cons, size_append, size_cons]
    omega

end Text

-- ---------------------------------------------------------------------------
-- Outputs
-- ---------------------------------------------------------------------------

namespace Output

variable {out : Output} {text : Text} {line : Text}

def HasRoom (out : Output) (text : Text) : Prop := ∀ room ∈ out.room, text.size ≤ room

def fitting (out : Output) (text : Text) : List UInt8 :=
  match out.room with
  | none => text.utf8
  | some room => text.utf8.take room

/-- Writes what fits, and has less room after it. -/
def absorb (out : Output) (text : Text) : Output :=
  { out.append (out.fitting text) with room := out.room.map (· - text.size) }

/-- Writes what fits of a text that is cut. -/
def breakOff (out : Output) (text : Text) : Output :=
  { out.append (out.fitting text) with room := if out.recovers then none else some 0 }

theorem write_sink (line : Text) (out : Output) : sink.write line out = out.writeLine line := rfl

theorem writeLine_of_hasRoom (h : out.HasRoom (line ++ ['\n'])) :
    out.writeLine line = (.ok (), out.absorb (line ++ ['\n'])) := by
  obtain ⟨written, room, recovers⟩ := out
  cases room with
  | none => rfl
  | some room =>
    have hle := h room rfl
    rw [← Text.length_utf8] at hle
    simp only [writeLine, absorb, fitting]
    rw [if_pos hle, List.take_of_length_le hle, ← Text.length_utf8]
    rfl

theorem writeLine_of_not_hasRoom (h : ¬ out.HasRoom (line ++ ['\n'])) :
    out.writeLine line = (.error .full, out.breakOff (line ++ ['\n'])) := by
  obtain ⟨written, room, recovers⟩ := out
  cases room with
  | none => exact absurd (by simp [HasRoom]) h
  | some room =>
    simp only [HasRoom, Option.mem_some_iff, forall_eq', ← Text.length_utf8] at h
    exact if_neg h

@[simp] theorem hasRoom_nil (out : Output) : out.HasRoom [] := fun _ _ => Nat.zero_le _

theorem hasRoom_of_room_eq_none (h : out.room = none) (text : Text) : out.HasRoom text := by
  simp [HasRoom, h]

theorem hasRoom_iff_of_room_eq_some {room : Nat} (h : out.room = some room) :
    out.HasRoom text ↔ text.size ≤ room := by
  simp [HasRoom, h]

theorem hasRoom_append {a b : Text} :
    out.HasRoom (a ++ b) ↔ out.HasRoom a ∧ (out.absorb a).HasRoom b := by
  obtain ⟨written, room, recovers⟩ := out
  cases room with
  | none => simp [HasRoom, absorb]
  | some room =>
    simp only [HasRoom, absorb, Option.mem_some_iff, forall_eq', Option.map_some, Text.size_append]
    omega

theorem not_hasRoom_absorb {a b : Text} (ha : out.HasRoom a) (h : ¬ out.HasRoom (a ++ b)) :
    ¬ (out.absorb a).HasRoom b := fun hb => h (hasRoom_append.mpr ⟨ha, hb⟩)

theorem fitting_append (out : Output) (a b : Text) :
    out.fitting (a ++ b) = out.fitting a ++ (out.absorb a).fitting b := by
  obtain ⟨written, room, recovers⟩ := out
  cases room with
  | none => simp [fitting, absorb]
  | some room => simp [fitting, absorb, List.take_append, Text.length_utf8]

theorem absorb_of_room_eq_none (h : out.room = none) (text : Text) :
    out.absorb text = out.append text.utf8 := by
  obtain ⟨written, room, recovers⟩ := out
  subst h
  rfl

@[simp] theorem absorb_nil (out : Output) : out.absorb [] = out := by
  obtain ⟨written, room, recovers⟩ := out
  cases room <;> simp [absorb, append, fitting, Text.utf8]

theorem written_append (written : Array UInt8) (a b : List UInt8) :
    written ++ (a ++ b) = written ++ a ++ b := by
  apply Array.toList_inj.mp
  simp

theorem absorb_append (out : Output) (a b : Text) :
    out.absorb (a ++ b) = (out.absorb a).absorb b := by
  have hroom : out.room.map (· - (a ++ b).size) =
      (out.room.map (· - a.size)).map (· - b.size) := by
    cases out.room <;> simp [Nat.sub_add_eq]
  rw [absorb, append, fitting_append, written_append, hroom]
  rfl

theorem breakOff_append (out : Output) (a b : Text) :
    out.breakOff (a ++ b) = (out.absorb a).breakOff b := by
  rw [breakOff, append, fitting_append, written_append]
  rfl

theorem fitting_append_of_not_hasRoom {a : Text} (h : ¬ out.HasRoom a) (b : Text) :
    out.fitting (a ++ b) = out.fitting a := by
  obtain ⟨written, room, recovers⟩ := out
  cases room with
  | none => exact absurd (by simp [HasRoom]) h
  | some room =>
    simp only [HasRoom, Option.mem_some_iff, forall_eq', ← Text.length_utf8] at h
    change (Text.utf8 (a ++ b)).take room = a.utf8.take room
    rw [Text.utf8_append, List.take_append_of_le_length (by omega)]

theorem absorb_append_of_not_hasRoom {a : Text} (h : ¬ out.HasRoom a) (b : Text) :
    out.absorb (a ++ b) = out.absorb a := by
  have hroom : out.room.map (· - (a ++ b).size) = out.room.map (· - a.size) := by
    cases hr : out.room with
    | none => rfl
    | some room =>
      simp only [HasRoom, hr, Option.mem_some_iff, forall_eq'] at h
      simp only [Option.map_some, Text.size_append, Option.some.injEq]
      omega
  rw [absorb, absorb, fitting_append_of_not_hasRoom h, hroom]

theorem breakOff_append_of_not_hasRoom {a : Text} (h : ¬ out.HasRoom a) (b : Text) :
    out.breakOff (a ++ b) = out.breakOff a := by
  rw [breakOff, breakOff, fitting_append_of_not_hasRoom h]

theorem breakOff_eq_absorb (hr : out.recovers = false) (h : ¬ out.HasRoom text) :
    out.breakOff text = out.absorb text := by
  obtain ⟨written, room, recovers⟩ := out
  subst hr
  cases room with
  | none => exact absurd (by simp [HasRoom]) h
  | some room =>
    simp only [HasRoom, Option.mem_some_iff, forall_eq'] at h
    have hzero : room - text.size = 0 := by omega
    simp [breakOff, absorb, hzero]

theorem room_breakOff (h : out.recovers = true) (text : Text) :
    (out.breakOff text).room = none := if_pos h

theorem room_absorb_of_eq_none (h : out.room = none) (text : Text) :
    (out.absorb text).room = none := by
  rw [absorb, h]
  rfl

theorem not_hasRoom_breakOff (h : out.recovers = false) (text line : Text) :
    ¬ (out.breakOff text).HasRoom (line ++ ['\n']) := by
  have hend : Text.size ['\n'] = 1 := rfl
  simp [HasRoom, breakOff, h, hend]

theorem feed_of_hasRoom {lines : List Text} (h : out.HasRoom (Text.unlines lines)) :
    sink.feed lines out = (.ok (), out.absorb (Text.unlines lines)) := by
  induction lines generalizing out with
  | nil => simp [Sink.feed]
  | cons line rest ih =>
    rw [Text.unlines_cons] at h ⊢
    obtain ⟨hline, hrest⟩ := hasRoom_append.mp h
    rw [Sink.feed, write_sink, writeLine_of_hasRoom hline, absorb_append out (line ++ ['\n'])]
    exact ih hrest

theorem feed_of_not_hasRoom {lines : List Text} (h : ¬ out.HasRoom (Text.unlines lines)) :
    sink.feed lines out = (.error .full, out.breakOff (Text.unlines lines)) := by
  induction lines generalizing out with
  | nil => exact absurd (hasRoom_nil out) h
  | cons line rest ih =>
    rw [Text.unlines_cons] at h ⊢
    by_cases hline : out.HasRoom (line ++ ['\n'])
    · rw [Sink.feed, write_sink, writeLine_of_hasRoom hline, breakOff_append]
      exact ih (not_hasRoom_absorb hline h)
    · rw [Sink.feed, write_sink, writeLine_of_not_hasRoom hline,
        breakOff_append_of_not_hasRoom hline]

end Output

end Calculator
