import Calculator.Proofs.Form
import Calculator.Proofs.Reading

/-!
# Splitting a level at its operators

An operator of a level stands outside all its parentheses, after a digit, a point or a closing
parenthesis, blanks apart. Splitting a text at all of them loses nothing (`Chain.text_ofText`), and
it gives back the chain that a level is (`Chain.ofText_text`).
-/

namespace Calculator

/-- What comes before a character: the parentheses open there, and whether the last character that
is not blank can end an operand. -/
structure Place where
  depth : Nat
  ended : Bool
  deriving DecidableEq, Repr

namespace Place

def start : Place := ⟨0, false⟩

def endsOperand (c : Char) : Bool := c.isDigit || c = '.' || c = ')'

def after (p : Place) (c : Char) : Place where
  depth := if c = '(' then p.depth + 1 else if c = ')' then p.depth - 1 else p.depth
  ended := if isBlank c then p.ended else endsOperand c

def operator? (p : Place) (c : Char) : Option Operator :=
  if p.depth = 0 ∧ p.ended then Operator.ofChar? c else none

end Place

namespace Chain

def split (p : Place) (piece : Text) : Text → Chain Text
  | [] => ⟨[], piece⟩
  | c :: rest =>
    match p.operator? c with
    | some op =>
      let tail := split .start [] rest
      ⟨⟨piece, op⟩ :: tail.links, tail.last⟩
    | none => split (p.after c) (piece ++ [c]) rest

/-- The pieces of a text between the operators of its level. -/
def ofText (text : Text) : Chain Text := split .start [] text

variable {p : Place} {c : Char} {piece rest : Text}

theorem split_of_some {op : Operator} (h : p.operator? c = some op) :
    split p piece (c :: rest) = ⟨⟨piece, op⟩ :: (ofText rest).links, (ofText rest).last⟩ := by
  rw [split, h]
  rfl

theorem split_of_none (h : p.operator? c = none) :
    split p piece (c :: rest) = split (p.after c) (piece ++ [c]) rest := by
  rw [split, h]

theorem text_split (p : Place) (piece rest : Text) : (split p piece rest).text = piece ++ rest := by
  induction rest generalizing p piece with
  | nil => exact (List.append_nil piece).symm
  | cons c rest ih =>
    cases h : p.operator? c with
    | none => rw [split_of_none h, ih, List.append_assoc, List.singleton_append]
    | some op =>
      have hc : Operator.ofChar? c = some op := by
        unfold Place.operator? at h
        split at h
        · exact h
        · contradiction
      rw [split_of_some h, text_cons, Operator.ofChar?_eq_some_iff.mp hc]
      exact congrArg (fun tail => piece ++ op.symbol :: tail) (ih .start [])

theorem text_ofText (text : Text) : (ofText text).text = text := text_split ..

-- ---------------------------------------------------------------------------
-- Passing over the parts of a chain
-- ---------------------------------------------------------------------------

theorem split_symbol (op : Operator) :
    split ⟨0, true⟩ piece (op.symbol :: rest) =
      ⟨⟨piece, op⟩ :: (ofText rest).links, (ofText rest).last⟩ :=
  split_of_some (Operator.ofChar?_symbol op)

theorem split_blank {blanks : Text} (h : blanks.isAllBlank) (p : Place) (piece rest : Text) :
    split p piece (blanks ++ rest) = split p (piece ++ blanks) rest := by
  induction blanks generalizing piece with
  | nil => simp
  | cons c blanks ih =>
    obtain ⟨hc, hblanks⟩ := Text.isAllBlank_cons.mp h
    have hnone : p.operator? c = none := by
      simp [Place.operator?, ofChar?_of_isBlank hc]
    have hopen : c ≠ '(' := ne_of_isBlank hc (by decide)
    have hclose : c ≠ ')' := ne_of_isBlank hc (by decide)
    have hafter : p.after c = p := by
      rw [Place.after, if_neg hopen, if_neg hclose, if_pos hc]
    rw [List.cons_append, split_of_none hnone, hafter, ih hblanks, List.append_assoc,
      List.singleton_append]

theorem split_of_mem_unsigned (h : c = '.' ∨ c.isDigit = true) (ended : Bool) :
    split ⟨0, ended⟩ piece (c :: rest) = split ⟨0, true⟩ (piece ++ [c]) rest := by
  have hblank : isBlank c = false := by
    rcases h with rfl | h
    · decide
    · exact Bool.eq_false_iff.mpr fun hb => by simp [isDigit_eq_false_of_isBlank hb] at h
  have hop : Operator.ofChar? c = none := by
    refine Option.eq_none_iff_forall_ne_some.mpr fun op hop => ?_
    obtain rfl := Operator.ofChar?_eq_some_iff.mp hop
    rcases h with h | h
    · cases op <;> contradiction
    · simp [isDigit_symbol] at h
  have hparen : c ≠ '(' ∧ c ≠ ')' := by
    rcases h with rfl | h
    · decide
    · exact ⟨ne_of_isDigit h (by decide), ne_of_isDigit h (by decide)⟩
  have hafter : Place.after ⟨0, ended⟩ c = ⟨0, true⟩ := by
    rcases h with rfl | h
    · rfl
    · simp [Place.after, hparen, hblank, Place.endsOperand, h]
  rw [split_of_none (by simp [Place.operator?, hop]), hafter]

theorem split_unsigned {body : Text} (h : ∀ c ∈ body, c = '.' ∨ c.isDigit = true)
    (piece rest : Text) :
    split ⟨0, true⟩ piece (body ++ rest) = split ⟨0, true⟩ (piece ++ body) rest := by
  induction body generalizing piece with
  | nil => simp
  | cons c body ih =>
    rw [List.cons_append, split_of_mem_unsigned (h c (List.mem_cons_self ..)),
      ih fun x hx => h x (List.mem_cons_of_mem c hx), List.append_assoc, List.singleton_append]

theorem split_numeral {body : Text} (h : Numeral body) (piece rest : Text) :
    split .start piece (body ++ rest) = split ⟨0, true⟩ (piece ++ body) rest := by
  have hunsigned {body : Text} (h : Unsigned body) (piece : Text) :
      split .start piece (body ++ rest) = split ⟨0, true⟩ (piece ++ body) rest := by
    obtain ⟨c, tail, rfl⟩ := List.exists_cons_of_ne_nil h.ne_nil
    rw [List.cons_append, Place.start, split_of_mem_unsigned (h.mem (List.mem_cons_self ..)),
      split_unsigned fun x hx => h.mem (List.mem_cons_of_mem c hx), List.append_assoc,
      List.singleton_append]
  cases h with
  | unsigned h => exact hunsigned h piece
  | @signed sign body hs h =>
    have hafter : Place.after .start sign = .start := by
      rcases hs with rfl | rfl <;> rfl
    rw [List.cons_append, split_of_none rfl, hafter, hunsigned h, List.append_assoc,
      List.singleton_append]

theorem split_inGroup {inner : Text} {d e : Nat} (h : inner.openAfter? d = some e) (ended : Bool)
    (piece rest : Text) :
    ∃ last, split ⟨d + 1, ended⟩ piece (inner ++ rest) =
      split ⟨e + 1, last⟩ (piece ++ inner) rest := by
  induction inner generalizing d ended piece with
  | nil =>
    cases h
    exact ⟨ended, by simp⟩
  | cons c inner ih =>
    have hnext {f : Nat} (hf : Text.openAfter? f inner = some e)
        (hdepth : (Place.after ⟨d + 1, ended⟩ c).depth = f + 1) :
        ∃ last, split ⟨d + 1, ended⟩ piece (c :: inner ++ rest) =
          split ⟨e + 1, last⟩ (piece ++ c :: inner) rest := by
      obtain ⟨last, hlast⟩ := ih hf (Place.after ⟨d + 1, ended⟩ c).ended (piece ++ [c])
      refine ⟨last, ?_⟩
      rw [← hdepth, List.append_assoc, List.singleton_append] at hlast
      rw [List.cons_append, split_of_none rfl]
      exact hlast
    by_cases hopen : c = '('
    · subst hopen
      rw [Text.openAfter?_open] at h
      exact hnext h rfl
    by_cases hclose : c = ')'
    · subst hclose
      cases d with
      | zero => simp at h
      | succ d =>
        rw [Text.openAfter?_close_succ] at h
        exact hnext h rfl
    rw [Text.openAfter?_other hopen hclose] at h
    exact hnext h (by rw [Place.after, if_neg hopen, if_neg hclose])

theorem split_group {inner : Text} (h : inner.Balanced) (piece rest : Text) :
    split .start piece ('(' :: inner ++ ')' :: rest) =
      split ⟨0, true⟩ (piece ++ '(' :: inner ++ [')']) rest := by
  obtain ⟨last, hinner⟩ :=
    split_inGroup (Text.balanced_iff.mp h) false (piece ++ ['(']) (')' :: rest)
  have hopen : split .start piece ('(' :: (inner ++ ')' :: rest)) =
      split ⟨1, false⟩ (piece ++ ['(']) (inner ++ ')' :: rest) := split_of_none rfl
  have hclose : split ⟨1, last⟩ (piece ++ ['('] ++ inner) (')' :: rest) =
      split ⟨0, true⟩ (piece ++ ['('] ++ inner ++ [')']) rest := split_of_none rfl
  rw [List.cons_append, hopen, hinner, hclose]
  simp

theorem split_term {a : Text} (h : Term a) (rest : Text) :
    split .start [] (a ++ rest) = split ⟨0, true⟩ a rest := by
  cases h with
  | @literal before body after hb hn ha =>
    rw [List.append_assoc, List.append_assoc, split_blank hb, split_numeral hn, split_blank ha]
    simp
  | @group before inner after hb hi ha =>
    have htext : before ++ '(' :: inner ++ ')' :: after ++ rest =
        before ++ ('(' :: inner ++ ')' :: (after ++ rest)) := by simp
    rw [htext, split_blank hb, split_group hi, split_blank ha]
    simp

-- ---------------------------------------------------------------------------
-- The chain of a level
-- ---------------------------------------------------------------------------

theorem ofText_text {c : Chain Text} (h : c.WellFormed) : ofText c.text = c := by
  obtain ⟨links, last⟩ := c
  induction links with
  | nil =>
    rcases h.last with hterm | hblank
    · have hsplit := split_term hterm []
      rw [List.append_nil] at hsplit
      exact hsplit
    · have hsplit := split_blank hblank .start [] []
      rw [List.append_nil] at hsplit
      exact hsplit
  | cons link links ih =>
    obtain ⟨a, op⟩ := link
    rw [text_cons, ofText, split_term (h.links ⟨a, op⟩ (List.mem_cons_self ..)), split_symbol,
      ih h.tail]

end Chain

end Calculator
