import Calculator.Text

/-!
# Balanced texts

A text is balanced if its parentheses can be paired. `openAfter?` counts the open ones from left
to right; `balanced_iff` says that balance is a count that begins and ends at zero. A balanced
text between a pair of parentheses ends at the first parenthesis that can close the pair
(`Balanced.closes_within`), so there is only one such text (`Balanced.group_injective`).
-/

namespace Calculator.Text

/-- Every beginning has at least as many opening parentheses as closing ones, and the whole
text has equally many. -/
structure Balanced (text : Text) : Prop where
  openFirst : ∀ before after, text = before ++ after → before.count ')' ≤ before.count '('
  allClosed : text.count '(' = text.count ')'

/-- The number of parentheses open after a text, given the number before it. None if the text
closes one that is not open. -/
def openAfter? : Nat → Text → Option Nat
  | depth, [] => some depth
  | depth, c :: rest =>
    if c = '(' then openAfter? (depth + 1) rest
    else if c = ')' then
      match depth with
      | 0 => none
      | depth + 1 => openAfter? depth rest
    else openAfter? depth rest

@[simp] theorem openAfter?_nil (d : Nat) : openAfter? d [] = some d := rfl

@[simp] theorem openAfter?_open (d : Nat) (rest : Text) :
    openAfter? d ('(' :: rest) = openAfter? (d + 1) rest := by
  simp [openAfter?]

@[simp] theorem openAfter?_close_zero (rest : Text) : openAfter? 0 (')' :: rest) = none := by
  simp [openAfter?]

@[simp] theorem openAfter?_close_succ (d : Nat) (rest : Text) :
    openAfter? (d + 1) (')' :: rest) = openAfter? d rest := by
  simp [openAfter?]

theorem openAfter?_other {c : Char} (hopen : c ≠ '(') (hclose : c ≠ ')') (d : Nat) (rest : Text) :
    openAfter? d (c :: rest) = openAfter? d rest := by
  simp [openAfter?, hopen, hclose]

theorem openAfter?_append (d : Nat) (a b : Text) :
    openAfter? d (a ++ b) = (openAfter? d a).bind fun e => openAfter? e b := by
  induction a generalizing d with
  | nil => rfl
  | cons c a ih =>
    rw [List.cons_append]
    by_cases hopen : c = '('
    · subst hopen
      simpa using ih (d + 1)
    by_cases hclose : c = ')'
    · subst hclose
      cases d with
      | zero => simp
      | succ d => simpa using ih d
    rw [openAfter?_other hopen hclose, openAfter?_other hopen hclose, ih d]

theorem openAfter?_append_eq_some {d e : Nat} {a b : Text} :
    openAfter? d (a ++ b) = some e ↔
      ∃ m, openAfter? d a = some m ∧ openAfter? m b = some e := by
  rw [openAfter?_append, Option.bind_eq_some_iff]

theorem openAfter?_add {d e : Nat} {text : Text} (h : openAfter? d text = some e) (k : Nat) :
    openAfter? (d + k) text = some (e + k) := by
  induction text generalizing d with
  | nil =>
    cases h
    rfl
  | cons c rest ih =>
    by_cases hopen : c = '('
    · subst hopen
      rw [openAfter?_open] at h ⊢
      rw [Nat.add_right_comm]
      exact ih h
    by_cases hclose : c = ')'
    · subst hclose
      cases d with
      | zero => simp at h
      | succ d =>
        rw [openAfter?_close_succ] at h
        rw [Nat.add_right_comm, openAfter?_close_succ]
        exact ih h
    rw [openAfter?_other hopen hclose] at h ⊢
    exact ih h

theorem openAfter?_of_plain {text : Text} (h : ∀ c ∈ text, c ≠ '(' ∧ c ≠ ')') (d : Nat) :
    openAfter? d text = some d := by
  induction text with
  | nil => rfl
  | cons c rest ih =>
    have hc := h c (by simp)
    rw [openAfter?_other hc.1 hc.2]
    exact ih fun x hx => h x (List.mem_cons_of_mem c hx)

-- ---------------------------------------------------------------------------
-- Balance is a count
-- ---------------------------------------------------------------------------

theorem openAfter?_eq_some_iff {d e : Nat} {text : Text} :
    openAfter? d text = some e ↔
      (∀ before after, text = before ++ after → before.count ')' ≤ d + before.count '(') ∧
        e + text.count ')' = d + text.count '(' := by
  induction text generalizing d with
  | nil =>
    simp only [openAfter?_nil, Option.some.injEq, List.count_nil, Nat.add_zero]
    constructor
    · rintro rfl
      refine ⟨fun before after h => ?_, rfl⟩
      obtain ⟨rfl, -⟩ := List.append_eq_nil_iff.mp h.symm
      simp
    · exact fun h => h.2.symm
  | cons c rest ih =>
    have hbefore (P : Text → Prop) (hnil : P []) :
        (∀ before after, c :: rest = before ++ after → P before) ↔
          ∀ before after, rest = before ++ after → P (c :: before) := by
      refine ⟨fun h before after hr => h (c :: before) after (by rw [hr, List.cons_append]), ?_⟩
      intro h before after hr
      cases before with
      | nil => exact hnil
      | cons x before =>
        obtain ⟨rfl, hrest⟩ := List.cons_eq_cons.mp hr
        exact h before after hrest
    rw [hbefore _ (by simp)]
    by_cases hopen : c = '('
    · subst hopen
      simp only [openAfter?_open, ih, List.count_cons, beq_iff_eq, Char.reduceEq, if_true,
        if_false]
      grind
    by_cases hclose : c = ')'
    · subst hclose
      cases d with
      | zero =>
        simp only [openAfter?_close_zero, reduceCtorEq, false_iff]
        rintro ⟨h, -⟩
        have := h [] rest rfl
        simp at this
      | succ d =>
        simp only [openAfter?_close_succ, ih, List.count_cons, beq_iff_eq, Char.reduceEq, if_true,
          if_false]
        grind
    rw [openAfter?_other hopen hclose, ih]
    simp only [List.count_cons, beq_iff_eq, hopen, hclose, if_false, Nat.add_zero]

theorem balanced_iff {text : Text} : Balanced text ↔ openAfter? 0 text = some 0 := by
  rw [openAfter?_eq_some_iff]
  simp only [Nat.zero_add]
  exact ⟨fun h => ⟨h.openFirst, h.allClosed.symm⟩, fun h => ⟨h.1, h.2.symm⟩⟩

instance (text : Text) : Decidable (Balanced text) := decidable_of_iff _ balanced_iff.symm

theorem Balanced.openAfter? {text : Text} (h : Balanced text) (d : Nat) :
    openAfter? d text = some d := by
  simpa using openAfter?_add (balanced_iff.mp h) d

theorem Balanced.openAfter?_group {inner : Text} (h : Balanced inner) (d : Nat) (rest : Text) :
    Text.openAfter? d ('(' :: inner ++ ')' :: rest) = Text.openAfter? d rest := by
  rw [List.cons_append, openAfter?_open, openAfter?_append, h.openAfter? (d + 1)]
  simp

-- ---------------------------------------------------------------------------
-- Where a pair of parentheses ends
-- ---------------------------------------------------------------------------

/-- A balanced text and the parenthesis after it lie in any part of a text that closes what was
open before it. -/
theorem Balanced.closes_within {inner part rest after : Text} {d e : Nat} (hi : Balanced inner)
    (hp : Text.openAfter? (d + 1) part = some e) (he : e ≤ d)
    (h : part ++ rest = inner ++ ')' :: after) :
    ∃ tail, part = inner ++ ')' :: tail ∧ after = tail ++ rest := by
  rcases List.append_eq_append_iff.mp h with ⟨x, rfl, -⟩ | ⟨x, rfl, hx⟩
  · -- The part would end inside the balanced text, where the pair is still open.
    obtain ⟨m, hm, -⟩ := openAfter?_append_eq_some.mp (balanced_iff.mp hi)
    have hm := openAfter?_add hm (d + 1)
    rw [Nat.zero_add, hp, Option.some.injEq] at hm
    omega
  · cases x with
    | nil =>
      rw [List.append_nil, hi.openAfter?, Option.some.injEq] at hp
      omega
    | cons c tail =>
      obtain ⟨rfl, rfl⟩ := List.cons_eq_cons.mp hx
      exact ⟨tail, rfl, rfl⟩

theorem Balanced.group_injective {a b x y : Text} (ha : Balanced a) (hb : Balanced b)
    (h : a ++ ')' :: x = b ++ ')' :: y) : a = b ∧ x = y := by
  have hclose {t : Text} (ht : Balanced t) : Text.openAfter? (0 + 1) (t ++ [')']) = some 0 := by
    rw [openAfter?_append, ht.openAfter?]
    simp
  obtain ⟨u, hu, -⟩ := ha.closes_within (hclose hb) (Nat.le_refl 0)
    (by simpa using h.symm : b ++ [')'] ++ y = a ++ ')' :: x)
  obtain ⟨v, hv, -⟩ := hb.closes_within (hclose ha) (Nat.le_refl 0)
    (by simpa using h : a ++ [')'] ++ x = b ++ ')' :: y)
  have hlen := congrArg List.length hu
  have hlen' := congrArg List.length hv
  simp only [List.length_append, List.length_cons, List.length_nil] at hlen hlen'
  obtain rfl : u = [] := List.eq_nil_of_length_eq_zero (by omega)
  obtain rfl : b = a := List.append_cancel_right hu
  exact ⟨rfl, by simpa using h⟩

end Calculator.Text
