/-!
# Texts and byte positions

A text is a list of characters, a position the number of UTF-8 bytes before it. A text can
be cut only between two characters: `cut?_eq_some_iff` says that a cut loses nothing and
where it falls.
-/

namespace Calculator

abbrev Text := List Char

namespace Text

def size : Text → Nat
  | [] => 0
  | c :: rest => c.utf8Size + size rest

@[simp] theorem size_nil : size [] = 0 := rfl

@[simp] theorem size_cons (c : Char) (rest : Text) : size (c :: rest) = c.utf8Size + size rest :=
  rfl

@[simp] theorem size_append (a b : Text) : size (a ++ b) = size a + size b := by
  induction a with
  | nil => simp
  | cons c a ih => simp [ih, Nat.add_assoc]

theorem length_le_size (text : Text) : text.length ≤ size text := by
  induction text with
  | nil => simp
  | cons c rest ih =>
    have := c.utf8Size_pos
    simp only [List.length_cons, size_cons]
    omega

def utf8 (text : Text) : List UInt8 :=
  text.flatMap String.utf8EncodeChar

@[simp] theorem utf8_append (a b : Text) : utf8 (a ++ b) = utf8 a ++ utf8 b := by
  simp [utf8]

theorem length_utf8 (text : Text) : (utf8 text).length = size text := by
  induction text with
  | nil => rfl
  | cons c rest ih =>
    simp only [utf8, List.flatMap_cons, List.length_append, String.length_utf8EncodeChar,
      size_cons, Nat.add_left_cancel_iff]
    exact ih

/-- The parts before and after a byte position; none inside a character or past the end. -/
def cut? : Nat → Text → Option (Text × Text)
  | 0, text => some ([], text)
  | _ + 1, [] => none
  | n + 1, c :: rest =>
    if c.utf8Size ≤ n + 1 then
      (cut? (n + 1 - c.utf8Size) rest).map fun (before, after) => (c :: before, after)
    else none

@[simp] theorem cut?_zero (text : Text) : cut? 0 text = some ([], text) := by
  cases text <;> rfl

@[simp] theorem cut?_size_append (a b : Text) : cut? (size a) (a ++ b) = some (a, b) := by
  induction a with
  | nil => simp
  | cons c a ih =>
    obtain ⟨n, hn⟩ : ∃ n, size (c :: a) = n + 1 :=
      Nat.exists_eq_succ_of_ne_zero (by have := c.utf8Size_pos; simp only [size_cons]; omega)
    have hc : c.utf8Size ≤ n + 1 := by rw [← hn, size_cons]; omega
    have hr : n + 1 - c.utf8Size = size a := by rw [← hn, size_cons]; omega
    rw [hn, List.cons_append, cut?, if_pos hc, hr, ih]
    rfl

theorem eq_append_of_cut? {n : Nat} {text before after : Text}
    (h : cut? n text = some (before, after)) : text = before ++ after ∧ size before = n := by
  fun_induction cut? n text generalizing before after with
  | case1 text =>
    obtain ⟨rfl, rfl⟩ := Prod.mk.inj (Option.some.inj h)
    exact ⟨rfl, rfl⟩
  | case2 => contradiction
  | case3 n c rest hc ih =>
    obtain ⟨⟨b, a⟩, hb, he⟩ := Option.map_eq_some_iff.mp h
    obtain ⟨rfl, rfl⟩ := Prod.mk.inj he
    obtain ⟨rfl, hs⟩ := ih hb
    exact ⟨rfl, by rw [size_cons, hs]; omega⟩
  | case4 => contradiction

theorem cut?_eq_some_iff {n : Nat} {text before after : Text} :
    cut? n text = some (before, after) ↔ text = before ++ after ∧ size before = n := by
  refine ⟨eq_append_of_cut?, ?_⟩
  rintro ⟨rfl, rfl⟩
  exact cut?_size_append before after

def span? (start stop : Nat) (text : Text) : Option Text := do
  let (_, rest) ← cut? start text
  if start ≤ stop then
    let (inside, _) ← cut? (stop - start) rest
    some inside
  else none

theorem span?_append (before inside after : Text) :
    span? (size before) (size before + size inside) (before ++ inside ++ after) =
      some inside := by
  simp [span?, List.append_assoc]

end Text

end Calculator
