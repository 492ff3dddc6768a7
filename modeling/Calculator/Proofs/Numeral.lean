import Calculator.Number.Reading

/-!
# Numerals

The form of a literal: an optional sign, then digits with an optional point before, behind or
among them. Every numeral is read as a number (`Numeral.ofText?_isSome`). No reading gives a
signalling NaN (`Number.ofText?_ne_signallingNan`).
-/

namespace Calculator

namespace Text

def isAllDigits (text : Text) : Bool := text.all Char.isDigit

theorem isAllDigits_iff {text : Text} : text.isAllDigits = true ↔ ∀ c ∈ text, c.isDigit = true := by
  simp [isAllDigits]

end Text

inductive Unsigned : Text → Prop
  | whole {digits : Text} : digits.isAllDigits → digits ≠ [] → Unsigned digits
  | pointed {digits places : Text} : digits.isAllDigits → digits ≠ [] → places.isAllDigits →
      Unsigned (digits ++ '.' :: places)
  | fraction {places : Text} : places.isAllDigits → places ≠ [] → Unsigned ('.' :: places)

inductive Numeral : Text → Prop
  | unsigned {body : Text} : Unsigned body → Numeral body
  | signed {sign : Char} {body : Text} : sign = '+' ∨ sign = '-' → Unsigned body →
      Numeral (sign :: body)

theorem unsigned_iff {body : Text} :
    Unsigned body ↔
      (body.isAllDigits ∧ body ≠ []) ∨
        ∃ digits places : Text, digits.isAllDigits ∧ places.isAllDigits ∧
          digits ++ places ≠ [] ∧ body = digits ++ '.' :: places := by
  constructor
  · intro h
    cases h with
    | whole hd hne => exact .inl ⟨hd, hne⟩
    | pointed hd hne hp => exact .inr ⟨_, _, hd, hp, by simp [hne], rfl⟩
    | fraction hp hne => exact .inr ⟨[], _, rfl, hp, by simpa using hne, rfl⟩
  · rintro (⟨hd, hne⟩ | ⟨digits, places, hd, hp, hne, rfl⟩)
    · exact .whole hd hne
    · by_cases h : digits = []
      · subst h
        exact .fraction hp (by simpa using hne)
      · exact .pointed hd h hp

theorem Numeral.digit {c : Char} (h : c.isDigit = true) : Numeral [c] :=
  .unsigned (.whole (by simp [Text.isAllDigits, h]) (List.cons_ne_nil c []))

-- ---------------------------------------------------------------------------
-- The characters of a numeral
-- ---------------------------------------------------------------------------

theorem Unsigned.mem {body : Text} (h : Unsigned body) {c : Char} (hc : c ∈ body) :
    c = '.' ∨ c.isDigit = true := by
  rcases unsigned_iff.mp h with ⟨hd, -⟩ | ⟨digits, places, hd, hp, -, rfl⟩
  · exact .inr (Text.isAllDigits_iff.mp hd c hc)
  · rcases List.mem_append.mp hc with hc | hc
    · exact .inr (Text.isAllDigits_iff.mp hd c hc)
    rcases List.mem_cons.mp hc with rfl | hc
    · exact .inl rfl
    · exact .inr (Text.isAllDigits_iff.mp hp c hc)

theorem Unsigned.ne_nil {body : Text} (h : Unsigned body) : body ≠ [] := by
  cases h <;> simp_all

theorem Numeral.mem {body : Text} (h : Numeral body) {c : Char} (hc : c ∈ body) :
    c = '+' ∨ c = '-' ∨ c = '.' ∨ c.isDigit = true := by
  cases h with
  | unsigned h => exact .inr (.inr (h.mem hc))
  | signed hs h =>
    rcases List.mem_cons.mp hc with rfl | hc
    · exact hs.elim .inl fun h => .inr (.inl h)
    · exact .inr (.inr (h.mem hc))

theorem Numeral.ne_nil {body : Text} (h : Numeral body) : body ≠ [] := by
  cases h with
  | unsigned h => exact h.ne_nil
  | signed => simp

-- ---------------------------------------------------------------------------
-- Reading
-- ---------------------------------------------------------------------------

namespace Text

theorem leadingDigits_append {digits : Text} (rest : Text) (hd : digits.isAllDigits)
    (hr : ∀ c ∈ rest.head?, c.isDigit = false) : leadingDigits (digits ++ rest) = digits := by
  rw [leadingDigits, List.takeWhile_append_of_pos (isAllDigits_iff.mp hd)]
  cases rest with
  | nil => simp
  | cons c rest => simp [hr c (by simp)]

theorem afterDigits_append {digits : Text} (rest : Text) (hd : digits.isAllDigits)
    (hr : ∀ c ∈ rest.head?, c.isDigit = false) : afterDigits (digits ++ rest) = rest := by
  rw [afterDigits, List.dropWhile_append_of_pos (isAllDigits_iff.mp hd)]
  cases rest with
  | nil => simp
  | cons c rest => simp [hr c (by simp)]

def significand (text : Text) : Nat := ofDigits (text.filter Char.isDigit)

def places (text : Text) : Nat := (text.dropWhile (· ≠ '.')).length - 1

theorem filter_isDigit {digits : Text} (h : digits.isAllDigits) :
    digits.filter Char.isDigit = digits :=
  List.filter_eq_self.mpr (isAllDigits_iff.mp h)

theorem dropWhile_ne_point {digits : Text} (h : digits.isAllDigits) (rest : Text) :
    (digits ++ rest).dropWhile (· ≠ '.') = rest.dropWhile (· ≠ '.') := by
  refine List.dropWhile_append_of_pos fun c hc => decide_eq_true ?_
  rintro rfl
  exact absurd (isAllDigits_iff.mp h '.' hc) (by decide)

end Text

/-- Without its point and with as many decimal places a numeral is the same decimal. -/
theorem Unsigned.ofText?_decimal {body : Text} (h : Unsigned body) :
    Decimal.ofText? body = some ⟨body.significand, -body.places⟩ := by
  rcases unsigned_iff.mp h with ⟨hd, hne⟩ | ⟨digits, places, hd, hp, hne, rfl⟩
  · have hlead := Text.leadingDigits_append [] hd (by simp)
    have hafter := Text.afterDigits_append [] hd (by simp)
    have hplaces := Text.dropWhile_ne_point hd []
    rw [List.append_nil] at hlead hafter hplaces
    simp only [Decimal.ofText?, hlead, hafter, Decimal.exponent?, Text.significand, Text.places,
      Text.filter_isDigit hd, hplaces]
    rw [if_neg (by simpa using hne)]
    simp
  · have hpoint : ∀ c ∈ ('.' :: places).head?, c.isDigit = false := by simp
    have hlead := Text.leadingDigits_append [] hp (by simp)
    have hafter := Text.afterDigits_append [] hp (by simp)
    rw [List.append_nil] at hlead hafter
    have hfilter : (digits ++ '.' :: places).filter Char.isDigit = digits ++ places := by
      simp [Text.filter_isDigit hd, Text.filter_isDigit hp]
    have hplaces : (digits ++ '.' :: places).dropWhile (· ≠ '.') = '.' :: places :=
      Text.dropWhile_ne_point hd _
    simp only [Decimal.ofText?, Text.leadingDigits_append _ hd hpoint,
      Text.afterDigits_append _ hd hpoint, hlead, hafter, Decimal.exponent?, Text.significand,
      Text.places, hfilter, hplaces]
    rw [if_neg (by simpa using hne)]
    simp

namespace Number

theorem ofText?_cons {c : Char} (hplus : c ≠ '+') (hminus : c ≠ '-') (rest : Text) :
    ofText? (c :: rest) = ofUnsigned? (c :: rest) := by
  unfold ofText?
  split <;> simp_all

end Number

theorem Unsigned.ofText? {body : Text} (h : Unsigned body) :
    Number.ofText? body = Number.ofUnsigned? body := by
  cases body with
  | nil => exact absurd rfl h.ne_nil
  | cons c rest =>
    refine Number.ofText?_cons ?_ ?_ rest
    all_goals
      rintro rfl
      simpa using h.mem (List.mem_cons_self ..)

theorem Unsigned.ofUnsigned?_isSome {body : Text} (h : Unsigned body) :
    (Number.ofUnsigned? body).isSome := by
  simp [Number.ofUnsigned?, h.ofText?_decimal]

theorem Numeral.ofText?_isSome {body : Text} (h : Numeral body) :
    (Number.ofText? body).isSome := by
  cases h with
  | unsigned h =>
    rw [h.ofText?]
    exact h.ofUnsigned?_isSome
  | signed hs h =>
    rcases hs with rfl | rfl
    · exact h.ofUnsigned?_isSome
    · simpa [Number.ofText?] using h.ofUnsigned?_isSome

def Numeral.value {body : Text} (h : Numeral body) : Number :=
  (Number.ofText? body).get h.ofText?_isSome

theorem Numeral.ofText?_eq {body : Text} (h : Numeral body) :
    Number.ofText? body = some h.value :=
  (Option.some_get _).symm

namespace Number

theorem negate_ne_signallingNan {x : Number} (h : x ≠ signallingNan) :
    x.negate ≠ signallingNan := by
  cases x <;> simp_all [negate]

theorem ofUnsigned?_ne_signallingNan {text : Text} {x : Number} (h : ofUnsigned? text = some x) :
    x ≠ signallingNan := by
  rw [ofUnsigned?, Option.orElse_eq_orElse, Option.orElse_eq_or, Option.or_eq_some_iff] at h
  rcases h with h | ⟨-, h⟩
  · simp only [ofWord?] at h
    repeat' split at h
    all_goals cases h
    all_goals simp
  · obtain ⟨d, -, rfl⟩ := Option.map_eq_some_iff.mp h
    simp

theorem ofText?_ne_signallingNan {text : Text} {x : Number} (h : ofText? text = some x) :
    x ≠ signallingNan := by
  unfold ofText? at h
  split at h
  · exact ofUnsigned?_ne_signallingNan h
  · obtain ⟨y, hy, rfl⟩ := Option.map_eq_some_iff.mp h
    exact negate_ne_signallingNan (ofUnsigned?_ne_signallingNan hy)
  · exact ofUnsigned?_ne_signallingNan h

end Number

end Calculator
