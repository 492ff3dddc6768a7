import Calculator.Step
import Calculator.Proofs.Recognition

/-!
# The tree of a text

The levels of a text are the nodes of a tree. Its value is computed from the left, and the first
malformed text found on the way is reported in its place (`Tree.value_eq_error_iff`). The tree is
no higher than the text is long.
-/

namespace Calculator

/-- The levels of a text. A malformed text ends its branch. -/
inductive Tree where
  | malformed (text : Text)
  | literal (text : Text) (value : Number)
  | group (inner : Text) (tree : Tree)
  | binary (text : Text) (op : Operator) (lhs rhs : Tree)
  deriving DecidableEq, Repr

section

variable {assoc : Associativity} {text : Text}

namespace Level

theorem length_lt_of_group {inner : Text} (h : ofText assoc text = .ok (.group inner)) :
    inner.length < text.length := by
  cases ofText_eq_ok_iff.mp h
  exact Text.length_inner_lt ..

theorem length_lt_of_binary {lhs rhs : Text} {op : Operator}
    (h : ofText assoc text = .ok (.binary lhs op rhs)) :
    lhs.length < text.length ∧ rhs.length < text.length := by
  cases ofText_eq_ok_iff.mp h
  simp only [Chain.text_cut, List.length_append, List.length_cons]
  omega

end Level

namespace Tree

def ofText (assoc : Associativity) (text : Text) : Tree :=
  match _h : Level.ofText assoc text with
  | .error _ => .malformed text
  | .ok (.literal value) => .literal text value
  | .ok (.group inner) => .group inner (ofText assoc inner)
  | .ok (.binary lhs op rhs) => .binary text op (ofText assoc lhs) (ofText assoc rhs)
termination_by text.length
decreasing_by
  · exact Level.length_lt_of_group _h
  · exact (Level.length_lt_of_binary _h).1
  · exact (Level.length_lt_of_binary _h).2

theorem ofText_of_error {report : Malformed} (h : Level.ofText assoc text = .error report) :
    ofText assoc text = .malformed text := by
  rw [ofText]
  split <;> simp_all

theorem ofText_of_literal {value : Number} (h : Level.ofText assoc text = .ok (.literal value)) :
    ofText assoc text = .literal text value := by
  rw [ofText]
  split <;> simp_all

theorem ofText_of_group {inner : Text} (h : Level.ofText assoc text = .ok (.group inner)) :
    ofText assoc text = .group inner (ofText assoc inner) := by
  rw [ofText]
  split <;> simp_all

theorem ofText_of_binary {lhs rhs : Text} {op : Operator}
    (h : Level.ofText assoc text = .ok (.binary lhs op rhs)) :
    ofText assoc text = .binary text op (ofText assoc lhs) (ofText assoc rhs) := by
  rw [ofText]
  split <;> simp_all

@[elab_as_elim]
theorem ofTextInduction (assoc : Associativity) {motive : Text → Tree → Prop}
    (malformed : ∀ text, Level.ofText assoc text = .error ⟨text⟩ → motive text (.malformed text))
    (literal : ∀ text value, Level.Reads assoc text (.literal value) →
      motive text (.literal text value))
    (group : ∀ text inner, Level.Reads assoc text (.group inner) →
      motive inner (ofText assoc inner) → motive text (.group inner (ofText assoc inner)))
    (binary : ∀ text lhs op rhs, Level.Reads assoc text (.binary lhs op rhs) →
      motive lhs (ofText assoc lhs) → motive rhs (ofText assoc rhs) →
      motive text (.binary text op (ofText assoc lhs) (ofText assoc rhs)))
    (text : Text) : motive text (ofText assoc text) := by
  induction hn : text.length using Nat.strongRecOn generalizing text with
  | ind n ih =>
    subst hn
    cases h : Level.ofText assoc text with
    | error report =>
      rw [ofText_of_error h]
      rw [Level.eq_of_ofText_error h] at h
      exact malformed text h
    | ok level =>
      have hr := Level.ofText_eq_ok_iff.mp h
      cases level with
      | literal value =>
        rw [ofText_of_literal h]
        exact literal text value hr
      | group inner =>
        rw [ofText_of_group h]
        exact group text inner hr (ih _ (Level.length_lt_of_group h) inner rfl)
      | binary lhs op rhs =>
        obtain ⟨hl, hrhs⟩ := Level.length_lt_of_binary h
        rw [ofText_of_binary h]
        exact binary text lhs op rhs hr (ih _ hl lhs rfl) (ih _ hrhs rhs rfl)

end Tree

end

namespace Tree

-- ---------------------------------------------------------------------------
-- Height
-- ---------------------------------------------------------------------------

def height : Tree → Nat
  | malformed _ | literal .. => 0
  | group _ tree => tree.height + 1
  | binary _ _ lhs rhs => max lhs.height rhs.height + 1

theorem height_ofText_le_length (assoc : Associativity) (text : Text) :
    (ofText assoc text).height ≤ text.length := by
  induction text using ofTextInduction assoc with
  | malformed text _ => exact Nat.zero_le _
  | literal text value _ => exact Nat.zero_le _
  | group text inner hr ih =>
    have hlt := Level.length_lt_of_group hr.ofText_eq
    exact Nat.lt_of_le_of_lt ih hlt
  | binary text lhs op rhs hr ihl ihr =>
    obtain ⟨hl, hr⟩ := Level.length_lt_of_binary hr.ofText_eq
    exact Nat.max_lt.mpr ⟨Nat.lt_of_le_of_lt ihl hl, Nat.lt_of_le_of_lt ihr hr⟩

-- ---------------------------------------------------------------------------
-- Value and steps
-- ---------------------------------------------------------------------------

def value : Tree → Except Malformed Number
  | malformed text => .error ⟨text⟩
  | literal _ x => .ok x
  | group _ tree => tree.value
  | binary _ op lhs rhs => do
    let x ← lhs.value
    let y ← rhs.value
    pure (op.apply x y)

/-- The steps that are completed, up to the first malformed text. -/
def steps : Tree → List Step
  | malformed _ | literal .. => []
  | group _ tree => tree.steps
  | binary _ op lhs rhs =>
    match lhs.value, rhs.value with
    | .ok x, .ok y => lhs.steps ++ rhs.steps ++ [Step.ofOperands op x y]
    | .ok _, .error _ => lhs.steps ++ rhs.steps
    | .error _, _ => lhs.steps

def report? : Tree → Option Text
  | malformed text => some text
  | literal .. => none
  | group _ tree => tree.report?
  | binary _ _ lhs rhs => lhs.report?.or rhs.report?

theorem value_binary_ok {text : Text} {op : Operator} {lhs rhs : Tree} {x y : Number}
    (hl : lhs.value = .ok x) (hr : rhs.value = .ok y) :
    (binary text op lhs rhs).value = .ok (op.apply x y) := by
  rw [value, hl, hr]
  rfl

theorem exists_of_value_binary {text : Text} {op : Operator} {lhs rhs : Tree} {z : Number}
    (h : (binary text op lhs rhs).value = .ok z) :
    ∃ x y, lhs.value = .ok x ∧ rhs.value = .ok y ∧ op.apply x y = z := by
  rw [value] at h
  cases hl : lhs.value with
  | error report =>
    rw [hl] at h
    contradiction
  | ok x =>
    cases hr : rhs.value with
    | error report =>
      rw [hl, hr] at h
      contradiction
    | ok y =>
      rw [hl, hr] at h
      exact ⟨x, y, rfl, rfl, Except.ok.inj h⟩

theorem steps_binary_ok {text : Text} {op : Operator} {lhs rhs : Tree} {x y : Number}
    (hl : lhs.value = .ok x) (hr : rhs.value = .ok y) :
    (binary text op lhs rhs).steps = lhs.steps ++ rhs.steps ++ [Step.ofOperands op x y] := by
  rw [steps, hl, hr]

theorem report?_eq (tree : Tree) :
    tree.report? = match tree.value with
      | .ok _ => none
      | .error report => some report.text := by
  induction tree with
  | malformed text => rfl
  | literal text x => rfl
  | group inner tree ih => exact ih
  | binary text op lhs rhs ihl ihr =>
    rw [report?, ihl, ihr, value]
    cases lhs.value with
    | error report => rfl
    | ok x => cases rhs.value <;> rfl

theorem value_eq_error_iff {tree : Tree} {report : Malformed} :
    tree.value = .error report ↔ tree.report? = some report.text := by
  obtain ⟨text⟩ := report
  rw [report?_eq]
  cases tree.value with
  | ok x => simp
  | error found =>
    obtain ⟨found⟩ := found
    simp

theorem exists_value_iff {tree : Tree} : (∃ x, tree.value = .ok x) ↔ tree.report? = none := by
  rw [report?_eq]
  cases tree.value <;> simp

-- ---------------------------------------------------------------------------
-- Trees of terms and chains
-- ---------------------------------------------------------------------------

theorem ofText_numeral (assoc : Associativity) {before body after : Text}
    (hb : before.isAllBlank) (hn : Numeral body) (ha : after.isAllBlank) :
    ofText assoc (before ++ body ++ after) = .literal (before ++ body ++ after) hn.value :=
  ofText_of_literal (Level.ofText_literal hb hn ha)

theorem ofText_parenthesised (assoc : Associativity) {before inner after : Text}
    (hb : before.isAllBlank) (hi : inner.Balanced) (ha : after.isAllBlank) :
    ofText assoc (before ++ '(' :: inner ++ ')' :: after) = .group inner (ofText assoc inner) :=
  ofText_of_group (Level.ofText_group hb hi ha)

theorem ofText_bareNumeral (assoc : Associativity) {body : Text} (hn : Numeral body) :
    ofText assoc body = .literal body hn.value := by
  have h := @ofText_numeral assoc [] body [] rfl hn rfl
  rwa [List.nil_append, List.append_nil] at h

theorem ofText_bareGroup (assoc : Associativity) {inner : Text} (hi : inner.Balanced) :
    ofText assoc ('(' :: inner ++ [')']) = .group inner (ofText assoc inner) :=
  @ofText_parenthesised assoc [] inner [] rfl hi rfl

theorem ofText_blank (assoc : Associativity) {text : Text} (h : text.isAllBlank) :
    ofText assoc text = .malformed text :=
  ofText_of_error (Level.ofText_blank h)

theorem ofText_chain {assoc : Associativity} {before after : List (Link Text)} {a last : Text}
    {op : Operator} (h : Chain.WellFormed ⟨before ++ ⟨a, op⟩ :: after, last⟩)
    (hp : IsPivot assoc before op after) :
    ofText assoc (Chain.text ⟨before ++ ⟨a, op⟩ :: after, last⟩) =
      .binary (Chain.text ⟨before ++ ⟨a, op⟩ :: after, last⟩) op
        (ofText assoc (Chain.text ⟨before, a⟩)) (ofText assoc (Chain.text ⟨after, last⟩)) :=
  ofText_of_binary (Level.ofText_cut h hp)

theorem ofText_pair (assoc : Associativity) (op : Operator) {a b : Text} (ha : Term a)
    (hb : Term b) :
    ofText assoc (a ++ op.symbol :: b) =
      .binary (a ++ op.symbol :: b) op (ofText assoc a) (ofText assoc b) := by
  have hc : Chain.WellFormed ⟨[⟨a, op⟩], b⟩ := ⟨by simp [ha], .inl hb⟩
  have h := @ofText_chain assoc [] [] a b op hc ⟨by simp, by simp⟩
  rw [List.nil_append, Chain.text_cons] at h
  simpa only [Chain.text_single] using h

theorem ofText_operation (assoc : Associativity) (op : Operator) {a b : Text} (ha : Numeral a)
    (hb : Numeral b) :
    ofText assoc (a ++ op.symbol :: b) =
      .binary (a ++ op.symbol :: b) op (.literal a ha.value) (.literal b hb.value) := by
  rw [ofText_pair assoc op ha.term hb.term, ofText_bareNumeral assoc ha,
    ofText_bareNumeral assoc hb]

theorem value_ofText_ne_signallingNan {assoc : Associativity} {text : Text} {x : Number}
    (h : (ofText assoc text).value = .ok x) : x ≠ .signallingNan := by
  induction text using ofTextInduction assoc generalizing x with
  | malformed text _ => contradiction
  | literal text value hr =>
    obtain rfl := Except.ok.inj h
    cases hr with
    | literal hb hn ha => exact Number.ofText?_ne_signallingNan hn.ofText?_eq
  | group text inner hr ih => exact ih h
  | binary text lhs op rhs hr ihl ihr =>
    obtain ⟨y, z, -, -, rfl⟩ := exists_of_value_binary h
    cases op <;> exact Number.onFloats_ne_signallingNan _ y z

/-- Wherever a chain is cut, what is reported first is the report on its first bad operand. -/
theorem report?_ofText_chain (assoc : Associativity) {c : Chain Text} (h : c.WellFormed) :
    (ofText assoc c.text).report? = c.operands.findSome? fun a => (ofText assoc a).report? := by
  induction c using Chain.pivotInduction assoc with
  | single a => simp
  | cut before a op after last hp ihl ihr =>
    obtain ⟨hl, hr⟩ := h.cut
    rw [ofText_chain h hp, report?, ihl hl, ihr hr, Chain.operands_cut, List.findSome?_append]

/-- Two chains with the same operators have related trees if their operands have, and if the
relation goes from both sides of an operator to the whole. -/
theorem ofText_chain_related {α : Type} {R : Tree → Tree → Prop}
    (hbinary : ∀ {text text' op lhs lhs' rhs rhs'}, R lhs lhs' → R rhs rhs' →
      R (.binary text op lhs rhs) (.binary text' op lhs' rhs'))
    {assoc : Associativity} {f g : α → Text} {c : Chain α} (hf : (c.map f).WellFormed)
    (hg : (c.map g).WellFormed) (h : ∀ a ∈ c.operands, R (ofText assoc (f a)) (ofText assoc (g a))) :
    R (ofText assoc (c.map f).text) (ofText assoc (c.map g).text) := by
  induction c using Chain.pivotInduction assoc with
  | single a => exact h a (List.mem_singleton_self a)
  | cut before a op after last hp ihl ihr =>
    rw [Chain.operands_cut] at h
    rw [Chain.map_cut] at hf hg ⊢
    rw [Chain.map_cut]
    obtain ⟨hl, hr⟩ := hf.cut
    obtain ⟨hl', hr'⟩ := hg.cut
    rw [ofText_chain hf (hp.map f), ofText_chain hg (hp.map g)]
    refine hbinary (ihl hl hl' ?_) (ihr hr hr' ?_)
    · exact fun b hb => h b (List.mem_append_left _ hb)
    · exact fun b hb => h b (List.mem_append_right _ hb)

theorem value_ofText_chain {assoc : Associativity} {c : Chain (Text × Text)}
    (hfst : (c.map Prod.fst).WellFormed) (hsnd : (c.map Prod.snd).WellFormed)
    (h : ∀ a ∈ c.operands, ∀ x, (ofText assoc a.1).value = .ok x → (ofText assoc a.2).value = .ok x)
    {x : Number} (hx : (ofText assoc (c.map Prod.fst).text).value = .ok x) :
    (ofText assoc (c.map Prod.snd).text).value = .ok x := by
  have hbinary {text text' : Text} {op : Operator} {lhs lhs' rhs rhs' : Tree}
      (hl : ∀ x, lhs.value = .ok x → lhs'.value = .ok x)
      (hr : ∀ x, rhs.value = .ok x → rhs'.value = .ok x) (z : Number)
      (hz : (binary text op lhs rhs).value = .ok z) :
      (binary text' op lhs' rhs').value = .ok z := by
    obtain ⟨x, y, hx, hy, rfl⟩ := exists_of_value_binary hz
    exact value_binary_ok (hl x hx) (hr y hy)
  exact ofText_chain_related (R := fun t u => ∀ x, t.value = .ok x → u.value = .ok x) hbinary
    hfst hsnd h x hx

end Tree

end Calculator
