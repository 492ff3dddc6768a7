import Calculator.Operator
import Calculator.Text

/-!
# Chains of operands

A chain has operands of any kind with operators between them, and its pivot is the operator that
is applied last. Every chain of two or more operands has a pivot (`exists_pivot`), and it is cut
there into two shorter chains, so chains can be followed by `Chain.pivotInduction`.
-/

namespace Calculator

structure Link (α : Type) where
  operand : α
  operator : Operator
  deriving DecidableEq, Repr

structure Chain (α : Type) where
  links : List (Link α)
  last : α
  deriving DecidableEq, Repr

variable {α β : Type}

def Link.map (f : α → β) (link : Link α) : Link β := ⟨f link.operand, link.operator⟩

/-- The operator between two lists of links is applied after all operators before it, and
before none after it. -/
structure IsPivot (assoc : Associativity) (before : List (Link α)) (op : Operator)
    (after : List (Link α)) : Prop where
  ofBefore : ∀ link ∈ before, assoc.prefersLater op link.operator = true
  ofAfter : ∀ link ∈ after, assoc.prefersLater link.operator op = false

theorem IsPivot.map {assoc : Associativity} {before after : List (Link α)} {op : Operator}
    (h : IsPivot assoc before op after) (f : α → β) :
    IsPivot assoc (before.map (Link.map f)) op (after.map (Link.map f)) where
  ofBefore := by simpa [Link.map] using h.ofBefore
  ofAfter := by simpa [Link.map] using h.ofAfter

theorem IsPivot.of_operators {assoc : Associativity} {before after : List (Link α)}
    {before' after' : List (Link β)} {op : Operator} (h : IsPivot assoc before op after)
    (hbefore : before'.map Link.operator = before.map Link.operator)
    (hafter : after'.map Link.operator = after.map Link.operator) :
    IsPivot assoc before' op after' := by
  constructor
  · intro link hlink
    obtain ⟨same, hsame, heq⟩ := List.mem_map.mp (hbefore ▸ List.mem_map_of_mem hlink)
    exact heq ▸ h.ofBefore same hsame
  · intro link hlink
    obtain ⟨same, hsame, heq⟩ := List.mem_map.mp (hafter ▸ List.mem_map_of_mem hlink)
    exact heq ▸ h.ofAfter same hsame

theorem Associativity.prefersLater_iff {assoc : Associativity} {later earlier : Operator} :
    assoc.prefersLater later earlier = true ↔
      later.strength < earlier.strength ∨
        later.strength = earlier.strength ∧ assoc = .left := by
  cases assoc <;> simp [prefersLater]
  omega

theorem exists_pivot (assoc : Associativity) {links : List (Link α)} (h : links ≠ []) :
    ∃ before operand op after,
      links = before ++ ⟨operand, op⟩ :: after ∧ IsPivot assoc before op after := by
  induction links with
  | nil => contradiction
  | cons link rest ih =>
    by_cases hr : rest = []
    · subst hr
      exact ⟨[], link.operand, link.operator, [], rfl, by simp, by simp⟩
    obtain ⟨before, a, op, after, rfl, hp⟩ := ih hr
    by_cases hlink : assoc.prefersLater op link.operator = true
    · refine ⟨link :: before, a, op, after, rfl, ?_, hp.ofAfter⟩
      intro x hx
      rcases List.mem_cons.mp hx with rfl | hx
      · exact hlink
      · exact hp.ofBefore x hx
    · refine ⟨[], link.operand, link.operator, before ++ ⟨a, op⟩ :: after, rfl, by simp, ?_⟩
      intro x hx
      have hop : ∀ o : Operator, assoc.prefersLater op o = true ∨ assoc.prefersLater o op = false →
          assoc.prefersLater o link.operator = false := by
        intro o ho
        simp only [Bool.eq_false_iff, ne_eq, Associativity.prefersLater_iff] at hlink ho ⊢
        grind
      rcases List.mem_append.mp hx with hx | hx
      · exact hop _ (.inl (hp.ofBefore x hx))
      rcases List.mem_cons.mp hx with rfl | hx
      · simpa using hlink
      · exact hop _ (.inr (hp.ofAfter x hx))

namespace Chain

def operands (c : Chain α) : List α := c.links.map Link.operand ++ [c.last]

def map (f : α → β) (c : Chain α) : Chain β := ⟨c.links.map (Link.map f), f c.last⟩

@[simp] theorem operands_single (a : α) : operands ⟨[], a⟩ = [a] := rfl

theorem operands_cut (before after : List (Link α)) (a last : α) (op : Operator) :
    operands ⟨before ++ ⟨a, op⟩ :: after, last⟩ =
      operands ⟨before, a⟩ ++ operands ⟨after, last⟩ := by
  simp [operands]

theorem map_cons (f : α → β) (a : α) (op : Operator) (c : Chain α) :
    map f ⟨⟨a, op⟩ :: c.links, c.last⟩ = ⟨⟨f a, op⟩ :: (c.map f).links, (c.map f).last⟩ := rfl

@[simp] theorem map_id (c : Chain α) : c.map id = c := by
  have hlink : (Link.map id : Link α → Link α) = id := rfl
  simp [map, hlink]

theorem map_map_of_leftInverse {f : α → β} {g : β → α} (h : ∀ a, g (f a) = a) (c : Chain α) :
    (c.map f).map g = c := by
  obtain ⟨links, last⟩ := c
  have hlink : Link.map g ∘ Link.map f = id := funext fun link => by simp [Link.map, h]
  simp [map, hlink, h]

theorem operands_map (f : α → β) (c : Chain α) : (c.map f).operands = c.operands.map f := by
  simp [operands, map, Link.map]

theorem map_cut (f : α → β) (before after : List (Link α)) (a last : α) (op : Operator) :
    map f ⟨before ++ ⟨a, op⟩ :: after, last⟩ =
      ⟨before.map (Link.map f) ++ ⟨f a, op⟩ :: after.map (Link.map f), f last⟩ := by
  simp [map, Link.map]

/-- To show something of all chains, show it of single operands and of a chain whose two sides
at the pivot have it. -/
@[elab_as_elim]
theorem pivotInduction (assoc : Associativity) {motive : Chain α → Prop}
    (single : ∀ a, motive ⟨[], a⟩)
    (cut : ∀ before a op after last, IsPivot assoc before op after →
      motive ⟨before, a⟩ → motive ⟨after, last⟩ → motive ⟨before ++ ⟨a, op⟩ :: after, last⟩)
    (c : Chain α) : motive c := by
  obtain ⟨links, last⟩ := c
  induction hn : links.length using Nat.strongRecOn generalizing links last with
  | ind n ih =>
    by_cases h : links = []
    · subst h
      exact single last
    obtain ⟨before, a, op, after, rfl, hp⟩ := exists_pivot assoc h
    rw [List.length_append, List.length_cons] at hn
    exact cut before a op after last hp (ih _ (by omega) before a rfl)
      (ih _ (by omega) after last rfl)

end Chain

-- ---------------------------------------------------------------------------
-- Chains of texts
-- ---------------------------------------------------------------------------

def Link.text (link : Link Text) : Text := link.operand ++ [link.operator.symbol]

namespace Chain

def text (c : Chain Text) : Text := c.links.flatMap Link.text ++ c.last

@[simp] theorem text_single (a : Text) : text ⟨[], a⟩ = a := rfl

theorem text_cons (a : Text) (op : Operator) (links : List (Link Text)) (last : Text) :
    text ⟨⟨a, op⟩ :: links, last⟩ = a ++ op.symbol :: text ⟨links, last⟩ := by
  simp [text, Link.text]

theorem text_cut (before after : List (Link Text)) (a last : Text) (op : Operator) :
    text ⟨before ++ ⟨a, op⟩ :: after, last⟩ =
      text ⟨before, a⟩ ++ op.symbol :: text ⟨after, last⟩ := by
  simp [text, Link.text]

theorem exists_append_of_mem {c : Chain Text} {a : Text} (h : a ∈ c.operands) :
    ∃ before after, c.text = before ++ a ++ after := by
  obtain ⟨links, last⟩ := c
  induction links with
  | nil =>
    obtain rfl := List.mem_singleton.mp h
    exact ⟨[], [], by simp⟩
  | cons link links ih =>
    obtain ⟨b, op⟩ := link
    rw [text_cons]
    rcases List.mem_cons.mp h with rfl | h
    · exact ⟨[], op.symbol :: text ⟨links, last⟩, by simp⟩
    · obtain ⟨before, after, htext⟩ := ih h
      exact ⟨b ++ op.symbol :: before, after, by simp [htext]⟩

theorem length_le_of_mem {c : Chain Text} {a : Text} (h : a ∈ c.operands) :
    a.length ≤ c.text.length := by
  obtain ⟨before, after, htext⟩ := exists_append_of_mem h
  rw [htext, List.length_append, List.length_append]
  omega

end Chain

end Calculator
