import Calculator.Proofs.Course

/-!
# Replacing a group

A group in a text lies within one operand of the level that it is met in (`Chain.exists_replaced`):
it is the operand itself, or it lies in the parentheses of the operand. So another operand may
stand in its place, and where the two have the same value, the whole text keeps its own
(`evaluate_replaced`).
-/

namespace Calculator

variable {t u a b p q before inner after : Text}

inductive Atomic : Text → Prop
  | numeral {body : Text} : Numeral body → Atomic body
  | group {inner : Text} : inner.Balanced → Atomic ('(' :: inner ++ [')'])

theorem Atomic.term (h : Atomic u) (hb : before.isAllBlank) (ha : after.isAllBlank) :
    Term (before ++ u ++ after) := by
  cases h with
  | numeral hn => exact .literal hb hn ha
  | group hi => simpa using Term.group hb hi ha

theorem Atomic.openAfter? (h : Atomic u) (d : Nat) : Text.openAfter? d u = some d := by
  cases h with
  | numeral hn => exact hn.openAfter? d
  | group hi => rw [hi.openAfter?_group, Text.openAfter?_nil]

theorem Atomic.value_pad (assoc : Associativity) (h : Atomic u) (hb : before.isAllBlank)
    (ha : after.isAllBlank) :
    (Tree.ofText assoc (before ++ u ++ after)).value = (Tree.ofText assoc u).value := by
  cases h with
  | numeral hn =>
    rw [Tree.ofText_numeral assoc hb hn ha, Tree.ofText_bareNumeral assoc hn]
    rfl
  | @group inner hi =>
    have htext : before ++ ('(' :: inner ++ [')']) ++ after =
        before ++ '(' :: inner ++ ')' :: after := by simp
    rw [htext, Tree.ofText_parenthesised assoc hb hi ha, Tree.ofText_bareGroup assoc hi]

-- ---------------------------------------------------------------------------
-- Where a group can lie
-- ---------------------------------------------------------------------------

/-- In one text the group of `t` stands where `u` stands in the other. -/
def Replaced (t u a b : Text) : Prop :=
  ∃ p q, a = p ++ '(' :: t ++ ')' :: q ∧ b = p ++ u ++ q

theorem Replaced.mem (h : Replaced t u a b) : '(' ∈ a := by
  obtain ⟨p, q, rfl, -⟩ := h
  simp

theorem group_in_append {left right : Text} {c : Char} (hl : left.openAfter? 0 = some 0)
    (hc : c ≠ '(') (ht : t.Balanced) (h : left ++ c :: right = p ++ '(' :: t ++ ')' :: q) :
    (∃ tail, left = p ++ '(' :: t ++ ')' :: tail ∧ q = tail ++ c :: right) ∨
      ∃ head, p = left ++ c :: head ∧ right = head ++ '(' :: t ++ ')' :: q := by
  rw [List.append_assoc] at h
  rcases List.append_eq_append_iff.mp h with ⟨x, rfl, hx⟩ | ⟨x, rfl, hx⟩
  · cases x with
    | nil => exact absurd (List.cons_eq_cons.mp hx).1 hc
    | cons d head =>
      obtain ⟨rfl, rfl⟩ := List.cons_eq_cons.mp hx
      exact .inr ⟨head, rfl, by simp⟩
  · cases x with
    | nil => exact absurd (List.cons_eq_cons.mp hx).1.symm hc
    | cons d x =>
      -- The group is opened in the first text, so it is closed there.
      obtain ⟨rfl, hrest⟩ := List.cons_eq_cons.mp hx
      obtain ⟨m, -, hm⟩ := Text.openAfter?_append_eq_some.mp hl
      rw [Text.openAfter?_open] at hm
      obtain ⟨tail, rfl, rfl⟩ := ht.closes_within hm (Nat.zero_le m) hrest.symm
      exact .inl ⟨tail, by simp, rfl⟩

theorem group_in_group (hb : before.isAllBlank) (hi : inner.Balanced) (ha : after.isAllBlank)
    (ht : t.Balanced)
    (h : before ++ '(' :: inner ++ ')' :: after = p ++ '(' :: t ++ ')' :: q) :
    (p = before ∧ t = inner ∧ q = after) ∨
      ∃ head tail, p = before ++ '(' :: head ∧ inner = head ++ '(' :: t ++ ')' :: tail ∧
        q = tail ++ ')' :: after := by
  have hwhole {x y : Text} (h : inner ++ ')' :: x = t ++ ')' :: y) : t = inner ∧ y = x := by
    obtain ⟨rfl, rfl⟩ := hi.group_injective ht h
    exact ⟨rfl, rfl⟩
  have hblank {blanks x y : Text} (h : blanks.isAllBlank) : blanks ≠ x ++ '(' :: y := by
    rintro rfl
    exact Text.open_not_mem h (by simp)
  rw [List.append_assoc, List.append_assoc] at h
  rcases List.append_eq_append_iff.mp h with ⟨x, rfl, hx⟩ | ⟨x, rfl, hx⟩
  · cases x with
    | nil =>
      obtain ⟨rfl, rfl⟩ := hwhole (List.cons_eq_cons.mp hx).2
      exact .inl ⟨by simp, rfl, rfl⟩
    | cons d head =>
      obtain rfl := (List.cons_eq_cons.mp hx).1
      have hrest : inner ++ ')' :: after = head ++ '(' :: t ++ ')' :: q := by
        simpa using (List.cons_eq_cons.mp hx).2
      rcases group_in_append (Text.balanced_iff.mp hi) (by decide) ht hrest with
        ⟨tail, hinner, hq⟩ | ⟨_, -, hafter⟩
      · exact .inr ⟨head, tail, rfl, hinner, hq⟩
      · rw [List.append_assoc] at hafter
        exact absurd hafter (hblank ha)
  · cases x with
    | nil =>
      obtain ⟨rfl, rfl⟩ := hwhole (List.cons_eq_cons.mp hx).2.symm
      exact .inl ⟨by simp, rfl, rfl⟩
    | cons d x =>
      obtain ⟨rfl, -⟩ := List.cons_eq_cons.mp hx
      exact absurd rfl (hblank hb)

-- ---------------------------------------------------------------------------
-- Replacing a group in a term and in a chain
-- ---------------------------------------------------------------------------

theorem Text.Balanced.replace (ht : t.Balanced) (hu : Atomic u)
    (h : Text.Balanced (p ++ '(' :: t ++ ')' :: q)) : Text.Balanced (p ++ u ++ q) := by
  rw [balanced_iff] at h ⊢
  rw [List.append_assoc, openAfter?_append_eq_some] at h ⊢
  obtain ⟨m, hp, hq⟩ := h
  rw [ht.openAfter?_group] at hq
  refine ⟨m, hp, ?_⟩
  rw [openAfter?_append, hu.openAfter?]
  exact hq

theorem Numeral.not_replaced (hb : before.isAllBlank) (hn : Numeral a) (ha : after.isAllBlank) :
    ¬ Replaced t u (before ++ a ++ after) b := by
  intro h
  have hmem := h.mem
  rw [List.mem_append, List.mem_append] at hmem
  rcases hmem with (hmem | hmem) | hmem
  · exact Text.open_not_mem hb hmem
  · exact hn.open_not_mem hmem
  · exact Text.open_not_mem ha hmem

theorem Term.replace (h : Term a) (ht : t.Balanced) (hu : Atomic u) (hr : Replaced t u a b) :
    Term b := by
  cases h with
  | literal hb hn ha => exact absurd hr (hn.not_replaced hb ha)
  | group hb hi ha =>
    obtain ⟨p, q, htext, rfl⟩ := hr
    rcases group_in_group hb hi ha ht htext with ⟨rfl, -, rfl⟩ | ⟨head, tail, rfl, rfl, rfl⟩
    · exact hu.term hb ha
    · have hterm := Term.group hb (ht.replace hu hi) ha
      simpa using hterm

namespace Chain

/-- A group in a chain lies in one of its operands, so replacing it replaces that operand. -/
theorem exists_replaced {c : Chain Text} (h : c.WellFormed) (ht : t.Balanced) (u : Text)
    (htext : c.text = p ++ '(' :: t ++ ')' :: q) :
    ∃ d : Chain (Text × Text), d.map Prod.fst = c ∧ (d.map Prod.snd).text = p ++ u ++ q ∧
      ∀ x ∈ d.operands, x.1 = x.2 ∨ Replaced t u x.1 x.2 := by
  obtain ⟨links, last⟩ := c
  induction links generalizing p with
  | nil =>
    refine ⟨⟨[], (last, p ++ u ++ q)⟩, rfl, rfl, fun x hx => .inr ?_⟩
    rw [List.mem_singleton.mp hx]
    exact ⟨p, q, htext, rfl⟩
  | cons link links ih =>
    obtain ⟨a, op⟩ := link
    rw [text_cons] at htext
    have ha := (h.links ⟨a, op⟩ (List.mem_cons_self ..)).openAfter? 0
    rcases group_in_append ha (symbol_ne_open op) ht htext with
      ⟨tail, rfl, rfl⟩ | ⟨head, rfl, hright⟩
    · -- The group lies in the first operand, and the others stay as they are.
      let rest : Chain (Text × Text) := Chain.map (fun x => (x, x)) ⟨links, last⟩
      have hfst : rest.map Prod.fst = ⟨links, last⟩ := map_map_of_leftInverse (fun _ => rfl) _
      have hsnd : rest.map Prod.snd = ⟨links, last⟩ := map_map_of_leftInverse (fun _ => rfl) _
      refine ⟨⟨⟨(p ++ '(' :: t ++ ')' :: tail, p ++ u ++ tail), op⟩ :: rest.links, rest.last⟩,
        ?_, ?_, ?_⟩
      · rw [map_cons, hfst]
      · rw [map_cons, hsnd, text_cons]
        simp
      · intro x hx
        rcases List.mem_cons.mp hx with rfl | hx
        · exact .inr ⟨p, tail, rfl, rfl⟩
        · have hx : x ∈ rest.operands := hx
          rw [operands_map] at hx
          obtain ⟨y, -, rfl⟩ := List.mem_map.mp hx
          exact .inl rfl
    · obtain ⟨d, hfst, hsnd, hall⟩ := ih h.tail hright
      refine ⟨⟨⟨(a, a), op⟩ :: d.links, d.last⟩, ?_, ?_, ?_⟩
      · rw [map_cons, hfst]
      · rw [map_cons, text_cons, hsnd]
        simp
      · intro x hx
        rcases List.mem_cons.mp hx with rfl | hx
        · exact .inl rfl
        · exact hall x hx

theorem WellFormed.replace {d : Chain (Text × Text)} (h : (d.map Prod.fst).WellFormed)
    (ht : t.Balanced) (hu : Atomic u)
    (hall : ∀ x ∈ d.operands, x.1 = x.2 ∨ Replaced t u x.1 x.2) : (d.map Prod.snd).WellFormed := by
  constructor
  · intro link hlink
    obtain ⟨link, hmem, rfl⟩ := List.mem_map.mp hlink
    have hterm : Term link.operand.1 := h.links _ (List.mem_map_of_mem hmem)
    rcases hall link.operand (List.mem_append_left _ (List.mem_map_of_mem hmem)) with heq | hr
    · rwa [heq] at hterm
    · exact hterm.replace ht hu hr
  · have hlast : Term d.last.1 ∨ d.last.1.isAllBlank := h.last
    rcases hall d.last (List.mem_append_right _ (List.mem_singleton_self _)) with heq | hr
    · rwa [heq] at hlast
    · refine .inl ((hlast.resolve_right fun hb => ?_).replace ht hu hr)
      exact absurd hr.mem (Text.open_not_mem hb)

end Chain

-- ---------------------------------------------------------------------------
-- Values
-- ---------------------------------------------------------------------------

section

variable {assoc : Associativity} {x : Number} (ht : t.Balanced) (hu : Atomic u)
  (htx : (Tree.ofText assoc t).value = .ok x) (hux : (Tree.ofText assoc u).value = .ok x)

include ht hu htx hux

theorem Term.value_replaced (h : Term a) (hr : Replaced t u a b)
    (hinner : ∀ before inner after, a = before ++ '(' :: inner ++ ')' :: after →
      ∀ inner' w, Replaced t u inner inner' → (Tree.ofText assoc inner).value = .ok w →
        (Tree.ofText assoc inner').value = .ok w)
    {w : Number} (hw : (Tree.ofText assoc a).value = .ok w) :
    (Tree.ofText assoc b).value = .ok w := by
  cases h with
  | literal hb hn ha => exact absurd hr (hn.not_replaced hb ha)
  | @group before inner after hb hi ha =>
    rw [Tree.ofText_parenthesised assoc hb hi ha] at hw
    obtain ⟨p, q, htext, rfl⟩ := hr
    rcases group_in_group hb hi ha ht htext with ⟨rfl, rfl, rfl⟩ | ⟨head, tail, rfl, rfl, rfl⟩
    · rw [hu.value_pad assoc hb ha, hux, ← htx]
      exact hw
    · have hvalue := hinner _ _ _ rfl (head ++ u ++ tail) w ⟨head, tail, rfl, rfl⟩ hw
      have hgroup := Tree.ofText_parenthesised assoc hb (ht.replace hu hi) ha
      have htext : before ++ '(' :: head ++ u ++ (tail ++ ')' :: after) =
          before ++ '(' :: (head ++ u ++ tail) ++ ')' :: after := by simp
      rw [htext, hgroup]
      exact hvalue

theorem Tree.value_replaced (hr : Replaced t u a b) {w : Number}
    (hw : (Tree.ofText assoc a).value = .ok w) : (Tree.ofText assoc b).value = .ok w := by
  induction a using Level.chainInduction assoc generalizing b w with
  | malformed a herror =>
    rw [Tree.ofText_of_error herror] at hw
    contradiction
  | chain c hc _ ih =>
    obtain ⟨p, q, htext, rfl⟩ := hr
    -- Both texts are cut at the same operator, since only their operands differ.
    obtain ⟨d, rfl, hsnd, hall⟩ := Chain.exists_replaced hc ht u htext
    rw [← hsnd]
    refine Tree.value_ofText_chain hc (hc.replace ht hu hall) (fun y hy v hv => ?_) hw
    rcases hall y hy with heq | hr
    · rwa [heq] at hv
    · have hmem : y.1 ∈ (d.map Prod.fst).operands := by
        rw [Chain.operands_map]
        exact List.mem_map_of_mem hy
      have hterm : Term y.1 := (hc.operand hmem).resolve_right fun hb =>
        absurd hr.mem (Text.open_not_mem hb)
      refine hterm.value_replaced ht hu htx hux hr (fun before inner after heq b w hr hw => ?_) hv
      exact ih before inner after (heq ▸ hmem) hr hw

end

/-- Whether two numbers are the same, all NaNs being one. -/
def Number.Same (x y : Number) : Prop := x = y ∨ x.isNan = true ∧ y.isNan = true

theorem Number.Same.eq {x y : Number} (h : x.Same y) (hx : x ≠ .signallingNan)
    (hy : y ≠ .signallingNan) : x = y := by
  rcases h with h | ⟨hxn, hyn⟩
  · exact h
  · cases x <;> cases y <;> simp_all [Number.isNan]

/-- A group gives way to a literal or a group of the same value, wherever it stands, and the whole
text keeps its value. -/
theorem evaluate_replaced {σ : Type} {settings : Settings} {p q t u : Text} {x y w : Number}
    (ht : t.Balanced) (hu : Atomic u)
    (hsize : (p ++ '(' :: t ++ ')' :: q).size ≤ settings.maxDepth)
    (hsize' : (p ++ u ++ q).size ≤ settings.maxDepth) (trail : Trail σ)
    (htx : (trail.run (evaluate settings none t)).1 = .ok x)
    (huy : (trail.run (evaluate settings none u)).1 = .ok y) (hsame : x.Same y)
    (hw : (trail.run (evaluate settings none (p ++ '(' :: t ++ ')' :: q))).1 = .ok w) :
    (trail.run (evaluate settings none (p ++ u ++ q))).1 = .ok w := by
  have htsize : t.size ≤ settings.maxDepth := by
    simp only [Text.size_append, Text.size_cons] at hsize
    omega
  have husize : u.size ≤ settings.maxDepth := by
    simp only [Text.size_append] at hsize'
    omega
  rw [evaluate_eq_ok_iff htsize] at htx
  rw [evaluate_eq_ok_iff husize] at huy
  rw [evaluate_eq_ok_iff hsize] at hw
  obtain rfl := hsame.eq (Tree.value_ofText_ne_signallingNan htx)
    (Tree.value_ofText_ne_signallingNan huy)
  rw [evaluate_eq_ok_iff hsize']
  exact Tree.value_replaced ht hu htx huy ⟨p, q, rfl, rfl⟩ hw

theorem numeral_minusThree : Numeral ['-', '3'] :=
  .signed (.inr rfl) (.whole rfl (List.cons_ne_nil '3' []))

theorem evaluate_replaced_minusThree :
    Text.Balanced ['-', '3'] ∧ Atomic ['-', '3'] ∧
      (Trail.run ⟨(), ⟨0, #[]⟩⟩ (evaluate ⟨6, .right⟩ none ['-', '3'])).1 =
        .ok numeral_minusThree.value ∧
      (Trail.run ⟨(), ⟨0, #[]⟩⟩ (evaluate ⟨6, .right⟩ none ['2', '*', '(', '-', '3', ')'])).1 =
        .ok (Operator.mul.apply (Numeral.digit (c := '2') rfl).value numeral_minusThree.value) ∧
      (Trail.run ⟨(), ⟨0, #[]⟩⟩ (evaluate ⟨6, .right⟩ none ['2', '*', '-', '3'])).1 =
        .ok (Operator.mul.apply (Numeral.digit (c := '2') rfl).value numeral_minusThree.value) := by
  have hbalanced : Text.Balanced ['-', '3'] := by decide
  have hatomic : Atomic ['-', '3'] := .numeral numeral_minusThree
  have hminusThree : (Tree.ofText .right ['-', '3']).value = .ok numeral_minusThree.value := by
    rw [Tree.ofText_bareNumeral .right numeral_minusThree]
    rfl
  have hc : Chain.WellFormed ⟨[⟨['2'], .mul⟩], ['(', '-', '3', ')']⟩ := by
    have htwo : Term ['2'] := @Term.literal [] ['2'] [] rfl (.digit rfl) rfl
    exact ⟨by simp [htwo], .inl (@Term.group [] ['-', '3'] [] rfl hbalanced rfl)⟩
  have hproduct : (Tree.ofText .right ['2', '*', '(', '-', '3', ')']).value =
      .ok (Operator.mul.apply (Numeral.digit (c := '2') rfl).value numeral_minusThree.value) := by
    have hcut := @Tree.ofText_chain .right [] [] ['2'] _ .mul hc ⟨by simp, by simp⟩
    refine (congrArg Tree.value hcut).trans (Tree.value_binary_ok ?_ ?_)
    · exact congrArg Tree.value (Tree.ofText_bareNumeral .right (.digit rfl))
    · exact (congrArg Tree.value (Tree.ofText_bareGroup .right hbalanced)).trans hminusThree
  have htx := (@evaluate_eq_ok_iff Unit ⟨6, .right⟩ _ (by decide) ⟨(), ⟨0, #[]⟩⟩ _).mpr hminusThree
  have hw := (@evaluate_eq_ok_iff Unit ⟨6, .right⟩ _ (by decide) ⟨(), ⟨0, #[]⟩⟩ _).mpr hproduct
  exact ⟨hbalanced, hatomic, htx, hw,
    @evaluate_replaced Unit ⟨6, .right⟩ ['2', '*'] [] ['-', '3'] ['-', '3'] _ _ _ hbalanced hatomic
      (by decide) (by decide) ⟨(), ⟨0, #[]⟩⟩ htx htx (.inl rfl) hw⟩

end Calculator
