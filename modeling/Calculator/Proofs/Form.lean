import Calculator.Proofs.Balance
import Calculator.Proofs.Chain
import Calculator.Proofs.Numeral
import Calculator.Text.Blank

/-!
# The form of a level

A level is a chain of terms, a term being a numeral or a group between blanks. After the last
operator blanks alone may stand. The parentheses of such a chain are balanced.
-/

namespace Calculator

/-- An operand between blanks. A group may hold anything balanced. -/
inductive Term : Text → Prop
  | literal {before body after : Text} : before.isAllBlank → Numeral body → after.isAllBlank →
      Term (before ++ body ++ after)
  | group {before inner after : Text} : before.isAllBlank → inner.Balanced → after.isAllBlank →
      Term (before ++ '(' :: inner ++ ')' :: after)

/-- The form of a level. A chain of blanks alone has it too, but is no level. -/
structure Chain.WellFormed (c : Chain Text) : Prop where
  links : ∀ link ∈ c.links, Term link.operand
  last : Term c.last ∨ c.last.isAllBlank

namespace Text

@[simp] theorem isAllBlank_nil : isAllBlank [] = true := rfl

@[simp] theorem isAllBlank_cons {c : Char} {rest : Text} :
    isAllBlank (c :: rest) = true ↔ isBlank c = true ∧ rest.isAllBlank = true := by
  simp [isAllBlank]

@[simp] theorem isAllBlank_append {a b : Text} :
    isAllBlank (a ++ b) = true ↔ a.isAllBlank = true ∧ b.isAllBlank = true := by
  simp [isAllBlank]

theorem isBlank_of_mem {text : Text} (h : text.isAllBlank) {c : Char} (hc : c ∈ text) :
    isBlank c = true :=
  List.all_eq_true.mp h c hc

theorem open_not_mem {text : Text} (h : text.isAllBlank) : '(' ∉ text :=
  fun hmem => absurd (isBlank_of_mem h hmem) (by decide)

theorem isAllBlank.openAfter? {text : Text} (h : text.isAllBlank) (d : Nat) :
    Text.openAfter? d text = some d := by
  refine openAfter?_of_plain (fun c hc => ?_) d
  have hb := isBlank_of_mem h hc
  constructor
  all_goals
    rintro rfl
    exact absurd hb (by decide)

theorem dropWhile_isBlank {blanks rest : Text} (hb : blanks.isAllBlank)
    (hr : ∀ c ∈ rest.head?, isBlank c = false) : (blanks ++ rest).dropWhile isBlank = rest := by
  rw [List.dropWhile_append_of_pos fun c hc => isBlank_of_mem hb hc]
  cases rest with
  | nil => rfl
  | cons c rest => simp [hr c rfl]

theorem unwrap?_group {before inner after : Text} (hb : before.isAllBlank)
    (ha : after.isAllBlank) : unwrap? (before ++ '(' :: inner ++ ')' :: after) = some inner := by
  have hrev : isAllBlank after.reverse := by simpa [isAllBlank] using ha
  have hopen : ∀ c ∈ ('(' :: (inner ++ ')' :: after)).head?, isBlank c = false := by
    simp [isBlank, blankRanges]
  have hclose : ∀ c ∈ (')' :: inner.reverse).head?, isBlank c = false := by
    simp [isBlank, blankRanges]
  have htail : (inner ++ ')' :: after).reverse = after.reverse ++ ')' :: inner.reverse := by simp
  rw [List.append_assoc, List.cons_append, unwrap?, dropWhile_isBlank hb hopen]
  simp only [htail, dropWhile_isBlank hrev hclose, List.reverse_reverse]

theorem length_inner_lt (before inner after : Text) :
    inner.length < (before ++ '(' :: inner ++ ')' :: after).length := by
  simp only [List.length_append, List.length_cons]
  omega

theorem length_lt_of_unwrap? {text inner : Text} (h : unwrap? text = some inner) :
    inner.length < text.length := by
  unfold unwrap? at h
  split at h
  · rename_i rest hopen
    split at h
    · rename_i found hclose
      obtain rfl := Option.some.inj h
      have hrest := (List.dropWhile_sublist (l := text) isBlank).length_le
      have hfound := (List.dropWhile_sublist (l := rest.reverse) isBlank).length_le
      rw [hopen, List.length_cons] at hrest
      rw [hclose, List.length_cons, List.length_reverse] at hfound
      rw [List.length_reverse]
      omega
    · contradiction
  · contradiction

theorem unwrap?_eq_none {before rest : Text} (hb : before.isAllBlank)
    (hr : ∀ c ∈ rest.head?, isBlank c = false ∧ c ≠ '(') : unwrap? (before ++ rest) = none := by
  rw [unwrap?, dropWhile_isBlank hb fun c hc => (hr c hc).1]
  cases rest with
  | nil => rfl
  | cons c rest =>
    have hc := (hr c rfl).2
    split
    · rename_i heq
      obtain ⟨rfl, -⟩ := List.cons_eq_cons.mp heq
      contradiction
    · rfl

end Text

theorem Numeral.openAfter? {body : Text} (h : Numeral body) (d : Nat) :
    Text.openAfter? d body = some d := by
  refine Text.openAfter?_of_plain (fun c hc => ?_) d
  constructor
  all_goals
    rintro rfl
    exact absurd (h.mem hc) (by decide)

theorem Numeral.open_not_mem {body : Text} (h : Numeral body) : '(' ∉ body :=
  fun hmem => absurd (h.mem hmem) (by decide)

theorem Numeral.not_blank {body : Text} (h : Numeral body) {c : Char} (hc : c ∈ body) :
    isBlank c = false := by
  rw [Bool.eq_false_iff]
  intro hb
  rcases h.mem hc with rfl | rfl | rfl | hd
  · exact absurd hb (by decide)
  · exact absurd hb (by decide)
  · exact absurd hb (by decide)
  · rw [isDigit_eq_false_of_isBlank hb] at hd
    contradiction

theorem Numeral.unwrap?_eq_none {before body after : Text} (hb : before.isAllBlank)
    (hn : Numeral body) : Text.unwrap? (before ++ body ++ after) = none := by
  obtain ⟨c, tail, rfl⟩ := List.exists_cons_of_ne_nil hn.ne_nil
  rw [List.append_assoc]
  refine Text.unwrap?_eq_none hb fun x hx => ?_
  obtain rfl : c = x := Option.some.inj hx
  have hmem : c ∈ c :: tail := List.mem_cons_self ..
  refine ⟨hn.not_blank hmem, ?_⟩
  rintro rfl
  exact hn.open_not_mem hmem

theorem Numeral.term {body : Text} (h : Numeral body) : Term body := by
  have hterm := @Term.literal [] body [] rfl h rfl
  rwa [List.nil_append, List.append_nil] at hterm

theorem Term.openAfter? {text : Text} (h : Term text) (d : Nat) :
    Text.openAfter? d text = some d := by
  cases h with
  | literal hb hn ha =>
    rw [List.append_assoc, Text.openAfter?_append, Text.isAllBlank.openAfter? hb, Option.bind_some,
      Text.openAfter?_append, hn.openAfter?, Option.bind_some, Text.isAllBlank.openAfter? ha]
  | group hb hi ha =>
    rw [List.append_assoc, Text.openAfter?_append, Text.isAllBlank.openAfter? hb, Option.bind_some,
      hi.openAfter?_group, Text.isAllBlank.openAfter? ha]

theorem Term.not_allBlank {text : Text} (h : Term text) : text.isAllBlank = false := by
  rw [Bool.eq_false_iff]
  intro hblank
  cases h with
  | @literal before body after _ hn _ =>
    obtain ⟨c, hc⟩ := List.exists_mem_of_ne_nil body hn.ne_nil
    have hb := Text.isBlank_of_mem hblank (c := c) (by simp [hc])
    rw [hn.not_blank hc] at hb
    contradiction
  | group _ _ _ =>
    exact Text.open_not_mem hblank (by simp)

theorem Term.pad {before text after : Text} (hb : before.isAllBlank) (h : Term text)
    (ha : after.isAllBlank) : Term (before ++ text ++ after) := by
  cases h with
  | @literal b body a hb' hn ha' =>
    have h := Term.literal (Text.isAllBlank_append.mpr ⟨hb, hb'⟩) hn
      (Text.isAllBlank_append.mpr ⟨ha', ha⟩)
    simpa using h
  | @group b inner a hb' hi ha' =>
    have h := Term.group (Text.isAllBlank_append.mpr ⟨hb, hb'⟩) hi
      (Text.isAllBlank_append.mpr ⟨ha', ha⟩)
    simpa using h

namespace Chain

theorem wellFormed_single {text : Text} (h : Term text) : WellFormed ⟨[], text⟩ :=
  ⟨by simp, .inl h⟩

theorem WellFormed.cut {before after : List (Link Text)} {a last : Text} {op : Operator}
    (h : WellFormed ⟨before ++ ⟨a, op⟩ :: after, last⟩) :
    WellFormed ⟨before, a⟩ ∧ WellFormed ⟨after, last⟩ := by
  refine ⟨⟨fun link hl => h.links link ?_, .inl (h.links ⟨a, op⟩ ?_)⟩,
    ⟨fun link hl => h.links link ?_, h.last⟩⟩
  · exact List.mem_append_left _ hl
  · simp
  · exact List.mem_append_right _ (List.mem_cons_of_mem _ hl)

theorem WellFormed.join {before after : List (Link Text)} {a last : Text} (op : Operator)
    (hl : WellFormed ⟨before, a⟩) (ha : Term a) (hr : WellFormed ⟨after, last⟩) :
    WellFormed ⟨before ++ ⟨a, op⟩ :: after, last⟩ := by
  refine ⟨fun link h => ?_, hr.last⟩
  rcases List.mem_append.mp h with h | h
  · exact hl.links link h
  rcases List.mem_cons.mp h with rfl | h
  · exact ha
  · exact hr.links link h

theorem WellFormed.tail {link : Link Text} {links : List (Link Text)} {last : Text}
    (h : WellFormed ⟨link :: links, last⟩) : WellFormed ⟨links, last⟩ :=
  ⟨fun x hx => h.links x (List.mem_cons_of_mem link hx), h.last⟩

theorem WellFormed.operand {c : Chain Text} (h : WellFormed c) {text : Text}
    (ht : text ∈ c.operands) : Term text ∨ text.isAllBlank := by
  rcases List.mem_append.mp ht with ht | ht
  · obtain ⟨link, hl, rfl⟩ := List.mem_map.mp ht
    exact .inl (h.links link hl)
  · rw [List.mem_singleton.mp ht]
    exact h.last

/-- Blanks alone stand for an operand only after the last operator. -/
theorem WellFormed.exists_trailing {c : Chain Text} (h : WellFormed c) {blanks : Text}
    (hmem : blanks ∈ c.operands) (hb : blanks.isAllBlank) (hlevel : c.text.isAllBlank = false) :
    ∃ links a op, c = ⟨links ++ [⟨a, op⟩], blanks⟩ := by
  obtain ⟨links, last⟩ := c
  rcases List.mem_append.mp hmem with hmem | hmem
  · obtain ⟨link, hlink, rfl⟩ := List.mem_map.mp hmem
    rw [(h.links link hlink).not_allBlank] at hb
    contradiction
  obtain rfl := List.mem_singleton.mp hmem
  rcases List.eq_nil_or_concat links with rfl | ⟨links, ⟨a, op⟩, rfl⟩
  · rw [text_single, hb] at hlevel
    contradiction
  · exact ⟨links, a, op, by rw [List.concat_eq_append]⟩

theorem WellFormed.openAfter? {c : Chain Text} (h : WellFormed c) (d : Nat) :
    Text.openAfter? d c.text = some d := by
  obtain ⟨links, last⟩ := c
  induction links with
  | nil => exact h.last.elim (fun ht => ht.openAfter? d) fun hb => Text.isAllBlank.openAfter? hb d
  | cons link links ih =>
    have hop : Text.openAfter? d (link.operator.symbol :: text ⟨links, last⟩) =
        Text.openAfter? d (text ⟨links, last⟩) := by
      apply Text.openAfter?_other
      all_goals cases link.operator <;> decide
    rw [text_cons link.operand, Text.openAfter?_append,
      (h.links link (List.mem_cons_self ..)).openAfter?, Option.bind_some, hop]
    exact ih h.tail

theorem WellFormed.balanced {c : Chain Text} (h : WellFormed c) : c.text.Balanced :=
  Text.balanced_iff.mpr (h.openAfter? 0)

end Chain

end Calculator
