import Calculator.Proofs.Course

/-!
# The log of an evaluation

An evaluation warns of the limit alone, and nothing is logged after that. Before it has a value it
has logged one message for each operator, each literal and each pair of parentheses
(`run_evaluate_messages`).
-/

namespace Calculator

inductive Message.Kind where
  | limitReached
  | splitting
  | literal
  | unwrapping
  | scriptFinished
  | starting
  | editorFailed
  deriving DecidableEq, Repr

def Message.kind : Message → Message.Kind
  | limitReached _ => .limitReached
  | splitting .. => .splitting
  | literal .. => .literal
  | unwrapping _ => .unwrapping
  | scriptFinished _ => .scriptFinished
  | starting _ => .starting
  | editorFailed _ => .editorFailed

variable {assoc : Associativity} {text : Text} {c : Course} {next : Number → Course}
  {maxDepth levels : Nat}

-- ---------------------------------------------------------------------------
-- Warnings
-- ---------------------------------------------------------------------------

def Calm (events : List Event) : Prop :=
  ∀ message ∈ events.filterMap Event.message?, message.severity ≠ .warn

theorem Calm.append {a b : List Event} (ha : Calm a) (hb : Calm b) : Calm (a ++ b) := by
  intro message hm
  rw [List.filterMap_append, List.mem_append] at hm
  exact hm.elim (ha message) (hb message)

theorem Calm.nil : Calm [] := by simp [Calm]

theorem Calm.noted {message : Message} (h : message.severity ≠ .warn) : Calm [.noted message] := by
  simpa [Calm, Event.message?] using h

namespace Course

/-- There is a warning exactly if the limit is met, and it comes last. -/
inductive WarnsAtLimit : Course → Prop
  | calm {events : List Event} {result : Except Failure Number} : Calm events →
      (∀ limit, result ≠ .error (.tooDeep limit)) → WarnsAtLimit ⟨events, result⟩
  | atLimit {events : List Event} {limit : Nat} : Calm events →
      WarnsAtLimit ⟨events ++ [.noted (.limitReached limit)], .error (.tooDeep limit)⟩

theorem WarnsAtLimit.before {events : List Event} (h : c.WarnsAtLimit) (hcalm : Calm events) :
    WarnsAtLimit ⟨events ++ c.events, c.result⟩ := by
  cases h with
  | calm hc hresult => exact .calm (hcalm.append hc) hresult
  | atLimit hc =>
    simp only [← List.append_assoc]
    exact .atLimit (hcalm.append hc)

theorem WarnsAtLimit.after {message : Message} (h : c.WarnsAtLimit)
    (hm : message.severity ≠ .warn) : (c.after (.noted message)).WarnsAtLimit :=
  h.before (.noted hm)

theorem WarnsAtLimit.andThen (h : c.WarnsAtLimit) (hnext : ∀ x, (next x).WarnsAtLimit) :
    (c.andThen next).WarnsAtLimit := by
  cases h with
  | atLimit hc => exact .atLimit hc
  | @calm events result hc hresult =>
    cases result with
    | error failure => exact .calm hc hresult
    | ok x => exact (hnext x).before hc

theorem WarnsAtLimit.warns_iff (h : c.WarnsAtLimit) :
    (∃ message ∈ c.messages, message.severity = .warn) ↔
      ∃ limit, c.result = .error (.tooDeep limit) := by
  cases h with
  | calm hc hresult =>
    constructor
    · rintro ⟨message, hm, hwarn⟩
      exact absurd hwarn (hc message hm)
    · rintro ⟨limit, hlimit⟩
      exact absurd hlimit (hresult limit)
  | @atLimit events limit hc =>
    have hm : Message.limitReached limit ∈
        (events ++ [Event.noted (.limitReached limit)]).filterMap Event.message? := by
      simp [Event.message?]
    exact ⟨fun _ => ⟨limit, rfl⟩, fun _ => ⟨_, hm, rfl⟩⟩

theorem WarnsAtLimit.exists_earlier {limit : Nat} (h : c.WarnsAtLimit)
    (hresult : c.result = .error (.tooDeep limit)) :
    ∃ earlier, c.messages = earlier ++ [.limitReached limit] ∧
      ∀ message ∈ earlier, message.severity ≠ .warn := by
  cases h with
  | calm hc hother => exact absurd hresult (hother limit)
  | atLimit hc =>
    cases hresult
    exact ⟨_, List.filterMap_append, hc⟩

end Course

theorem Tree.warnsAtLimit_course (tree : Tree) (maxDepth levels : Nat) :
    (tree.course maxDepth levels).WarnsAtLimit := by
  induction levels generalizing tree with
  | zero => exact .atLimit .nil
  | succ levels ih =>
    cases tree with
    | malformed text => exact .calm .nil (by simp)
    | literal text x => exact .calm (.noted (by simp [Message.severity])) (by simp)
    | group inner tree => exact (ih tree).after (by simp [Message.severity])
    | binary text op lhs rhs =>
      refine .after (.andThen (ih lhs) fun x => .andThen (ih rhs) fun y => ?_)
        (by simp [Message.severity])
      exact .calm .nil (by simp)

-- ---------------------------------------------------------------------------
-- Counts
-- ---------------------------------------------------------------------------

namespace Course

def count (kind : Message.Kind) (c : Course) : Nat := (c.messages.map Message.kind).count kind

theorem count_after (kind : Message.Kind) (message : Message) (c : Course) :
    (c.after (.noted message)).count kind =
      c.count kind + if message.kind = kind then 1 else 0 := by
  simp [count, after, messages, Event.message?, List.count_cons]

theorem count_andThen {x : Number} (h : c.result = .ok x) (kind : Message.Kind) :
    (c.andThen next).count kind = c.count kind + (next x).count kind := by
  simp [andThen_of_ok h, count, messages]

/-- The messages of a course with a value: one for each step, one more for literals, and one for
each group. -/
structure Tally (groups : Nat) (c : Course) : Prop where
  splitting : c.count .splitting = c.steps.length
  literal : c.count .literal = c.steps.length + 1
  unwrapping : c.count .unwrapping = groups

variable {lhs rhs : Course} {m n : Nat}

theorem Tally.unwrapped (h : c.Tally n) (inner : Text) :
    (c.after (.noted (.unwrapping inner))).Tally (n + 1) where
  splitting := by
    rw [count_after, steps_after_noted, h.splitting]
    rfl
  literal := by
    rw [count_after, steps_after_noted, h.literal]
    rfl
  unwrapping := by
    rw [count_after, h.unwrapping]
    rfl

theorem Tally.split {x y : Number} (hl : lhs.Tally m) (hr : rhs.Tally n)
    (hx : lhs.result = .ok x) (hy : rhs.result = .ok y) (text : Text) (op : Operator) :
    Tally (m + n) (.after (.noted (.splitting text op)) (lhs.andThen fun x =>
      rhs.andThen fun y => ⟨[.completed (.ofOperands op x y)], .ok (op.apply x y)⟩)) := by
  constructor
  · rw [count_after, count_andThen hx, count_andThen hy, steps_after_noted, steps_andThen_of_ok hx,
      steps_andThen_of_ok hy, hl.splitting, hr.splitting, List.length_append, List.length_append]
    exact Nat.add_assoc _ _ _
  · rw [count_after, count_andThen hx, count_andThen hy, steps_after_noted, steps_andThen_of_ok hx,
      steps_andThen_of_ok hy, hl.literal, hr.literal, List.length_append, List.length_append]
    exact Nat.add_right_comm _ 1 (rhs.steps.length + 1)
  · rw [count_after, count_andThen hx, count_andThen hy, hl.unwrapping, hr.unwrapping]
    rfl

end Course

namespace Text

theorem count_open_of_isAllBlank (h : text.isAllBlank) : text.count '(' = 0 :=
  List.count_eq_zero.mpr (open_not_mem h)

theorem count_open_group {before inner after : Text} (hb : before.isAllBlank)
    (ha : after.isAllBlank) :
    (before ++ '(' :: inner ++ ')' :: after).count '(' = inner.count '(' + 1 := by
  simp [count_open_of_isAllBlank hb, count_open_of_isAllBlank ha]

end Text

theorem Chain.count_open_cut (before after : List (Link Text)) (a last : Text) (op : Operator) :
    List.count '(' (Chain.text ⟨before ++ ⟨a, op⟩ :: after, last⟩) =
      List.count '(' (Chain.text ⟨before, a⟩) + List.count '(' (Chain.text ⟨after, last⟩) := by
  rw [Chain.text_cut, List.count_append, List.count_cons_of_ne (symbol_ne_open op)]

/-- Each opening parenthesis of a text with a value belongs to one group, which is unwrapped
once. -/
theorem Tree.tally_course {x : Number}
    (h : ((ofText assoc text).course maxDepth levels).result = .ok x) :
    ((ofText assoc text).course maxDepth levels).Tally (text.count '(') := by
  -- Where no level is left there is no value, so in each case the text itself has been looked at.
  induction text using ofTextInduction assoc generalizing levels x with
  | malformed text _ => cases levels <;> contradiction
  | literal text value hr =>
    cases levels with
    | zero => contradiction
    | succ levels =>
      cases hr with
      | literal hb hn ha =>
        refine ⟨rfl, rfl, ?_⟩
        simp [Course.count, Course.messages, course, Event.message?, Message.kind,
          Text.count_open_of_isAllBlank hb, Text.count_open_of_isAllBlank ha,
          List.count_eq_zero.mpr hn.open_not_mem]
  | group text inner hr ih =>
    cases levels with
    | zero => contradiction
    | succ levels =>
      cases hr with
      | group hb hi ha =>
        rw [Text.count_open_group hb ha]
        exact (ih h).unwrapped _
  | binary text lhs op rhs hr ihl ihr =>
    cases levels with
    | zero => contradiction
    | succ levels =>
      cases hr with
      | binary hc hp =>
        obtain ⟨y, hy, hrest⟩ := Course.exists_of_andThen_ok h
        obtain ⟨z, hz, -⟩ := Course.exists_of_andThen_ok hrest
        rw [Chain.count_open_cut]
        exact (ihl hy).split (ihr hz) hy hz _ op

-- ---------------------------------------------------------------------------
-- What a run leaves in its log
-- ---------------------------------------------------------------------------

def Sink.TakesAll {σ : Type} (sink : Sink σ) (state : σ) : Prop :=
  ∀ lines, (sink.feed lines state).1 = .ok ()

theorem Sink.takesAll_collecting (kept : Array Text) : collecting.TakesAll kept := by
  intro lines
  rw [feed_collecting]

theorem Log.foldl_add (log : Log) (messages : List Message) :
    messages.foldl add log =
      ⟨log.detail, log.messages ++ messages.filter (·.severity.detail ≤ log.detail)⟩ := by
  induction messages generalizing log with
  | nil => simp
  | cons message rest ih =>
    rw [List.foldl_cons, ih, detail_add, List.filter_cons]
    unfold add
    by_cases h : message.severity.detail ≤ log.detail
    · simp [h]
    · simp [h]

/-- Whatever takes the lines, and whatever the detail of the log, the messages of a text are the
same. A warning means that the limit is met: it comes last, and it is the only one. The messages
of a text with a value tell how many operators, literals and pairs of parentheses it has. -/
theorem run_evaluate_messages (settings : Settings) (text : Text) :
    ∃ (result : Except Failure Number) (lines : List Text) (messages : List Message),
      (∀ (σ : Type) (sink : Sink σ) (trail : Trail σ), sink.TakesAll trail.sink →
        trail.run (evaluate settings (some sink) text) =
          (result, ⟨(sink.feed lines trail.sink).2, ⟨trail.log.detail, trail.log.messages ++
            messages.filter (·.severity.detail ≤ trail.log.detail)⟩⟩)) ∧
      ((∃ message ∈ messages, message.severity = .warn) ↔
        ∃ limit, result = .error (.tooDeep limit)) ∧
      (∀ limit, result = .error (.tooDeep limit) →
        ∃ earlier, messages = earlier ++ [.limitReached limit] ∧
          ∀ message ∈ earlier, message.severity ≠ .warn) ∧
      ∀ x, result = .ok x →
        (messages.map Message.kind).count .splitting = lines.length ∧
          (messages.map Message.kind).count .literal = lines.length + 1 ∧
          (messages.map Message.kind).count .unwrapping = text.count '(' ∧
          (messages.map Message.kind).count .unwrapping = text.count ')' := by
  have hwarns : (Course.ofText settings text).WarnsAtLimit := Tree.warnsAtLimit_course ..
  refine ⟨(Course.ofText settings text).result, (Course.ofText settings text).lines,
    (Course.ofText settings text).messages, ?run, ?warned, ?last, ?counts⟩
  case run =>
    intro σ sink trail hsink
    rw [← Log.foldl_add]
    exact run_evaluate_of_ok (Prod.ext (hsink _) rfl)
  case warned => exact hwarns.warns_iff
  case last => exact fun limit hlimit => hwarns.exists_earlier hlimit
  case counts =>
    intro x hx
    have htally := Tree.tally_course hx
    rw [Course.lines, List.length_map]
    exact ⟨htally.splitting, htally.literal, htally.unwrapping,
      htally.unwrapping.trans (Tree.balanced_of_course hx).allClosed⟩

theorem run_evaluate_messages_group :
    Sink.collecting.TakesAll #[] ∧
      (∃ x lines messages,
        Trail.run ⟨#[], ⟨3, #[]⟩⟩
            (evaluate ⟨2, .left⟩ (some Sink.collecting) ['(', '1', '-', '2', ')']) =
          (.ok x, ⟨lines, ⟨3, messages⟩⟩) ∧
        (messages.toList.map Message.kind).count .splitting = lines.size ∧
        (messages.toList.map Message.kind).count .literal = lines.size + 1 ∧
        (messages.toList.map Message.kind).count .unwrapping = 1) ∧
      ∃ lines earlier,
        Trail.run ⟨#[], ⟨3, #[]⟩⟩
            (evaluate ⟨1, .left⟩ (some Sink.collecting) ['(', '1', '-', '2', ')']) =
          (.error (.tooDeep 1), ⟨lines, ⟨3, Array.push earlier (.limitReached 1)⟩⟩) := by
  have htakes := Sink.takesAll_collecting #[]
  have hkept (messages : List Message) :
      messages.filter (fun message => message.severity.detail ≤ 3) = messages := by
    refine List.filter_eq_self.mpr fun message _ => ?_
    cases message.severity <;> rfl
  have hinner : Tree.ofText .left ['1', '-', '2'] = .binary ['1', '-', '2'] .sub _ _ :=
    Tree.ofText_operation .left .sub (.digit rfl) (.digit rfl)
  have htree : Tree.ofText .left ['(', '1', '-', '2', ')'] = .group ['1', '-', '2'] _ :=
    @Tree.ofText_parenthesised .left [] ['1', '-', '2'] [] rfl (by decide) rfl
  rw [hinner] at htree
  constructor
  · exact htakes
  constructor
  · obtain ⟨result, lines, messages, hrun, -, -, hcounts⟩ :=
      run_evaluate_messages ⟨2, .left⟩ ['(', '1', '-', '2', ')']
    have hkeeping := hrun _ Sink.collecting ⟨#[], ⟨3, #[]⟩⟩ htakes
    have hresult : result = _ := congrArg Prod.fst (hkeeping.symm.trans (run_evaluate_keeping ..))
    rw [Course.ofText, htree] at hresult
    obtain ⟨hsplitting, hliteral, hunwrapping, -⟩ := hcounts _ hresult
    rw [hresult, Sink.feed_collecting, hkept] at hkeeping
    refine ⟨_, _, _, hkeeping, ?_, ?_, ?_⟩
    · simpa using hsplitting
    · simpa using hliteral
    · simpa using hunwrapping
  · obtain ⟨result, lines, messages, hrun, -, hlast, -⟩ :=
      run_evaluate_messages ⟨1, .left⟩ ['(', '1', '-', '2', ')']
    have hkeeping := hrun _ Sink.collecting ⟨#[], ⟨3, #[]⟩⟩ htakes
    have hresult : result = _ := congrArg Prod.fst (hkeeping.symm.trans (run_evaluate_keeping ..))
    rw [Course.ofText, htree] at hresult
    change result = .error (.tooDeep 1) at hresult
    obtain ⟨earlier, rfl, -⟩ := hlast 1 hresult
    rw [hresult, Sink.feed_collecting, hkept] at hkeeping
    exact ⟨_, earlier.toArray, by simpa using hkeeping⟩

end Calculator
