import Calculator.Evaluation
import Calculator.Proofs.Sending
import Calculator.Proofs.Tree

/-!
# The course of an evaluation

How evaluation walks the tree of a text does not depend on the sink. It has a course of events
and a result, and to evaluate is to perform the course (`evaluateWithin_eq_perform`). A course
with levels enough gives the value of the tree and completes its steps.
-/

namespace Calculator

inductive Event where
  | noted (message : Message)
  | completed (step : Step)
  deriving DecidableEq, Repr

def Event.message? : Event → Option Message
  | noted message => some message
  | completed _ => none

def Event.step? : Event → Option Step
  | noted _ => none
  | completed step => some step

structure Course where
  events : List Event
  result : Except Failure Number
  deriving Repr

namespace Course

def andThen (c : Course) (next : Number → Course) : Course :=
  match c.result with
  | .ok x => ⟨c.events ++ (next x).events, (next x).result⟩
  | .error failure => ⟨c.events, .error failure⟩

def after (event : Event) (c : Course) : Course := ⟨event :: c.events, c.result⟩

def steps (c : Course) : List Step := c.events.filterMap Event.step?

def lines (c : Course) : List Text := c.steps.map Step.line

def messages (c : Course) : List Message := c.events.filterMap Event.message?

theorem steps_after_noted (message : Message) (c : Course) :
    (c.after (.noted message)).steps = c.steps := rfl

theorem result_andThen (c : Course) (next : Number → Course) :
    (c.andThen next).result = c.result.bind fun x => (next x).result := by
  obtain ⟨events, result⟩ := c
  cases result <;> rfl

theorem steps_andThen (c : Course) (next : Number → Course) :
    (c.andThen next).steps = c.steps ++
      match c.result with
      | .ok x => (next x).steps
      | .error _ => [] := by
  obtain ⟨events, result⟩ := c
  cases result with
  | ok x => exact List.filterMap_append
  | error failure => exact (List.append_nil _).symm

section

variable {c : Course} {next : Number → Course} {x z : Number}

theorem andThen_of_ok (h : c.result = .ok x) (next : Number → Course) :
    c.andThen next = ⟨c.events ++ (next x).events, (next x).result⟩ := by
  rw [andThen, h]

theorem steps_andThen_of_ok (h : c.result = .ok x) :
    (c.andThen next).steps = c.steps ++ (next x).steps := by
  rw [steps_andThen, h]

theorem exists_of_andThen_ok (h : (c.andThen next).result = .ok z) :
    ∃ x, c.result = .ok x ∧ (next x).result = .ok z := by
  rw [result_andThen] at h
  cases hc : c.result with
  | error failure =>
    rw [hc] at h
    contradiction
  | ok x =>
    rw [hc] at h
    exact ⟨x, rfl, h⟩

end

-- ---------------------------------------------------------------------------
-- Courses that may end early
-- ---------------------------------------------------------------------------

/-- The first course goes as the second does, but a failure of some kind may end it before. The
messages of the two are free. -/
structure UpTo (stops : Failure → Prop) (c d : Course) : Prop where
  steps : c.steps <+: d.steps
  ended : (∃ failure, stops failure ∧ c.result = .error failure) ∨
    c.result = d.result ∧ c.steps = d.steps

variable {stops : Failure → Prop} {c d : Course}

theorem UpTo.refl (c : Course) : c.UpTo stops c := ⟨List.prefix_refl _, .inr ⟨rfl, rfl⟩⟩

theorem UpTo.after (h : c.UpTo stops d) (message message' : Message) :
    (c.after (.noted message)).UpTo stops (d.after (.noted message')) := ⟨h.steps, h.ended⟩

theorem UpTo.andThen {next next' : Number → Course} (h : c.UpTo stops d)
    (hnext : ∀ x, (next x).UpTo stops (next' x)) :
    (c.andThen next).UpTo stops (d.andThen next') := by
  rcases h.ended with ⟨failure, hstops, hc⟩ | ⟨hresult, hsteps⟩
  · constructor
    · simp only [steps_andThen, hc, List.append_nil]
      exact h.steps.trans (List.prefix_append _ _)
    · exact .inl ⟨failure, hstops, by rw [result_andThen, hc]; rfl⟩
  · cases hd : d.result with
    | error failure =>
      have hc : c.result = .error failure := hresult.trans hd
      constructor
      · simp only [steps_andThen, hc, hd, List.append_nil]
        exact h.steps
      · exact .inr (by simp [result_andThen, steps_andThen, hc, hd, hsteps, Except.bind])
    | ok x =>
      have hc : c.result = .ok x := hresult.trans hd
      constructor
      · simp only [steps_andThen, hc, hd, hsteps]
        exact (List.prefix_append_right_inj _).mpr (hnext x).steps
      · simp only [result_andThen, steps_andThen, hc, hd, hsteps]
        rcases (hnext x).ended with hstops | ⟨hresult, hsteps⟩
        · exact .inl hstops
        · exact .inr ⟨hresult, congrArg _ hsteps⟩

end Course

def Tree.course (maxDepth : Nat) : Nat → Tree → Course
  | 0, _ => ⟨[.noted (.limitReached maxDepth)], .error (.tooDeep maxDepth)⟩
  | _ + 1, malformed text => ⟨[], .error (.malformed ⟨text⟩)⟩
  | _ + 1, literal text x => ⟨[.noted (.literal text x)], .ok x⟩
  | levels + 1, group inner tree =>
    (tree.course maxDepth levels).after (.noted (.unwrapping inner))
  | levels + 1, binary text op lhs rhs =>
    .after (.noted (.splitting text op)) <|
      (lhs.course maxDepth levels).andThen fun x =>
        (rhs.course maxDepth levels).andThen fun y =>
          ⟨[.completed (.ofOperands op x y)], .ok (op.apply x y)⟩

theorem Tree.balanced_of_course {assoc : Associativity} {text : Text} {maxDepth levels : Nat}
    {x : Number} (h : ((ofText assoc text).course maxDepth levels).result = .ok x) :
    text.Balanced := by
  cases hlevel : Level.ofText assoc text with
  | ok level => exact Level.balanced_of_ofText hlevel
  | error report =>
    rw [ofText_of_error hlevel] at h
    cases levels <;> contradiction

-- ---------------------------------------------------------------------------
-- Performing a course
-- ---------------------------------------------------------------------------

section

variable {σ : Type} {settings : Settings} {sink : Option (Sink σ)}

def Event.perform (sink : Option (Sink σ)) : Event → EvalM σ Unit
  | noted message => note message
  | completed step => record sink step

def performAll (sink : Option (Sink σ)) : List Event → EvalM σ Unit
  | [] => pure ()
  | event :: rest => do
    event.perform sink
    performAll sink rest

def Course.perform (sink : Option (Sink σ)) (c : Course) : EvalM σ Number := do
  performAll sink c.events
  ExceptT.mk (pure c.result)

theorem performAll_append (a b : List Event) :
    performAll sink (a ++ b) = (do performAll sink a; performAll sink b) := by
  induction a with
  | nil => simp [performAll]
  | cons event rest ih => simp [performAll, ih]

theorem perform_after (event : Event) (c : Course) :
    (c.after event).perform sink = (do event.perform sink; c.perform sink) := by
  simp [Course.perform, Course.after, performAll]

theorem perform_andThen (c : Course) (next : Number → Course) :
    (c.andThen next).perform sink = (do let x ← c.perform sink; (next x).perform sink) := by
  obtain ⟨events, result⟩ := c
  cases result with
  | ok x =>
    simp only [Course.andThen, Course.perform, performAll_append, bind_assoc]
    rfl
  | error failure =>
    simp only [Course.andThen, Course.perform, bind_assoc]
    rfl

theorem perform_step (op : Operator) (x y : Number) :
    Course.perform sink ⟨[.completed (.ofOperands op x y)], .ok (op.apply x y)⟩ =
      applyOperator sink op x y := by
  simp [Course.perform, performAll, Event.perform, applyOperator]
  rfl

theorem evaluateWithin_eq_perform (levels : Nat) (text : Text) :
    evaluateWithin settings sink levels text =
      ((Tree.ofText settings.associativity text).course settings.maxDepth levels).perform sink := by
  induction levels generalizing text with
  | zero => rfl
  | succ levels ih =>
    rw [evaluateWithin]
    cases h : Level.ofText settings.associativity text with
    | error report =>
      rw [Tree.ofText_of_error h, Level.eq_of_ofText_error h]
      rfl
    | ok level =>
      cases level with
      | literal value =>
        rw [Tree.ofText_of_literal h]
        rfl
      | group inner =>
        rw [Tree.ofText_of_group h, Tree.course, perform_after, ← ih]
        rfl
      | binary lhs op rhs =>
        rw [Tree.ofText_of_binary h, Tree.course, perform_after, perform_andThen, ← ih]
        simp only [perform_andThen, perform_step, ← ih]
        rfl

-- ---------------------------------------------------------------------------
-- What performing a course does to the trail
-- ---------------------------------------------------------------------------

theorem run_performAll_none (events : List Event) (trail : Trail σ) :
    trail.run (performAll none events) =
      (.ok (), {
        trail with log := (events.filterMap Event.message?).foldl Log.add trail.log }) := by
  induction events generalizing trail with
  | nil => rfl
  | cons event rest ih =>
    rw [performAll, Trail.run_bind]
    cases event with
    | noted message =>
      rw [Event.perform, Trail.run_note]
      exact ih _
    | completed step =>
      rw [Event.perform, record, Trail.run_pure]
      exact ih _

theorem run_performAll_of_ok {sink : Sink σ} {events : List Event} {trail : Trail σ} {state : σ}
    (h : sink.feed ((events.filterMap Event.step?).map Step.line) trail.sink = (.ok (), state)) :
    trail.run (performAll (some sink) events) =
      (.ok (), ⟨state, (events.filterMap Event.message?).foldl Log.add trail.log⟩) := by
  induction events generalizing trail with
  | nil =>
    obtain rfl : trail.sink = state := congrArg Prod.snd h
    rfl
  | cons event rest ih =>
    rw [performAll, Trail.run_bind]
    cases event with
    | noted message =>
      rw [Event.perform, Trail.run_note]
      exact ih h
    | completed step =>
      rw [Event.perform, record, Trail.run_send]
      simp only [Event.step?, List.filterMap_cons, List.map_cons, Sink.feed] at h
      split at h
      case h_1 hwrite =>
        rw [hwrite]
        exact ih h
      case h_2 => simp at h

theorem run_performAll_of_error {sink : Sink σ} {events : List Event} {trail : Trail σ} {state : σ}
    {cause : WriteError}
    (h : sink.feed ((events.filterMap Event.step?).map Step.line) trail.sink =
      (.error cause, state)) :
    ∃ messages, messages <+: events.filterMap Event.message? ∧
      trail.run (performAll (some sink) events) =
        (.error (.stepRefused cause), ⟨state, messages.foldl Log.add trail.log⟩) := by
  induction events generalizing trail with
  | nil => simp [Sink.feed] at h
  | cons event rest ih =>
    rw [performAll, Trail.run_bind]
    cases event with
    | noted message =>
      obtain ⟨messages, hle, hrun⟩ :=
        @ih { trail with log := trail.log.add message } h
      rw [Event.perform, Trail.run_note]
      exact ⟨message :: messages, List.cons_prefix_cons.mpr ⟨rfl, hle⟩, hrun⟩
    | completed step =>
      rw [Event.perform, record, Trail.run_send]
      simp only [Event.step?, List.filterMap_cons, List.map_cons, Sink.feed] at h
      split at h
      case h_1 hwrite =>
        rw [hwrite]
        exact ih h
      case h_2 found next hwrite =>
        obtain ⟨rfl, rfl⟩ : found = cause ∧ next = state := by simpa using h
        rw [hwrite]
        exact ⟨[], List.nil_prefix, rfl⟩

theorem run_perform (c : Course) (trail : Trail σ) {next : Trail σ}
    (h : trail.run (performAll sink c.events) = (.ok (), next)) :
    trail.run (c.perform sink) = (c.result, next) := by
  rw [Course.perform, Trail.run_bind, h]
  rfl

def Course.ofText (settings : Settings) (text : Text) : Course :=
  (Tree.ofText settings.associativity text).course settings.maxDepth (settings.maxDepth + 1)

theorem evaluate_eq_perform (text : Text) :
    evaluate settings sink text = (Course.ofText settings text).perform sink :=
  evaluateWithin_eq_perform _ text

theorem run_evaluate_without (text : Text) (trail : Trail σ) :
    trail.run (evaluate settings none text) =
      ((Course.ofText settings text).result, {
        trail with log := (Course.ofText settings text).messages.foldl Log.add trail.log }) := by
  rw [evaluate_eq_perform]
  exact run_perform _ _ (run_performAll_none _ _)

theorem run_evaluate_of_ok {sink : Sink σ} {text : Text} {trail : Trail σ} {state : σ}
    (h : sink.feed (Course.ofText settings text).lines trail.sink = (.ok (), state)) :
    trail.run (evaluate settings (some sink) text) =
      ((Course.ofText settings text).result,
        ⟨state, (Course.ofText settings text).messages.foldl Log.add trail.log⟩) := by
  rw [evaluate_eq_perform]
  exact run_perform _ _ (run_performAll_of_ok h)

/-- A line that is refused ends the evaluation, whatever would have come after it. -/
theorem run_evaluate_of_error {sink : Sink σ} {text : Text} {trail : Trail σ} {state : σ}
    {cause : WriteError}
    (h : sink.feed (Course.ofText settings text).lines trail.sink = (.error cause, state)) :
    ∃ messages, messages <+: (Course.ofText settings text).messages ∧
      trail.run (evaluate settings (some sink) text) =
        (.error (.stepRefused cause), ⟨state, messages.foldl Log.add trail.log⟩) := by
  obtain ⟨messages, hle, hrun⟩ := run_performAll_of_error h
  refine ⟨messages, hle, ?_⟩
  rw [evaluate_eq_perform, Course.perform, Trail.run_bind, hrun]

/-- What an action gives and what it leaves in its sink, whatever its log. -/
def Trail.outcome {ε α : Type} (trail : Trail σ) (action : Act ε σ α) : Except ε α × σ :=
  ((trail.run action).1, (trail.run action).2.sink)

def Course.outcome (sink : Option (Sink σ)) (state : σ) (c : Course) : Except Failure Number × σ :=
  match sink with
  | none => (c.result, state)
  | some sink =>
    match sink.feed c.lines state with
    | (.ok (), next) => (c.result, next)
    | (.error cause, next) => (.error (.stepRefused cause), next)

theorem outcome_evaluate (settings : Settings) (sink : Option (Sink σ)) (text : Text)
    (trail : Trail σ) :
    trail.outcome (evaluate settings sink text) =
      (Course.ofText settings text).outcome sink trail.sink := by
  unfold Trail.outcome Course.outcome
  cases sink with
  | none => rw [run_evaluate_without]
  | some sink =>
    simp only
    split
    · rename_i next hfeed
      rw [run_evaluate_of_ok hfeed]
    · rename_i cause next hfeed
      obtain ⟨messages, -, hrun⟩ := run_evaluate_of_error hfeed
      rw [hrun]

/-- If none of the failures comes up that may end a course early, its outcome is that of the
course that goes on. -/
theorem Course.UpTo.outcome_eq {stops : Failure → Prop} {c d : Course} (h : c.UpTo stops d)
    {sink : Option (Sink σ)} {state : σ}
    (hrun : ∀ failure, stops failure → (c.outcome sink state).1 ≠ .error failure) :
    c.outcome sink state = d.outcome sink state := by
  rcases h.ended with ⟨failure, hstops, hc⟩ | ⟨hresult, hsteps⟩
  · cases sink with
    | none => exact absurd hc (hrun failure hstops)
    | some sink =>
      obtain ⟨rest, hrest⟩ := h.steps
      have hlines : d.lines = c.lines ++ rest.map Step.line := by
        simp [lines, ← hrest]
      have hrun := hrun failure hstops
      unfold outcome at hrun ⊢
      simp only at hrun ⊢
      rw [hlines]
      cases hfeed : sink.feed c.lines state with
      | mk result next =>
        cases result with
        | ok _ => simp [hfeed, hc] at hrun
        | error cause => rw [Sink.feed_append_of_error hfeed]
  · simp [outcome, lines, hresult, hsteps]

theorem run_evaluate_keeping (settings : Settings) (text : Text) (trail : Trail (Array Text)) :
    trail.run (evaluate settings (some Sink.collecting) text) =
      ((Course.ofText settings text).result, {
        sink := trail.sink ++ (Course.ofText settings text).lines
        log := (Course.ofText settings text).messages.foldl Log.add trail.log }) :=
  run_evaluate_of_ok (Sink.feed_collecting _ _)

def evaluateKeeping (settings : Settings) (text : Text) : Except Failure Number × List Text :=
  let (result, trail) := Trail.run ⟨#[], ⟨0, #[]⟩⟩ (evaluate settings (some Sink.collecting) text)
  (result, trail.sink.toList)

theorem evaluateKeeping_eq (settings : Settings) (text : Text) :
    evaluateKeeping settings text =
      ((Course.ofText settings text).result, (Course.ofText settings text).lines) := by
  rw [evaluateKeeping, run_evaluate_keeping]
  simp

-- ---------------------------------------------------------------------------
-- Levels enough
-- ---------------------------------------------------------------------------

namespace Tree

/-- How many levels lie around the innermost one that is entered. Nothing after the first
malformed text is. -/
def reach : Tree → Nat
  | malformed _ | literal .. => 0
  | group _ tree => tree.reach + 1
  | binary _ _ lhs rhs =>
    match lhs.value with
    | .ok _ => max lhs.reach rhs.reach + 1
    | .error _ => lhs.reach + 1

theorem reach_le_height (tree : Tree) : tree.reach ≤ tree.height := by
  induction tree with
  | malformed text => exact Nat.le_refl 0
  | literal text x => exact Nat.le_refl 0
  | group inner tree ih => exact Nat.succ_le_succ ih
  | binary text op lhs rhs ihl ihr =>
    rw [reach, height]
    cases lhs.value <;> simp only <;> omega

theorem reach_eq_height {tree : Tree} {x : Number} (h : tree.value = .ok x) :
    tree.reach = tree.height := by
  induction tree generalizing x with
  | malformed text => contradiction
  | literal text x => rfl
  | group inner tree ih => exact congrArg (· + 1) (ih h)
  | binary text op lhs rhs ihl ihr =>
    obtain ⟨y, z, hy, hz, -⟩ := exists_of_value_binary h
    rw [reach, height, hy, ihl hy, ihr hz]

theorem result_course {tree : Tree} {levels : Nat} (maxDepth : Nat) (h : tree.reach ≤ levels) :
    (tree.course maxDepth (levels + 1)).result = tree.value.mapError .malformed := by
  induction tree generalizing levels with
  | malformed text => rfl
  | literal text x => rfl
  | group inner tree ih =>
    cases levels with
    | zero => contradiction
    | succ levels => exact ih (Nat.le_of_succ_le_succ h)
  | binary text op lhs rhs ihl ihr =>
    rw [reach] at h
    cases levels with
    | zero => cases hl : lhs.value <;> simp [hl] at h
    | succ levels =>
    rw [course, Course.after, value]
    simp only [Course.result_andThen]
    cases hl : lhs.value with
    | error report =>
      simp only [hl] at h
      rw [ihl (Nat.le_of_succ_le_succ h), hl]
      rfl
    | ok x =>
      simp only [hl] at h
      obtain ⟨hlhs, hrhs⟩ := Nat.max_le.mp (Nat.le_of_succ_le_succ h)
      rw [ihl hlhs, ihr hrhs, hl]
      cases rhs.value <;> rfl

theorem steps_course {tree : Tree} {levels : Nat} (maxDepth : Nat) (h : tree.reach ≤ levels) :
    (tree.course maxDepth (levels + 1)).steps = tree.steps := by
  induction tree generalizing levels with
  | malformed text => rfl
  | literal text x => rfl
  | group inner tree ih =>
    cases levels with
    | zero => contradiction
    | succ levels => exact ih (Nat.le_of_succ_le_succ h)
  | binary text op lhs rhs ihl ihr =>
    rw [reach] at h
    cases levels with
    | zero => cases hl : lhs.value <;> simp [hl] at h
    | succ levels =>
    rw [course, Course.steps_after_noted, steps]
    simp only [Course.steps_andThen]
    cases hl : lhs.value with
    | error report =>
      simp only [hl] at h
      have hlhs := Nat.le_of_succ_le_succ h
      rw [ihl hlhs, result_course maxDepth hlhs, hl]
      exact List.append_nil _
    | ok x =>
      simp only [hl] at h
      obtain ⟨hlhs, hrhs⟩ := Nat.max_le.mp (Nat.le_of_succ_le_succ h)
      rw [ihl hlhs, ihr hrhs, result_course maxDepth hlhs, result_course maxDepth hrhs, hl]
      cases rhs.value with
      | error report => exact congrArg _ (List.append_nil _)
      | ok y => exact (List.append_assoc ..).symm

end Tree

theorem reach_le_of_size_le {assoc : Associativity} {text : Text} {maxDepth : Nat}
    (h : text.size ≤ maxDepth) : (Tree.ofText assoc text).reach ≤ maxDepth :=
  calc (Tree.ofText assoc text).reach
    _ ≤ (Tree.ofText assoc text).height := Tree.reach_le_height _
    _ ≤ text.length := Tree.height_ofText_le_length assoc text
    _ ≤ text.size := text.length_le_size
    _ ≤ maxDepth := h

theorem run_evaluate_none {text : Text} (h : text.size ≤ settings.maxDepth) (trail : Trail σ) :
    (trail.run (evaluate settings none text)).1 =
      (Tree.ofText settings.associativity text).value.mapError .malformed := by
  rw [run_evaluate_without]
  exact Tree.result_course _ (reach_le_of_size_le h)

theorem evaluate_eq_ok_iff {text : Text} (h : text.size ≤ settings.maxDepth) (trail : Trail σ)
    {x : Number} :
    (trail.run (evaluate settings none text)).1 = .ok x ↔
      (Tree.ofText settings.associativity text).value = .ok x := by
  rw [run_evaluate_none h]
  cases (Tree.ofText settings.associativity text).value with
  | error report =>
    constructor
    · rintro ⟨⟩
    · rintro ⟨⟩
  | ok y =>
    change Except.ok y = .ok x ↔ _
    simp only [Except.ok.injEq]

theorem exists_evaluate_iff {text : Text} (h : text.size ≤ settings.maxDepth) (trail : Trail σ) :
    (∃ x, (trail.run (evaluate settings none text)).1 = .ok x) ↔
      (Tree.ofText settings.associativity text).report? = none := by
  simp only [evaluate_eq_ok_iff h, Tree.exists_value_iff]

theorem evaluate_eq_malformed_iff {text e : Text} (h : text.size ≤ settings.maxDepth)
    (trail : Trail σ) :
    (trail.run (evaluate settings none text)).1 = .error (.malformed ⟨e⟩) ↔
      (Tree.ofText settings.associativity text).report? = some e := by
  rw [run_evaluate_none h, ← @Tree.value_eq_error_iff _ ⟨e⟩]
  cases (Tree.ofText settings.associativity text).value with
  | error report =>
    change Except.error (Failure.malformed report) = .error (.malformed ⟨e⟩) ↔ _
    simp only [Except.error.injEq, Failure.malformed.injEq]
  | ok y =>
    constructor
    · rintro ⟨⟩
    · rintro ⟨⟩

theorem run_evaluate_collecting {text : Text} (h : text.size ≤ settings.maxDepth)
    (trail : Trail (Array Text)) :
    (trail.run (evaluate settings (some Sink.collecting) text)).1 =
        (Tree.ofText settings.associativity text).value.mapError .malformed ∧
      (trail.run (evaluate settings (some Sink.collecting) text)).2.sink =
        trail.sink ++ (Tree.ofText settings.associativity text).steps.map Step.line := by
  rw [run_evaluate_keeping, ← Tree.steps_course settings.maxDepth (reach_le_of_size_le h)]
  exact ⟨Tree.result_course _ (reach_le_of_size_le h), rfl⟩

end

end Calculator
