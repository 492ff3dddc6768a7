import Calculator.Proofs.Blocks

/-!
# Calls on an output that fills up

Lines and scripts are given to a session one after the other, and it goes on after a call that
failed. An output that is full for good holds the beginning of what would have been written, and
the calls whose text it could not hold are those that fail (`run_call_of_limited_room`).
-/

namespace Calculator

inductive Call where
  | line (text : Text)
  | script (text : Text)
  deriving DecidableEq, Repr

inductive Reply where
  | wish (wish : Wish)
  | failures (count : Nat)
  deriving DecidableEq, Repr

namespace Session

variable {σ : Type}

def call (session : Session) (sink : Sink σ) : Call → SessionM σ Reply
  | .line text => do return .wish (← session.interact sink text)
  | .script text => do return .failures (← session.execute sink text)

def after (session : Session) (sink : Sink σ) (trail : Trail σ) (calls : List Call) : Trail σ :=
  calls.foldl (fun trail call => (trail.run (session.call sink call)).2) trail

theorem goesOn_of_call_error {session : Session} {sink : Sink σ} {call : Call}
    {trail next : Trail σ} {error : WriteError}
    (h : trail.run (session.call sink call) = (.error error, next)) :
    trail.log.GoesOn next.log := by
  cases call with
  | line text =>
    have hquiet : Quiet (session.call sink (.line text)) :=
      (quiet_interact session sink text).bind fun _ => .pure _
    have hlog := hquiet.goesOn trail
    rwa [h] at hlog
  | script text =>
    rw [call, Trail.run_bind] at h
    split at h
    case h_1 => simp at h
    case h_2 found middle hrun =>
      obtain ⟨-, rfl⟩ := Prod.mk.inj h
      exact goesOn_of_execute_error hrun

theorem exists_writes_call (session : Session) (call : Call) :
    ∃ text reply, Writes (session.call Output.sink call) text reply := by
  cases call with
  | line text => exact ⟨_, _, (writes_interact session text).bind_nil (.pure _)⟩
  | script text => exact ⟨_, _, (writes_execute session text).bind_nil (.pure _)⟩

theorem exists_sink_after (session : Session) (calls : List Call) :
    ∃ text : Text, ∀ trail : Trail Output, trail.sink.recovers = false →
      (session.after Output.sink trail calls).sink = trail.sink.absorb text := by
  induction calls with
  | nil => exact ⟨[], fun trail _ => (Output.absorb_nil trail.sink).symm⟩
  | cons call rest ih =>
    obtain ⟨first, reply, hfirst⟩ := exists_writes_call session call
    obtain ⟨others, hothers⟩ := ih
    refine ⟨first ++ others, fun trail hr => ?_⟩
    have hsink := hfirst.sink_run hr
    rw [Output.absorb_append, ← hsink]
    exact hothers _ (by rw [hsink]; exact hr)

end Session

namespace Output

def limited (limit : Nat) (text : Text) : Output := absorb { room := some limit } text

theorem written_limited (limit : Nat) (text : Text) :
    (limited limit text).written = (absorb {} text).written.take limit := by
  simp [limited, absorb, append, fitting]

theorem hasRoom_limited_iff {limit : Nat} {text rest : Text} :
    (limited limit text).HasRoom rest ↔
      (absorb {} (text ++ rest)).written = (absorb {} text).written ∨
        (absorb {} (text ++ rest)).written.size ≤ limit := by
  have hsize (t : Text) : (absorb {} t).written.size = t.size := by
    simp [absorb, append, fitting, Text.length_utf8]
  have hnothing :
      (absorb {} (text ++ rest)).written = (absorb {} text).written ↔ rest.size = 0 := by
    constructor
    · intro h
      have := congrArg Array.size h
      rw [hsize, hsize, Text.size_append] at this
      omega
    · intro h
      have hnil : rest.utf8 = [] := List.length_eq_zero_iff.mp ((Text.length_utf8 rest).trans h)
      simp [absorb, append, fitting, hnil]
  rw [hnothing, hsize]
  simp only [limited, absorb, HasRoom, Option.map_some, Option.mem_some_iff, forall_eq',
    Text.size_append]
  omega

end Output

/-- On an output that takes a number of bytes and none after them, the calls write the beginning
of what they would write without a limit. A call that would write nothing, or whose text ends
within the limit, has the reply that it would have; any other fails, and a script among these
logs no end. -/
theorem run_call_of_limited_room (session : Session) (calls : List Call) (call : Call)
    (limit : Nat) (log : Log) :
    let free := session.after Output.sink ⟨{}, log⟩ calls
    let limited := session.after Output.sink ⟨{ room := some limit }, log⟩ calls
    let due := free.run (session.call Output.sink call)
    let got := limited.run (session.call Output.sink call)
    limited.sink.written = free.sink.written.take limit ∧
      (∃ reply, due.1 = .ok reply) ∧
      (got.1 = due.1 ↔
        due.2.sink.written = free.sink.written ∨ due.2.sink.written.size ≤ limit) ∧
      (got.1 ≠ due.1 → got.1 = .error .full ∧ limited.log.GoesOn got.2.log) := by
  intro free limited due got
  obtain ⟨text, hafter⟩ := session.exists_sink_after calls
  obtain ⟨rest, reply, hcall⟩ := session.exists_writes_call call
  have hfree : free.sink = Output.absorb {} text := hafter ⟨{}, log⟩ rfl
  have hlimited : limited.sink = Output.limited limit text :=
    hafter ⟨{ room := some limit }, log⟩ rfl
  have hunlimited : free.sink.room = none := by
    rw [hfree]
    rfl
  obtain ⟨next, hdue⟩ := hcall.run_unlimited hunlimited free.log
  replace hdue : due = _ := hdue
  rw [hfree, ← Output.absorb_append] at hdue
  have hroom := @Output.hasRoom_limited_iff limit text rest
  rw [← hlimited] at hroom
  rw [hdue, hfree, hlimited, Output.written_limited]
  by_cases h : limited.sink.HasRoom rest
  · obtain ⟨next', hgot⟩ := hcall.ofRoom h
    rw [show got = _ from hgot]
    exact ⟨rfl, ⟨reply, rfl⟩, iff_of_true rfl (hroom.mp h), fun hne => absurd rfl hne⟩
  · obtain ⟨next', hgot⟩ := hcall.ofFull (by rw [hlimited]; rfl) h
    have hlog := Session.goesOn_of_call_error hgot
    rw [show got = _ from hgot]
    exact ⟨rfl, ⟨reply, rfl⟩, iff_of_false (by simp) (fun hfits => h (hroom.mpr hfits)),
      fun _ => ⟨rfl, hlog⟩⟩

/-- Without any room a blank line can still be answered, and a sum cannot. -/
theorem run_call_of_limited_room_zero :
    let session : Session := ⟨{}, true⟩
    let limited := session.after Output.sink ⟨{ room := some 0 }, ⟨3, #[]⟩⟩ [.line [' ']]
    let got := limited.run (session.call Output.sink (.script ['1', '+', '2']))
    limited.sink.written = #[] ∧ got.1 = .error .full ∧ limited.log.GoesOn got.2.log := by
  intro session limited got
  obtain ⟨hwritten, -, hiff, hfull⟩ :=
    run_call_of_limited_room session [.line [' ']] (.script ['1', '+', '2']) 0 ⟨3, #[]⟩
  have hcall : Writes (session.call Output.sink (.script ['1', '+', '2']))
      (session.block ['1', '+', '2'] ++ []) _ :=
    (session.writes_execute ['1', '+', '2']).bind_nil (.pure _)
  obtain ⟨next, hdue⟩ := @Writes.ofRoom _ _ _ _ hcall
    (session.after Output.sink ⟨{}, ⟨3, #[]⟩⟩ [.line [' ']]) (Output.hasRoom_of_room_eq_none rfl _)
  refine ⟨hwritten, hfull fun heq => ?_⟩
  -- The sum would have a reply only if there were room for the end of its line.
  have hroom : (Output.limited 0 []).HasRoom (session.block ['1', '+', '2'] ++ []) := by
    refine Output.hasRoom_limited_iff.mpr ?_
    have hfits := hiff.mp heq
    rwa [hdue] at hfits
  have hle := hroom 0 rfl
  have hpos := session.size_block_pos ['1', '+', '2']
  rw [List.append_nil] at hle
  omega

end Calculator
