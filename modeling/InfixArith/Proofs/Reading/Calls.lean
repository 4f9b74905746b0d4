import InfixArith.Proofs.Reading.Equations
import InfixArith.Reading.Calls

/-!
# Reading — what a call comes to

Every call reads an expression of some precedence, and one for a whole source then looks at what
follows it (`Call.outcome`).  The outcome decides the result of the call and where it stops
(`run_result`, `run_stop`).
-/

namespace InfixArith

namespace Outcome

/-- An outcome in a source of `size` bytes, as a call gives it under `limits`. -/
def result (limits : Limits) (size : Nat) : Outcome Measured → Except ParseError Expr
  | .done m _     => .ok m.expr
  | .failed f _ _ => .error (f.report limits size)

/-- Where a call with this outcome stops that began with so many parentheses unclosed. -/
def stop (unclosed : Nat) : Outcome Measured → Position
  | .done _ rest     => ⟨rest, unclosed⟩
  | .failed _ rest n => ⟨rest, unclosed + n⟩

end Outcome

namespace Call

/-- The precedence that a call reads. -/
def precedence (t : Table) : Call → Nat
  | .whole | .expression => t.maxPrecedence
  | .level p             => p

/-- What a call does after its expression: nothing may follow a whole source but blanks. -/
def finish : Call → Measured → List Char → Outcome Measured
  | .whole, m, s =>
    match Text.skipBlanks s with
    | []     => .done m []
    | c :: s => .failed (.trailing (c :: s)) (c :: s) 0
  | _, m, s => .done m s

/-- The outcome of a call. -/
def outcome (t : Table) (h d : Nat) (call : Call) (s : List Char) : Outcome Measured :=
  (Reading.read t h d (call.precedence t) s).andThen call.finish

theorem outcome_reply (t : Table) (h d : Nat) (call : Call) (s : List Char) :
    (call.reply t h d s).outcome = call.outcome t h d s := by
  cases call with
  | whole =>
      rw [reply, Reading.whole, Reply.outcome_andThen, outcome, precedence, Reading.read,
        Table.levelsUpTo_maxPrecedence]
      refine Outcome.andThen_congr fun m r _ => ?_
      rw [finish]
      cases Text.skipBlanks r with
      | nil => rfl
      | cons c r => rfl
  | expression =>
      rw [reply, outcome, precedence, Reading.read, Table.levelsUpTo_maxPrecedence]
      exact (Outcome.andThen_done _).symm
  | level p => exact (Outcome.andThen_done _).symm

/-- A call succeeds with what it has read. -/
theorem finish_eq_done {call : Call} {m m' : Measured} {s r : List Char}
    (h : call.finish m s = .done m' r) : m' = m := by
  cases call with
  | whole =>
      rw [finish] at h
      split at h
      · cases h
        rfl
      · cases h
  | expression | level p =>
      cases h
      rfl

/-- Nothing but blanks is left of a whole source. -/
theorem finish_whole_eq_done {m m' : Measured} {s r : List Char}
    (h : finish .whole m s = .done m' r) : Text.skipBlanks s = [] ∧ r = [] := by
  rw [finish] at h
  split at h
  · next hs =>
    cases h
    exact ⟨hs, rfl⟩
  · cases h

end Call

namespace Reading

variable {t : Table} {limits : Limits} {size : Nat} {call : Call} {p : Position}

/-- The outcome of a call at `p`. -/
def outcomeAt (t : Table) (limits : Limits) (call : Call) (p : Position) : Outcome Measured :=
  call.outcome t limits.maxHeight (limits.maxNesting - p.unclosed) p.rest

theorem run_result :
    (run t limits size call p).result = (outcomeAt t limits call p).result limits size := by
  rw [outcomeAt, ← Call.outcome_reply, run]
  cases (call.reply t limits.maxHeight (limits.maxNesting - p.unclosed) p.rest).outcome with
  | done m r => rfl
  | failed f r n => rfl

theorem run_stop :
    (run t limits size call p).stop = (outcomeAt t limits call p).stop p.unclosed := by
  rw [outcomeAt, ← Call.outcome_reply, run]
  cases (call.reply t limits.maxHeight (limits.maxNesting - p.unclosed) p.rest).outcome with
  | done m r => rfl
  | failed f r n => rfl

theorem stop_of_done {m : Measured} {u r : List Char}
    (hr : read t limits.maxHeight (limits.maxNesting - p.unclosed) (call.precedence t) p.rest =
      .done m u) (hfin : call.finish m u = .done m r) :
    (run t limits size call p).stop = ⟨r, p.unclosed⟩ := by
  rw [run_stop, outcomeAt, Call.outcome, hr, Outcome.done_andThen, hfin, Outcome.stop]

/-- A call that succeeds has read a tree of its precedence, after which nothing was amiss. -/
theorem run_eq_ok_iff {e : Expr} :
    (run t limits size call p).result = .ok e ↔
      ∃ m u r, read t limits.maxHeight (limits.maxNesting - p.unclosed) (call.precedence t)
        p.rest = .done m u ∧ call.finish m u = .done m r ∧ m.expr = e := by
  rw [run_result, outcomeAt, Call.outcome]
  constructor
  · intro hok
    cases ho : (read t limits.maxHeight (limits.maxNesting - p.unclosed) (call.precedence t)
        p.rest).andThen call.finish with
    | done m r =>
        obtain ⟨m', u, hm, hfin⟩ := Outcome.andThen_eq_done ho
        cases Call.finish_eq_done hfin
        rw [ho] at hok
        cases hok
        exact ⟨m, u, r, hm, hfin, rfl⟩
    | failed f r n =>
        rw [ho] at hok
        cases hok
  · rintro ⟨m, u, r, hm, hfin, rfl⟩
    rw [hm, Outcome.done_andThen, hfin, Outcome.result]

/-- A call that fails reports the fault it comes to. -/
theorem outcomeAt_of_error {e : ParseError} (he : (run t limits size call p).result = .error e) :
    ∃ f r n, outcomeAt t limits call p = .failed f r n ∧ f.report limits size = e := by
  rw [run_result] at he
  cases ho : outcomeAt t limits call p with
  | done m r =>
      rw [ho] at he
      cases he
  | failed f r n =>
      rw [ho] at he
      exact ⟨f, r, n, rfl, Except.error.inj he⟩

/-- A call on a source from its beginning. -/
def fresh (t : Table) (limits : Limits) (call : Call) (source : List Char) : Reading :=
  run t limits (Text.byteSize source) call (.start source)

end Reading

end InfixArith
