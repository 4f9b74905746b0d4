import InfixArith.Text.Blank

/-!
# Reading — replies

What reading some text comes to.  A reader is a function of the text still ahead of it and says
what text is ahead afterwards; the places that faults and notes speak of are given the same way, by
the text from there on.  So a reply does not depend on what came before the text.
-/

namespace InfixArith

/-- What may stand where a text ended. -/
inductive Expectation where
  | operand
  | closing
  deriving DecidableEq

/-- Why some text is no expression. -/
inductive Fault where
  | endOfText (expected : Expectation)
  /-- A character stands where a parenthesis had to be closed. -/
  | unclosed (found : Char) (place : List Char)
  /-- Neither a numeral nor a parenthesis stands where an operand had to. -/
  | notOperand (place : List Char)
  /-- An expression is followed by something else. -/
  | trailing (place : List Char)
  /-- Operators of a level that does not group are chained. -/
  | chained (token : String) (place : List Char)
  /-- The parenthesis at `place` is nested too deep. -/
  | nestingTooDeep (place : List Char)
  /-- The operation of the operator at `place` is too high. -/
  | treeTooDeep (place : List Char)
  deriving DecidableEq

/-- What a reader remarks on its way. -/
inductive Note where
  | level (precedence : Nat) (place : List Char)
  | matched (token : String) (precedence : Nat)
  deriving DecidableEq

/-- How reading ended, and the text it left. -/
inductive Outcome (α : Type) where
  | done (value : α) (rest : List Char)
  /-- The fault lies inside `unclosed` parentheses. -/
  | failed (fault : Fault) (rest : List Char) (unclosed : Nat)

namespace Outcome

variable {α β : Type}

/-- Goes on after success with the value and the text left. -/
def andThen (o : Outcome α) (next : α → List Char → Outcome β) : Outcome β :=
  match o with
  | .done value rest            => next value rest
  | .failed fault rest unclosed => .failed fault rest unclosed

/-- An outcome inside parentheses: a failure leaves one more of them open. -/
def enclosed : Outcome α → Outcome α
  | .done value rest            => .done value rest
  | .failed fault rest unclosed => .failed fault rest (unclosed + 1)

end Outcome

/-- Notes in their order, joined without being copied. -/
inductive Notes where
  | none
  | one (note : Note)
  | both (first second : Notes)

namespace Notes

/-- The notes as a list, before the list `tail`. -/
def before : Notes → List Note → List Note
  | none,     tail => tail
  | one n,    tail => n :: tail
  | both a b, tail => a.before (b.before tail)

def toList (ns : Notes) : List Note := ns.before []

end Notes

/-- How reading ended, after these notes. -/
structure Reply (α : Type) where
  notes : Notes
  outcome : Outcome α

namespace Reply

variable {α β : Type}

def done (value : α) (rest : List Char) : Reply α := ⟨.none, .done value rest⟩

def failed (fault : Fault) (rest : List Char) : Reply α := ⟨.none, .failed fault rest 0⟩

/-- Makes a note before everything else. -/
def after (note : Note) (r : Reply α) : Reply α := ⟨.both (.one note) r.notes, r.outcome⟩

/-- Goes on after success with the value and the text left. -/
def andThen (r : Reply α) (next : α → List Char → Reply β) : Reply β :=
  match r.outcome with
  | .done value rest => let r' := next value rest; ⟨.both r.notes r'.notes, r'.outcome⟩
  | .failed fault rest unclosed => ⟨r.notes, .failed fault rest unclosed⟩

/-- A reply given inside parentheses: a failure leaves one more of them open. -/
def enclosed (r : Reply α) : Reply α := ⟨r.notes, r.outcome.enclosed⟩

@[simp] theorem outcome_done (value : α) (rest : List Char) :
    (done value rest).outcome = .done value rest := rfl

@[simp] theorem outcome_failed (fault : Fault) (rest : List Char) :
    (failed fault rest : Reply α).outcome = .failed fault rest 0 := rfl

@[simp] theorem outcome_after (note : Note) (r : Reply α) :
    (r.after note).outcome = r.outcome := rfl

@[simp] theorem outcome_andThen (r : Reply α) (next : α → List Char → Reply β) :
    (r.andThen next).outcome = r.outcome.andThen fun value rest => (next value rest).outcome := by
  simp only [andThen]
  cases r.outcome with
  | done value rest => rfl
  | failed fault rest unclosed => rfl

@[simp] theorem outcome_enclosed (r : Reply α) :
    r.enclosed.outcome = r.outcome.enclosed := rfl

end Reply

end InfixArith
