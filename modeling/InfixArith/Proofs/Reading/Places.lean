import InfixArith.Proofs.Reading.Faults

/-!
# Reading — the places of faults

A fault is reported at a place of the text that was read (`Fails.place`), inside no more parentheses
than may be open (`Fails.unclosed_le`); so it is for calls (`Call.outcome_failsWithin`).
-/

namespace InfixArith

/-- The place a fault is reported at, given by the text from there on. -/
def Fault.place? : Fault → Option (List Char)
  | .endOfText _      => none
  | .unclosed _ place => some place
  | .notOperand place => some place
  | .trailing place   => some place
  | .chained _ place  => some place
  | .nestingTooDeep place => some place
  | .treeTooDeep place    => some place

/-- A failure is inside `d` parentheses at most, at a place of the text `s` if at any. -/
inductive Outcome.FailsWithin {α : Type} (d : Nat) (s : List Char) : Outcome α → Prop where
  | done (v : α) (r : List Char) : FailsWithin d s (.done v r)
  | failed {f : Fault} {n : Nat} (r : List Char) (hf : ∀ q ∈ f.place?, q <:+ s) (hn : n ≤ d) :
      FailsWithin d s (.failed f r n)

namespace Reading

variable {t : Table} {h d n : Nat} {task : Task} {s r : List Char} {f : Fault}

theorem ClosingFault.place (hf : ClosingFault s f r) : ∀ q ∈ f.place?, q <:+ s := by
  cases hf with
  | missing => exact nofun
  | other hs =>
      rintro q ⟨rfl⟩
      exact hs ▸ Text.skipBlanks_suffix s

/-- **A fault is at a place of the text.** -/
theorem Fails.place (hf : Fails t h d task s f r n) : ∀ q ∈ f.place?, q <:+ s := by
  induction hf with
  | missing => exact nofun
  | notOperand hs | tooDeep hs =>
      rintro q ⟨rfl⟩
      exact hs ▸ Text.skipBlanks_suffix _
  | inside hs _ ih => exact fun q hq => (ih q hq).trans (Text.suffix_of_skipBlanks hs)
  | closing hs hm hf =>
      have hu := (suffix_of_read hm).trans (Text.suffix_of_skipBlanks hs)
      exact fun q hq => (hf.place q hq).trans hu
  | first _ ih => exact ih
  | after hl _ ih => exact fun q hq => (ih q hq).trans (suffix_of_read hl)
  | operand _ hm _ ih => exact fun q hq => (ih q hq).trans (Level.match?_suffix hm)
  | left _ _ hm ho _ ih | right _ _ hm ho _ ih =>
      have hu := (suffix_of_read ho).trans (Level.match?_suffix hm)
      exact fun q hq => (ih q hq).trans hu
  | chained _ _ hm ho =>
      rintro q ⟨rfl⟩
      have hu := (suffix_of_read ho).trans (Level.match?_suffix hm)
      exact (Text.skipBlanks_suffix _).trans hu
  | tooHigh =>
      rintro q ⟨rfl⟩
      exact Text.skipBlanks_suffix _

/-- **A failure leaves no more parentheses open than are allowed.** -/
theorem Fails.unclosed_le (hf : Fails t h d task s f r n) : n ≤ d := by
  induction hf with
  | inside _ _ ih => exact Nat.succ_le_succ ih
  | first _ ih | after _ _ ih | operand _ _ _ ih | left _ _ _ _ _ ih | right _ _ _ _ _ ih => exact ih
  | _ => exact Nat.zero_le _

end Reading

namespace Call

variable {t : Table} {h d : Nat}

theorem outcome_failsWithin (call : Call) (s : List Char) :
    (call.outcome t h d s).FailsWithin d s := by
  cases ho : call.outcome t h d s with
  | done m r => exact .done m r
  | failed f r n =>
      cases Reading.callFault_of_failed ho with
      | expression hf => exact .failed r hf.place hf.unclosed_le
      | trailing hm hu =>
          refine .failed _ ?_ (Nat.zero_le d)
          rintro q ⟨rfl⟩
          exact hu ▸ (Text.skipBlanks_suffix _).trans (Reading.suffix_of_read hm)

theorem finish_rest (call : Call) (m : Measured) (s : List Char) : (call.finish m s).rest <:+ s := by
  have hs := Text.skipBlanks_suffix s
  cases call with
  | whole =>
      rw [finish]
      split
      · exact List.nil_suffix
      · next hr => exact hr ▸ hs
  | expression | level p => exact List.suffix_refl s

theorem outcome_rest (call : Call) (s : List Char) : (call.outcome t h d s).rest <:+ s :=
  Outcome.rest_andThen (Reading.read_rest _ s) fun m u _ => finish_rest call m u

end Call

end InfixArith
