import InfixArith.Proofs.Limits.Exact
import InfixArith.Proofs.Reading.Calls

/-!
# Limits — calls under limits

A call comes to the same under all limits that it does not reach, and reaches only those that the
parentheses it enters or the tree it returns exceed (`fresh_within_limits`).
-/

namespace InfixArith

namespace ParseError

/-- Whether an error is that a limit was reached. -/
def isLimit : ParseError → Bool
  | .nestingTooDeep .. | .treeTooDeep .. => true
  | _                                    => false

end ParseError

namespace Fault

theorem isLimit_report (f : Fault) (limits : Limits) (size : Nat) :
    (f.report limits size).isLimit = f.isLimit := by
  cases f <;> rfl

/-- Only limits that are reached show in an error. -/
theorem report_eq {f : Fault} (hf : f.isLimit = false) (limits limits' : Limits) (size : Nat) :
    f.report limits size = f.report limits' size := by
  cases f with
  | nestingTooDeep _ | treeTooDeep _ => cases hf
  | endOfText _ | unclosed _ _ | notOperand _ | trailing _ | chained _ _ => rfl

end Fault

theorem Call.not_refused_finish (call : Call) (m : Measured) (s : List Char) :
    ¬ (call.finish m s).Refused := by
  cases call with
  | whole =>
      rw [finish]
      split
      · exact Outcome.not_refused_done _ _
      · exact Outcome.not_refused_failed rfl
  | expression | level p => exact Outcome.not_refused_done _ _

/-- The limits are no less than the length of the source, which therefore cannot reach them. -/
structure Limits.Beyond (limits : Limits) (source : List Char) : Prop where
  nesting : source.length ≤ limits.maxNesting
  height : source.length ≤ limits.maxHeight

namespace Reading

variable {t : Table} {limits higher wide : Limits} {size : Nat} {call : Call} {pos : Position}

/-- The error is that a limit was reached. -/
def Refused (r : Reading) : Prop := ∃ err, r.result = .error err ∧ err.isLimit = true

/-- Two readings have the same result and stop at the same place. -/
def Agrees (a b : Reading) : Prop := a.result = b.result ∧ a.stop = b.stop

theorem run_refused_iff :
    (run t limits size call pos).Refused ↔ (outcomeAt t limits call pos).Refused := by
  rw [Refused, run_result]
  cases outcomeAt t limits call pos with
  | done m r =>
      refine iff_of_false ?_ (Outcome.not_refused_done m r)
      rintro ⟨err, herr, -⟩
      cases herr
  | failed f r n =>
      rw [Outcome.refused_failed_iff, ← f.isLimit_report limits size]
      constructor
      · rintro ⟨err, herr, hlimit⟩
        cases herr
        exact hlimit
      · exact fun hlimit => ⟨_, rfl, hlimit⟩

/-- What is cut off nowhere is the same under both limits. -/
theorem agrees_of_cutsOff
    (hcut : (outcomeAt t limits call pos).CutsOff (outcomeAt t higher call pos))
    (hno : ¬ (run t limits size call pos).Refused) :
    Agrees (run t limits size call pos) (run t higher size call pos) := by
  rw [run_refused_iff] at hno
  have heq := hcut.resolve_left hno
  rw [Agrees, run_result, run_result, run_stop, run_stop, ← heq]
  refine ⟨?_, rfl⟩
  cases ho : outcomeAt t limits call pos with
  | done m r => rfl
  | failed f r n =>
      rw [ho, Outcome.refused_failed_iff, Bool.not_eq_true] at hno
      exact congrArg Except.error (f.report_eq hno limits higher size)

theorem outcomeAt_cutsOff
    (hcut : (read t limits.maxHeight (limits.maxNesting - pos.unclosed) (call.precedence t)
      pos.rest).CutsOff
        (read t higher.maxHeight (higher.maxNesting - pos.unclosed) (call.precedence t) pos.rest)) :
    (outcomeAt t limits call pos).CutsOff (outcomeAt t higher call pos) :=
  hcut.andThen fun _ _ _ => .refl _

/-- **The limits are exact, and only ever cut off.**  A source does not reach limits of its own
length.  What is read of it under any limits is what is read under those, unless a limit is the
error; and a tree is read under all limits that it keeps to and under no others: as many parentheses
must be allowed as are entered without limits, and as many operations as lie on its longest path.
Raising a limit changes nothing, unless that limit is the error. -/
theorem fresh_within_limits (ht : t.OneOperation) (call : Call) {source : List Char}
    (hwide : wide.Beyond source) (limits : Limits) :
    ¬ (fresh t wide call source).Refused ∧
    (¬ (fresh t limits call source).Refused →
      Agrees (fresh t limits call source) (fresh t wide call source)) ∧
    (∀ e, (fresh t limits call source).result = .ok e ↔
      (fresh t wide call source).result = .ok e ∧
        (∀ k, Enters t (call.precedence t) source k → k ≤ limits.maxNesting) ∧
        e.height ≤ limits.maxHeight) ∧
    ∀ higher : Limits, limits.maxNesting ≤ higher.maxNesting →
      limits.maxHeight ≤ higher.maxHeight → ¬ (fresh t limits call source).Refused →
      Agrees (fresh t limits call source) (fresh t higher call source) := by
  have hunlimited : read t wide.maxHeight wide.maxNesting (call.precedence t) source =
      unlimited t (call.precedence t) source := read_eq_unlimited hwide.height hwide.nesting _
  refine ⟨?_, agrees_of_cutsOff (outcomeAt_cutsOff ?_), fun e => ?_, fun higher hn hh =>
    agrees_of_cutsOff (outcomeAt_cutsOff (read_cutsOff hh hn _ _))⟩
  · rw [fresh, run_refused_iff]
    refine Outcome.not_refused_andThen ?_ fun m u _ => Call.not_refused_finish call m u
    exact not_refused hwide.height hwide.nesting _
  · exact hunlimited ▸ cutsOff_unlimited t _ _ _ _
  · rw [fresh, fresh, run_eq_ok_iff, run_eq_ok_iff]
    constructor
    · rintro ⟨m, u, r, hm, hfin, rfl⟩
      refine ⟨⟨m, u, r, hunlimited.trans (unlimited_of_done hm), hfin, rfl⟩, fun k hk => hk.le hm, ?_⟩
      exact height_eq ht hm ▸ height_le hm
    · rintro ⟨⟨m, u, r, hm, hfin, rfl⟩, hk, hh⟩
      exact ⟨m, u, r, read_within hm hk (height_eq ht hm ▸ hh), hfin, rfl⟩

/-- The product `(1+2)*3` enters one pair of parentheses, whatever is allowed. -/
theorem fresh_within_limits_product :
    let source := "(1+2)*3".toList
    Enters .arithmetic 2 source 1 ∧ ∀ k, Enters .arithmetic 2 source k → k ≤ 1 := by
  intro source
  refine ⟨.first (.first (.parens rfl (.start _ _))), ?_⟩
  have hwide : Limits.Beyond ⟨7, 7⟩ source := ⟨by decide, by decide⟩
  obtain ⟨-, -, hexact, -⟩ :=
    fresh_within_limits Table.plain_arithmetic.oneOperation (.level 2) hwide ⟨1, 2⟩
  exact ((hexact _).mp rfl).2.1

end Reading

end InfixArith
