import InfixArith.Proofs.Reading.Places

/-!
# Reading — one call after another

Calls on one source go on where the last one stopped (`Reading.after`).  Each is a call on what is
left of the source, with as many parentheses fewer allowed as failed calls have left open: the result
is that one's with the offsets counted from the beginning of the source and the limit as it was set
(`run_eq_fresh`).

What a sequence of calls keeps is `Position.Within`: the text left is an end of the source, and no
more parentheses are open than allowed.  One call keeps it (`stop_within`), so every sequence does
(`after_within`).
-/

namespace InfixArith

namespace ParseError

/-- The error with `o` more bytes before each place, and the nesting allowed given as `limit`. -/
def shift (o limit : Nat) : ParseError → ParseError
  | .unexpectedEnd x        => .unexpectedEnd x
  | .expectedClosing c p    => .expectedClosing c (o + p)
  | .invalidNumber found p  => .invalidNumber found (o + p)
  | .trailingInput rest p   => .trailingInput rest (o + p)
  | .ambiguousChain token p => .ambiguousChain token (o + p)
  | .nestingTooDeep _ p     => .nestingTooDeep limit (o + p)
  | .treeTooDeep height p   => .treeTooDeep height (o + p)

end ParseError

/-- The offset of a text that `size` bytes end with is counted from their beginning. -/
theorem Text.sub_byteSize_append (before : List Char) {s place : List Char} (h : place <:+ s) :
    byteSize (before ++ s) - byteSize place = byteSize before + (byteSize s - byteSize place) := by
  obtain ⟨u, rfl⟩ := h
  simp only [byteSize_append]
  omega

/-- A fault in what is left of a source is reported as one in the source. -/
theorem Fault.report_append {f : Fault} {limits : Limits} {before s : List Char} (k : Nat)
    (hf : ∀ place ∈ f.place?, place <:+ s) :
    f.report limits (Text.byteSize (before ++ s)) =
      (f.report { limits with maxNesting := k } (Text.byteSize s)).shift (Text.byteSize before)
        limits.maxNesting := by
  cases f with
  | endOfText x => rfl
  | unclosed _ place | notOperand place | trailing place | chained _ place | nestingTooDeep place
  | treeTooDeep place =>
      simp only [report, ParseError.shift, Text.sub_byteSize_append before (hf place rfl)]

namespace Outcome

variable {o : Outcome Measured} {limits : Limits} {d : Nat} {before s : List Char}

theorem result_append (k : Nat) (ho : o.FailsWithin d s) :
    o.result limits (Text.byteSize (before ++ s)) =
      (o.result { limits with maxNesting := k } (Text.byteSize s)).mapError
        (·.shift (Text.byteSize before) limits.maxNesting) := by
  cases ho with
  | done m r => rfl
  | failed r hf hn => exact congrArg Except.error (Fault.report_append k hf)

theorem rest_stop (k : Nat) : (o.stop k).rest = o.rest := by
  cases o <;> rfl

theorem unclosed_stop (k : Nat) : (o.stop k).unclosed = k + (o.stop 0).unclosed := by
  cases o with
  | done m r => rfl
  | failed f r n => exact congrArg (k + ·) (Nat.zero_add n).symm

theorem unclosed_stop_le (k : Nat) (ho : o.FailsWithin d s) : (o.stop k).unclosed ≤ k + d := by
  cases ho with
  | done m r => exact Nat.le_add_right k d
  | failed r hf hn => exact Nat.add_le_add_left hn k

end Outcome

namespace Position

/-- The bytes read of a source of `size` bytes. -/
def offset (size : Nat) (p : Position) : Nat := size - Text.byteSize p.rest

/-- A position in a source, with no more parentheses open than allowed. -/
structure Within (limits : Limits) (source : List Char) (p : Position) : Prop where
  rest : p.rest <:+ source
  unclosed : p.unclosed ≤ limits.maxNesting

theorem within_start (limits : Limits) (source : List Char) :
    (start source).Within limits source :=
  ⟨List.suffix_refl source, Nat.zero_le _⟩

theorem offset_of_append {before source : List Char} {p : Position}
    (h : before ++ p.rest = source) : p.offset (Text.byteSize source) = Text.byteSize before := by
  rw [offset, ← h, Text.byteSize_append, Nat.add_sub_cancel]

end Position

namespace Reading

variable {t : Table} {limits : Limits} {size : Nat} {source : List Char} {call : Call}
  {p : Position}

/-- The reading `r` of a source from `p` on is the reading `f` of what `p` leaves of it. -/
structure Resumes (limits : Limits) (source : List Char) (p : Position) (f r : Reading) : Prop where
  result : r.result =
    f.result.mapError (·.shift (p.offset (Text.byteSize source)) limits.maxNesting)
  offset : r.stop.offset (Text.byteSize source) =
    p.offset (Text.byteSize source) + f.stop.offset (Text.byteSize p.rest)
  rest : r.stop.rest = f.stop.rest
  unclosed : r.stop.unclosed = p.unclosed + f.stop.unclosed

theorem stop_rest : (run t limits size call p).stop.rest <:+ p.rest := by
  rw [run_stop, Outcome.rest_stop]
  exact call.outcome_rest p.rest

theorem stop_unclosed_of_ok {e : Expr} (h : (run t limits size call p).result = .ok e) :
    (run t limits size call p).stop.unclosed = p.unclosed := by
  obtain ⟨m, u, r, hread, hfin, -⟩ := run_eq_ok_iff.mp h
  rw [stop_of_done hread hfin]

theorem le_stop_unclosed : p.unclosed ≤ (run t limits size call p).stop.unclosed := by
  rw [run_stop, Outcome.unclosed_stop]
  exact Nat.le_add_right _ _

/-- One call keeps to the source and to the nesting that is allowed. -/
theorem stop_within (hp : p.Within limits source) :
    (run t limits size call p).stop.Within limits source := by
  refine ⟨stop_rest.trans hp.rest, ?_⟩
  rw [run_stop]
  have hle := Outcome.unclosed_stop_le p.unclosed
    (call.outcome_failsWithin (t := t) (h := limits.maxHeight) (d := limits.maxNesting - p.unclosed)
      p.rest)
  rwa [Nat.add_sub_cancel' hp.unclosed] at hle

/-- A call comes to what one on the rest of the source alone comes to. -/
theorem run_eq_fresh (call : Call) (hp : p.rest <:+ source) :
    Resumes limits source p
      (fresh t { limits with maxNesting := limits.maxNesting - p.unclosed } call p.rest)
      (run t limits (Text.byteSize source) call p) := by
  obtain ⟨before, hsource⟩ := hp
  have ho : outcomeAt t { limits with maxNesting := limits.maxNesting - p.unclosed } call
      (.start p.rest) = outcomeAt t limits call p := rfl
  have hoffset := Position.offset_of_append hsource
  have hrest : (run t limits (Text.byteSize source) call p).stop.rest =
      (fresh t { limits with maxNesting := limits.maxNesting - p.unclosed } call
        p.rest).stop.rest := by
    rw [fresh, run_stop, run_stop, ho, Outcome.rest_stop, Outcome.rest_stop]
  refine ⟨?_, ?_, hrest, ?_⟩
  · rw [fresh, run_result, run_result, ho, hoffset, ← hsource]
    exact Outcome.result_append _ (call.outcome_failsWithin p.rest)
  · rw [hoffset, Position.offset, Position.offset, hrest, ← hsource]
    exact Text.sub_byteSize_append before stop_rest
  · rw [fresh, run_stop, run_stop, ho]
    exact Outcome.unclosed_stop _

/-- The position after some calls on a source, one after another. -/
def after (t : Table) (limits : Limits) (source : List Char) (calls : List Call) : Position :=
  calls.foldl (fun p call => (run t limits (Text.byteSize source) call p).stop) (.start source)

/-- Every sequence of calls keeps to the source and to the nesting that is allowed. -/
theorem after_within (t : Table) (limits : Limits) (source : List Char) (calls : List Call) :
    (after t limits source calls).Within limits source := by
  suffices h : ∀ p : Position, p.Within limits source → Position.Within limits source
      (calls.foldl (fun p call => (run t limits (Text.byteSize source) call p).stop) p) from
    h _ (Position.within_start limits source)
  induction calls with
  | nil => exact fun p hp => hp
  | cons call calls ih => exact fun p hp => ih _ (stop_within hp)

/-- **Reading goes on as it begins.**  Whatever calls were made on a source and whatever became of
them, the next comes to what it would on the rest of the source alone with as many parentheses fewer
allowed as were left open, but for the offsets, which are counted from the beginning of the source,
and the nesting allowed, which is reported as it was set.  A call that succeeds leaves no more
parentheses open than it found, one that fails no fewer, and never are more open than allowed. -/
theorem run_after (t : Table) (limits : Limits) (source : List Char) (calls : List Call)
    (call : Call) :
    let p := after t limits source calls
    let r := run t limits (Text.byteSize source) call p
    (∃ before, before ++ p.rest = source ∧ Text.byteSize before = p.offset (Text.byteSize source)) ∧
    Resumes limits source p
      (fresh t { limits with maxNesting := limits.maxNesting - p.unclosed } call p.rest) r ∧
    (∀ e, r.result = .ok e → r.stop.unclosed = p.unclosed) ∧
    p.unclosed ≤ r.stop.unclosed ∧ r.stop.unclosed ≤ limits.maxNesting := by
  intro p r
  have hp : p.Within limits source := after_within t limits source calls
  obtain ⟨before, hsource⟩ := hp.rest
  exact ⟨⟨before, hsource, (Position.offset_of_append hsource).symm⟩,
    run_eq_fresh call ⟨before, hsource⟩, fun _ => stop_unclosed_of_ok, le_stop_unclosed,
    (stop_within hp).unclosed⟩

/-- With one pair of parentheses allowed, a second is refused, and the first stays open. -/
example : after .arithmetic ⟨1, 5⟩ "((2)".toList [.whole] = ⟨"2)".toList, 1⟩ := by
  decide

end Reading

end InfixArith
