import InfixArith.Proofs.Numeral.Pattern
import InfixArith.Proofs.Reading.Reuse

/-!
# Reading — what an error tells of the source

Reading stops at the place of the fault, but for two faults that are known only later: a parenthesis
that is too deep is behind the place where reading stops, and an operation that is too high is built
after its right operand, which in a chain that groups to the right is the rest of the chain.
`Fault.Stands f r` says of each fault what stands at its place when the text `r` is left.

Every failure is with a fault that stands (`Fails.stands`).  So an error gives its place in bytes and
quotes what is there (`ParseError.Truthful`), whatever calls were made before on the source
(`run_truthful`).
-/

namespace InfixArith

open Text (isBlank byteSize)

namespace Fault

/-- What the fault says of its place is so, where reading stopped with `rest` left. -/
inductive Stands (t : Table) : Fault → (rest : List Char) → Prop where
  | endOfText (x : Expectation) : Stands t (.endOfText x) []
  | unclosed {c : Char} {r : List Char} (hc : isBlank c = false) (hclose : c ≠ ')') :
      Stands t (.unclosed c (c :: r)) (c :: r)
  | notOperand {c : Char} {r : List Char} (hc : isBlank c = false) (hopen : c ≠ '(')
      (hno : Numeral.scan? (c :: r) = none) : Stands t (.notOperand (c :: r)) (c :: r)
  | trailing {c : Char} {r : List Char} (hc : isBlank c = false) :
      Stands t (.trailing (c :: r)) (c :: r)
  | chained {e : Entry} {r : List Char} (he : e ∈ t.entries)
      (ha : e.associativity = .nonAssociative) (htoken : e.token.toList <+: r) :
      Stands t (.chained e.token r) r
  | nestingTooDeep (r : List Char) : Stands t (.nestingTooDeep ('(' :: r)) r
  /-- What is left comes after the token of the operation that is too high. -/
  | treeTooDeep {e : Entry} {q r : List Char} (he : e ∈ t.entries) (hr : r <:+ q) :
      Stands t (.treeTooDeep (e.token.toList ++ q)) r

end Fault

namespace Reading

variable {t : Table} {h d n : Nat} {s r : List Char} {f : Fault}

theorem ClosingFault.stands (hf : ClosingFault s f r) : f.Stands t r := by
  cases hf with
  | missing => exact .endOfText .closing
  | other hs hc => exact .unclosed (Text.isBlank_of_skipBlanks_eq_cons hs) hc

/-- **A fault stands** where reading stops with it. -/
theorem Fails.stands {task : Task} (hf : Fails t h d task s f r n) : f.Stands t r := by
  induction hf with
  | missing => exact .endOfText .operand
  | notOperand hs hc hn => exact .notOperand (Text.isBlank_of_skipBlanks_eq_cons hs) hc hn
  | tooDeep => exact .nestingTooDeep _
  | closing _ _ hf => exact hf.stands
  | inside _ _ ih | first _ ih | after _ _ ih => exact ih
  | operand _ _ _ ih | left _ _ _ _ _ ih | right _ _ _ _ _ ih => exact ih
  | chained hl ha _ _ hagain =>
      obtain ⟨he, -, hassoc⟩ := Table.mem_of_match? hl hagain
      exact .chained he (hassoc.trans ha) ⟨_, (Level.match?_eq_some hagain).2.1⟩
  | tooHigh hl hm ho hr =>
      obtain ⟨he, -, -⟩ := Table.mem_of_match? hl hm
      rw [← (Level.match?_eq_some hm).2.1]
      exact .treeTooDeep he (hr.trans (suffix_of_read ho))

theorem CallFault.stands {call : Call} (hf : CallFault t h d call s f r n) : f.Stands t r := by
  cases hf with
  | expression hf => exact hf.stands
  | trailing _ hu => exact .trailing (Text.isBlank_of_skipBlanks_eq_cons hu)

end Reading

/-! ### Errors -/

/-- At `offset` bytes of the source its rest is `place`, from the beginning of a character. -/
def Text.AtOffset (source : List Char) (offset : Nat) (place : List Char) : Prop :=
  ∃ before, before ++ place = source ∧ byteSize before = offset

theorem Text.atOffset_of_suffix {source place : List Char} (h : place <:+ source) :
    AtOffset source (byteSize source - byteSize place) place := by
  obtain ⟨before, rfl⟩ := h
  exact ⟨before, rfl, by rw [byteSize_append, Nat.add_sub_cancel]⟩

open Text (AtOffset)

namespace ParseError

/-- What an error says of the source is so, where reading stopped at `stop`. -/
def Truthful (t : Table) (limits : Limits) (source : List Char) (stop : Position) :
    ParseError → Prop
  | .unexpectedEnd _ => stop.offset (byteSize source) = byteSize source
  | .expectedClosing found offset =>
    offset = stop.offset (byteSize source) ∧ found ∈ stop.rest.head? ∧ found ≠ ')' ∧
      isBlank found = false
  | .invalidNumber found offset =>
    offset = stop.offset (byteSize source) ∧ found.toList = stop.rest.take Fault.quotedLength ∧
      stop.rest ≠ [] ∧ (∀ c ∈ stop.rest.head?, isBlank c = false ∧ c ≠ '(') ∧
      ∀ w ∈ Numeral.pattern, ¬ w <+: stop.rest
  | .trailingInput rest offset =>
    offset = stop.offset (byteSize source) ∧ rest.toList = stop.rest ∧ stop.rest ≠ [] ∧
      ∀ c ∈ stop.rest.head?, isBlank c = false
  | .ambiguousChain token offset =>
    offset = stop.offset (byteSize source) ∧ token.toList <+: stop.rest ∧
      ∃ e ∈ t.entries, e.token = token ∧ e.associativity = .nonAssociative
  | .nestingTooDeep limit offset =>
    limit = limits.maxNesting ∧ stop.offset (byteSize source) = offset + 1 ∧
      AtOffset source offset ('(' :: stop.rest)
  | .treeTooDeep limit offset =>
    limit = limits.maxHeight ∧ ∃ e ∈ t.entries, ∃ q, AtOffset source offset (e.token.toList ++ q) ∧
      stop.rest <:+ q

end ParseError

/-- A fault that stands is reported truthfully. -/
theorem Fault.Stands.report {t : Table} {limits : Limits} {source : List Char} {stop : Position}
    {f : Fault} (hf : f.Stands t stop.rest) (hplace : ∀ q ∈ f.place?, q <:+ source) :
    (f.report limits (byteSize source)).Truthful t limits source stop := by
  obtain ⟨rest, unclosed⟩ := stop
  cases hf with
  | endOfText x => rfl
  | unclosed hc hclose => exact ⟨rfl, rfl, hclose, hc⟩
  | notOperand hc hopen hno =>
      refine ⟨rfl, String.toList_ofList, List.cons_ne_nil _ _, ?_, Numeral.scan?_eq_none_iff.mp hno⟩
      rintro c ⟨rfl⟩
      exact ⟨hc, hopen⟩
  | trailing hc =>
      refine ⟨rfl, String.toList_ofList, List.cons_ne_nil _ _, ?_⟩
      rintro c ⟨rfl⟩
      exact hc
  | chained he ha htoken => exact ⟨rfl, htoken, _, he, rfl, ha⟩
  | nestingTooDeep =>
      have hat := Text.atOffset_of_suffix (hplace _ rfl)
      obtain ⟨before, hbefore, hsize⟩ := hat
      refine ⟨rfl, ?_, before, hbefore, hsize⟩
      have hopen : '('.utf8Size = 1 := rfl
      rw [Position.offset, ← hbefore]
      simp only [Text.byteSize_append, Text.byteSize_cons, hopen]
      omega
  | treeTooDeep he hr => exact ⟨rfl, _, he, _, Text.atOffset_of_suffix (hplace _ rfl), hr⟩

namespace Reading

variable {t : Table} {limits : Limits} {source : List Char} {call : Call} {p : Position}

/-- An error is true of the source. -/
theorem error_truthful (hp : p.rest <:+ source) {e : ParseError}
    (he : (run t limits (byteSize source) call p).result = .error e) :
    e.Truthful t limits source (run t limits (byteSize source) call p).stop := by
  obtain ⟨f, r, n, ho, rfl⟩ := outcomeAt_of_error he
  have hplace := call.outcome_failsWithin (t := t) (h := limits.maxHeight)
    (d := limits.maxNesting - p.unclosed) p.rest
  rw [run_stop, ho]
  rw [outcomeAt] at ho
  rw [ho] at hplace
  have hstands := (callFault_of_failed ho).stands
  cases hplace with
  | failed _ hplace _ => exact hstands.report fun q hq => (hplace q hq).trans hp

/-- **Errors are true of the source, and reading never leaves it.**  Whatever calls were made on a
source before, a call stops no earlier than it began and within the source, at the beginning of a
character or the end; and if it fails, its error says of the source what is so. -/
theorem run_truthful (t : Table) (limits : Limits) (source : List Char) (calls : List Call)
    (call : Call) :
    let size := byteSize source
    let p := after t limits source calls
    let r := run t limits size call p
    p.offset size ≤ r.stop.offset size ∧ r.stop.offset size ≤ size ∧
    AtOffset source (r.stop.offset size) r.stop.rest ∧
    ∀ e, r.result = .error e → e.Truthful t limits source r.stop := by
  intro size p r
  have hp : p.Within limits source := after_within t limits source calls
  have hstop : r.stop.rest <:+ p.rest := stop_rest
  refine ⟨?_, Nat.sub_le _ _, Text.atOffset_of_suffix (hstop.trans hp.rest),
    fun e he => error_truthful hp.rest he⟩
  obtain ⟨u, hu⟩ := hstop
  have hle : byteSize r.stop.rest ≤ byteSize p.rest := by
    rw [← hu, Text.byteSize_append]
    exact Nat.le_add_left _ _
  exact Nat.sub_le_sub_left hle size

/-- In `2 × 3` the sign is refused once as what follows an expression and once as an operand. -/
theorem run_truthful_times :
    let source := "2 × 3".toList
    let r := run .arithmetic .usual (byteSize source) .expression
      (after .arithmetic .usual source [.whole])
    r.result = .error (.invalidNumber "× 3" 2) ∧
      ParseError.Truthful .arithmetic .usual source r.stop (.invalidNumber "× 3" 2) :=
  ⟨rfl, (run_truthful .arithmetic .usual "2 × 3".toList [.whole] .expression).2.2.2 _ rfl⟩

end Reading

end InfixArith
