import InfixArith.Proofs.Reading.Calls
import InfixArith.Proofs.Reading.Steps

/-!
# Reading — what a failure consists of

Reading fails where the reader stands, or in an expression or a chain inside what it reads.  `Fails`
follows a failure down to where it comes from; each case holds what had been read before.  What holds
of every failure is proved by induction on it (`fails_of_read`), and of calls with one case more, for
what follows their expression (`CallFault`).
-/

namespace InfixArith

namespace Outcome

variable {α β : Type} {o : Outcome α} {f : Fault} {r : List Char} {n : Nat}

/-- What fails in two steps fails in the first, or in the second after the first. -/
theorem andThen_eq_failed {next : α → List Char → Outcome β} (h : o.andThen next = .failed f r n) :
    o = .failed f r n ∨ ∃ v s, o = .done v s ∧ next v s = .failed f r n := by
  cases o with
  | done v s => exact .inr ⟨v, s, rfl, h⟩
  | failed f' r' n' =>
      cases h
      exact .inl rfl

theorem enclosed_eq_failed (h : o.enclosed = .failed f r n) :
    ∃ k, o = .failed f r k ∧ n = k + 1 := by
  cases o with
  | done v s => cases h
  | failed f' r' k =>
      cases h
      exact ⟨k, rfl, rfl⟩

end Outcome

theorem Level.combine_eq_failed {h n : Nat} {e : Entry} {l m : Measured} {f : Fault}
    {place rest r : List Char} (hc : (combine h e place l m rest).outcome = .failed f r n) :
    f = .treeTooDeep place ∧ r = rest ∧ n = 0 := by
  unfold combine at hc
  split at hc
  · cases hc
  · cases hc
    exact ⟨rfl, rfl, rfl⟩

namespace Reading

/-- What is read: an expression of precedence `p`, or the rest of a chain of precedence `p + 1` after
its operand `l`. -/
inductive Task where
  | expression (p : Nat)
  | chain (p : Nat) (l : Measured)

/-- How a parenthesis is not closed. -/
inductive ClosingFault (s : List Char) : Fault → (rest : List Char) → Prop where
  | missing (hs : Text.skipBlanks s = []) : ClosingFault s (.endOfText .closing) []
  | other {c : Char} {r : List Char} (hs : Text.skipBlanks s = c :: r) (hc : c ≠ ')') :
      ClosingFault s (.unclosed c (c :: r)) (c :: r)

/-- How reading `s` fails. -/
inductive Fails (t : Table) (h : Nat) : (d : Nat) → Task → (s : List Char) →
    Fault → (rest : List Char) → (unclosed : Nat) → Prop where
  | missing {d : Nat} {s : List Char} (hs : Text.skipBlanks s = []) :
      Fails t h d (.expression 0) s (.endOfText .operand) [] 0
  | notOperand {d : Nat} {s r : List Char} {c : Char} (hs : Text.skipBlanks s = c :: r)
      (hc : c ≠ '(') (hn : Numeral.scan? (c :: r) = none) :
      Fails t h d (.expression 0) s (.notOperand (c :: r)) (c :: r) 0
  | tooDeep {s q : List Char} (hs : Text.skipBlanks s = '(' :: q) :
      Fails t h 0 (.expression 0) s (.nestingTooDeep ('(' :: q)) q 0
  | inside {d n : Nat} {s q r : List Char} {f : Fault} (hs : Text.skipBlanks s = '(' :: q)
      (hf : Fails t h d (.expression t.maxPrecedence) q f r n) :
      Fails t h (d + 1) (.expression 0) s f r (n + 1)
  | closing {d : Nat} {s q u r : List Char} {m : Measured} {f : Fault}
      (hs : Text.skipBlanks s = '(' :: q) (hm : read t h d t.maxPrecedence q = .done m u)
      (hf : ClosingFault u f r) : Fails t h (d + 1) (.expression 0) s f r 0
  | first {d p n : Nat} {s r : List Char} {f : Fault} (hf : Fails t h d (.expression p) s f r n) :
      Fails t h d (.expression (p + 1)) s f r n
  | after {d p n : Nat} {s u r : List Char} {l : Measured} {f : Fault}
      (hl : read t h d p s = .done l u) (hf : Fails t h d (.chain p l) u f r n) :
      Fails t h d (.expression (p + 1)) s f r n
  | operand {d p n : Nat} {s q r : List Char} {l : Measured} {level : Level} {e : Entry} {f : Fault}
      (hl : t.level? (p + 1) = some level) (hm : level.match? (Text.skipBlanks s) = some (e, q))
      (hf : Fails t h d (.expression p) q f r n) : Fails t h d (.chain p l) s f r n
  | left {d p n : Nat} {s q u r : List Char} {l o : Measured} {level : Level} {e : Entry} {f : Fault}
      (hl : t.level? (p + 1) = some level) (ha : level.associativity = .leftToRight)
      (hm : level.match? (Text.skipBlanks s) = some (e, q)) (ho : read t h d p q = .done o u)
      (hf : Fails t h d (.chain p (.build e l o)) u f r n) : Fails t h d (.chain p l) s f r n
  | right {d p n : Nat} {s q u r : List Char} {l o : Measured} {level : Level} {e : Entry}
      {f : Fault} (hl : t.level? (p + 1) = some level) (ha : level.associativity = .rightToLeft)
      (hm : level.match? (Text.skipBlanks s) = some (e, q)) (ho : read t h d p q = .done o u)
      (hf : Fails t h d (.chain p o) u f r n) : Fails t h d (.chain p l) s f r n
  | chained {d p : Nat} {s q u v : List Char} {l o : Measured} {level : Level} {e again : Entry}
      (hl : t.level? (p + 1) = some level) (ha : level.associativity = .nonAssociative)
      (hm : level.match? (Text.skipBlanks s) = some (e, q)) (ho : read t h d p q = .done o u)
      (hagain : level.match? (Text.skipBlanks u) = some (again, v)) :
      Fails t h d (.chain p l) s (.chained again.token (Text.skipBlanks u)) (Text.skipBlanks u) 0
  /-- What is left comes after the right operand or, where the level groups to the right, after the
  chain that begins with it. -/
  | tooHigh {d p : Nat} {s q u r : List Char} {l o : Measured} {level : Level} {e : Entry}
      (hl : t.level? (p + 1) = some level) (hm : level.match? (Text.skipBlanks s) = some (e, q))
      (ho : read t h d p q = .done o u) (hr : r <:+ u) :
      Fails t h d (.chain p l) s (.treeTooDeep (Text.skipBlanks s)) r 0

variable {t : Table} {h d p n : Nat} {l : Measured} {s r : List Char} {f : Fault}

theorem closingFault_of_failed (hf : (closing s).outcome = .failed f r n) :
    ClosingFault s f r ∧ n = 0 := by
  unfold closing at hf
  split at hf
  · next hs =>
    cases hf
    exact ⟨.missing hs, rfl⟩
  · cases hf
  · next c q hc hs =>
    cases hf
    exact ⟨.other hs fun heq => hc (heq ▸ rfl), rfl⟩

theorem fails_zero
    (ih : ∀ q : List Char, q.length < s.length → ∀ d f r n,
      read t h d t.maxPrecedence q = .failed f r n →
        Fails t h d (.expression t.maxPrecedence) q f r n)
    (hf : read t h d 0 s = .failed f r n) : Fails t h d (.expression 0) s f r n := by
  cases hs : Text.skipBlanks s with
  | nil =>
      rw [read_nothing hs] at hf
      cases hf
      exact .missing hs
  | cons c q =>
      by_cases hopen : c = '('
      · subst hopen
        cases d with
        | zero =>
            rw [read_parens_too_deep hs] at hf
            cases hf
            exact .tooDeep hs
        | succ d =>
            rw [read_parens hs] at hf
            rcases Outcome.andThen_eq_failed hf with hinner | ⟨m, u, hm, hf⟩
            · obtain ⟨k, hq, rfl⟩ := Outcome.enclosed_eq_failed hinner
              exact .inside hs (ih q (Text.length_lt_of_skipBlanks hs) d f r k hq)
            · rcases Outcome.andThen_eq_failed hf with hclose | ⟨_, v, -, hf⟩
              · obtain ⟨hu, rfl⟩ := closingFault_of_failed hclose
                exact .closing hs (Outcome.enclosed_eq_done.mp hm) hu
              · cases hf
      · rw [read_numeral hs hopen] at hf
        cases hn : Numeral.scan? (c :: q) with
        | none =>
            rw [hn] at hf
            cases hf
            exact .notOperand hs hopen hn
        | some found =>
            rw [hn] at hf
            cases hf

/-- A chain that fails after its operand fails in what its level makes of it. -/
theorem fails_afterOperand {level : Level} {e : Entry} {q u : List Char} {o : Measured}
    (hl : t.level? (p + 1) = some level) (hm : level.match? (Text.skipBlanks s) = some (e, q))
    (ho : read t h d p q = .done o u)
    (ih : ∀ l f r n, extend t h d (p + 1) l u = .failed f r n → Fails t h d (.chain p l) u f r n)
    (hf : afterOperand t h d p level e (Text.skipBlanks s) l o u = .failed f r n) :
    Fails t h d (.chain p l) s f r n := by
  unfold afterOperand at hf
  cases ha : level.associativity with
  | leftToRight =>
      rw [ha] at hf
      rcases Outcome.andThen_eq_failed hf with hc | ⟨both, v, hc, hnext⟩
      · obtain ⟨rfl, rfl, rfl⟩ := Level.combine_eq_failed hc
        exact .tooHigh hl hm ho List.suffix_rfl
      · obtain ⟨rfl, rfl, -⟩ := Level.combine_eq_done hc
        exact .left hl ha hm ho (ih _ f r n hnext)
  | rightToLeft =>
      rw [ha] at hf
      rcases Outcome.andThen_eq_failed hf with hnext | ⟨both, v, hv, hc⟩
      · exact .right hl ha hm ho (ih o f r n hnext)
      · obtain ⟨rfl, rfl, rfl⟩ := Level.combine_eq_failed hc
        have hsuffix := extend_rest (t := t) (h := h) (d := d) (p + 1) o u
        rw [hv] at hsuffix
        exact .tooHigh hl hm ho hsuffix
  | nonAssociative =>
      rw [ha] at hf
      cases hagain : level.match? (Text.skipBlanks u) with
      | none =>
          rw [hagain] at hf
          obtain ⟨rfl, rfl, rfl⟩ := Level.combine_eq_failed hf
          exact .tooHigh hl hm ho (Text.skipBlanks_suffix u)
      | some found =>
          rw [hagain] at hf
          cases hf
          exact .chained hl ha hm ho hagain

theorem fails_chain
    (ih : ∀ q : List Char, q.length < s.length →
      (∀ f r n, read t h d p q = .failed f r n → Fails t h d (.expression p) q f r n) ∧
        ∀ l f r n, extend t h d (p + 1) l q = .failed f r n → Fails t h d (.chain p l) q f r n)
    (hf : extend t h d (p + 1) l s = .failed f r n) : Fails t h d (.chain p l) s f r n := by
  cases hl : t.level? (p + 1) with
  | none =>
      rw [extend_of_no_level hl] at hf
      cases hf
  | some level =>
      cases hm : level.match? (Text.skipBlanks s) with
      | none =>
          rw [extend_of_no_match hl hm] at hf
          cases hf
      | some found =>
          obtain ⟨e, q⟩ := found
          rw [extend_of_match hl hm] at hf
          rcases Outcome.andThen_eq_failed hf with ho | ⟨o, u, ho, hf⟩
          · exact .operand hl hm ((ih q (length_skip_match hl hm)).1 f r n ho)
          · exact fails_afterOperand hl hm ho (ih u (length_link hl hm ho)).2 hf

/-- A failure comes from somewhere. -/
theorem fails_of_read (hf : read t h d p s = .failed f r n) :
    Fails t h d (.expression p) s f r n := by
  refine (reading_induction
    (R := fun p s => ∀ d f r n, read t h d p s = .failed f r n →
      Fails t h d (.expression p) s f r n)
    (E := fun s => ∀ p d l f r n, extend t h d (p + 1) l s = .failed f r n →
      Fails t h d (.chain p l) s f r n)
    ?_ ?_ ?_ s).1 p d f r n hf
  · intro s ih d f r n hf
    exact fails_zero (fun q hq => ih q hq t.maxPrecedence) hf
  · intro p s ihr ihx d f r n hf
    rw [read_succ] at hf
    rcases Outcome.andThen_eq_failed hf with hf | ⟨l, u, hl, hf⟩
    · exact .first (ihr d f r n hf)
    · exact .after hl (ihx u (length_read hl) p d l f r n hf)
  · intro s ih p d l f r n hf
    exact fails_chain (fun q hq => ⟨(ih q hq).1 p d, (ih q hq).2 p d⟩) hf

/-- How a call fails. -/
inductive CallFault (t : Table) (h d : Nat) (call : Call) (s : List Char) :
    Fault → (rest : List Char) → (unclosed : Nat) → Prop where
  | expression {f : Fault} {r : List Char} {n : Nat}
      (hf : Fails t h d (.expression (call.precedence t)) s f r n) : CallFault t h d call s f r n
  | trailing {m : Measured} {u r : List Char} {c : Char}
      (hm : read t h d (call.precedence t) s = .done m u) (hu : Text.skipBlanks u = c :: r) :
      CallFault t h d call s (.trailing (c :: r)) (c :: r) 0

theorem callFault_of_failed {call : Call} (hf : call.outcome t h d s = .failed f r n) :
    CallFault t h d call s f r n := by
  rcases Outcome.andThen_eq_failed hf with hf | ⟨m, u, hm, hf⟩
  · exact .expression (fails_of_read hf)
  · cases call with
    | whole =>
        rw [Call.finish] at hf
        split at hf
        · cases hf
        · next c q hu =>
          cases hf
          exact .trailing hm hu
    | expression | level p => cases hf

end Reading

end InfixArith
