import InfixArith.Proofs.Reading.Equations

/-!
# Reading — what a success consists of

What is read of precedence `0` is a numeral or stands in parentheses (`AtomStep`), and going on with
a chain stops, or takes a token and an operand and does with them what the level says (`ChainStep`).
Each case holds all that the reader has checked on its way.
-/

namespace InfixArith

theorem Outcome.enclosed_eq_done {α : Type} {o : Outcome α} {v : α} {s : List Char} :
    o.enclosed = .done v s ↔ o = .done v s := by
  cases o with
  | done w r => exact Iff.rfl
  | failed f r n => exact iff_of_false (fun h => nomatch h) fun h => nomatch h

theorem Measured.height_build (e : Entry) (l r : Measured) :
    (Measured.build e l r).height = max l.height r.height + 1 := rfl

namespace Reading

variable {t : Table} {h d p : Nat} {l m : Measured} {s r : List Char}

/-- How an expression of precedence `0` is read. -/
inductive AtomStep (t : Table) (h : Nat) : (d : Nat) → (s : List Char) → Measured → List Char → Prop
    where
  | numeral {d : Nat} {s r : List Char} {n : Numeral} (hhead : (Text.skipBlanks s).head? ≠ some '(')
      (hn : Numeral.scan? (Text.skipBlanks s) = some (n, r)) : AtomStep t h d s (.literal n.value) r
  | parens {d : Nat} {s q u r : List Char} {m : Measured} (hs : Text.skipBlanks s = '(' :: q)
      (hm : read t h d t.maxPrecedence q = .done m u) (hu : Text.skipBlanks u = ')' :: r) :
      AtomStep t h (d + 1) s m r

/-- How the chain of precedence `p + 1` is gone on with from `l` at `s`. -/
inductive ChainStep (t : Table) (h d p : Nat) (l : Measured) (s : List Char) :
    Measured → List Char → Prop where
  | noLevel (hl : t.level? (p + 1) = none) : ChainStep t h d p l s l s
  | noMatch {level : Level} (hl : t.level? (p + 1) = some level)
      (hm : level.match? (Text.skipBlanks s) = none) :
      ChainStep t h d p l s l (Text.skipBlanks s)
  | left {level : Level} {e : Entry} {q u r : List Char} {o m : Measured}
      (hl : t.level? (p + 1) = some level) (ha : level.associativity = .leftToRight)
      (hm : level.match? (Text.skipBlanks s) = some (e, q)) (ho : read t h d p q = .done o u)
      (hfit : max l.height o.height + 1 ≤ h)
      (hnext : extend t h d (p + 1) (.build e l o) u = .done m r) : ChainStep t h d p l s m r
  | right {level : Level} {e : Entry} {q u r : List Char} {o m : Measured}
      (hl : t.level? (p + 1) = some level) (ha : level.associativity = .rightToLeft)
      (hm : level.match? (Text.skipBlanks s) = some (e, q)) (ho : read t h d p q = .done o u)
      (hnext : extend t h d (p + 1) o u = .done m r) (hfit : max l.height m.height + 1 ≤ h) :
      ChainStep t h d p l s (.build e l m) r
  | once {level : Level} {e : Entry} {q u : List Char} {o : Measured}
      (hl : t.level? (p + 1) = some level) (ha : level.associativity = .nonAssociative)
      (hm : level.match? (Text.skipBlanks s) = some (e, q)) (ho : read t h d p q = .done o u)
      (hno : level.match? (Text.skipBlanks u) = none) (hfit : max l.height o.height + 1 ≤ h) :
      ChainStep t h d p l s (.build e l o) (Text.skipBlanks u)

theorem closing_eq_done_iff {u : Unit} :
    (closing s).outcome = .done u r ↔ Text.skipBlanks s = ')' :: r := by
  unfold closing
  split
  · next hs => simp [hs]
  · next hs => simp [hs]
  · next c q hc hs =>
    rw [hs]
    refine iff_of_false (fun h => nomatch h) fun h => ?_
    cases h
    exact hc rfl

theorem read_zero_eq_done_iff : read t h d 0 s = .done m r ↔ AtomStep t h d s m r := by
  constructor
  · intro hr
    rw [read_zero] at hr
    split at hr
    · cases hr
    · next q hs =>
      split at hr
      · cases hr
      · next d =>
        obtain ⟨e, u, he, hu⟩ := Outcome.andThen_eq_done hr
        obtain ⟨_, _, hclose, hdone⟩ := Outcome.andThen_eq_done hu
        cases hdone
        exact .parens hs (Outcome.enclosed_eq_done.mp he) (closing_eq_done_iff.mp hclose)
    · next hno =>
      split at hr
      · cases hr
      · next n q hn =>
        cases hr
        refine .numeral (fun hhead => ?_) hn
        obtain ⟨q, hq⟩ := List.head?_eq_some_iff.mp hhead
        exact hno q hq
  · intro hstep
    cases hstep with
    | numeral hhead hn =>
        rw [read_zero]
        split
        · next hs =>
          rw [hs] at hn
          cases hn
        · next hs =>
          rw [hs] at hhead
          exact absurd rfl hhead
        · rw [hn]
    | parens hs hm hu =>
        rw [read_parens hs, Outcome.enclosed_eq_done.mpr hm, Outcome.done_andThen,
          (closing_eq_done_iff (u := ())).mpr hu, Outcome.done_andThen]

theorem ChainStep.of_afterOperand {level : Level} {e : Entry} {q u : List Char} {o : Measured}
    (hl : t.level? (p + 1) = some level) (hm : level.match? (Text.skipBlanks s) = some (e, q))
    (ho : read t h d p q = .done o u)
    (hx : afterOperand t h d p level e (Text.skipBlanks s) l o u = .done m r) :
    ChainStep t h d p l s m r := by
  unfold afterOperand at hx
  cases ha : level.associativity with
  | leftToRight =>
      rw [ha] at hx
      obtain ⟨both, v, hc, hnext⟩ := Outcome.andThen_eq_done hx
      obtain ⟨rfl, rfl, hfit⟩ := Level.combine_eq_done hc
      exact .left hl ha hm ho hfit hnext
  | rightToLeft =>
      rw [ha] at hx
      obtain ⟨both, v, hnext, hc⟩ := Outcome.andThen_eq_done hx
      obtain ⟨rfl, rfl, hfit⟩ := Level.combine_eq_done hc
      exact .right hl ha hm ho hnext hfit
  | nonAssociative =>
      rw [ha] at hx
      dsimp only at hx
      split at hx
      · cases hx
      · next hno =>
        obtain ⟨rfl, rfl, hfit⟩ := Level.combine_eq_done hx
        exact .once hl ha hm ho hno hfit

theorem ChainStep.of_extend (hx : extend t h d (p + 1) l s = .done m r) :
    ChainStep t h d p l s m r := by
  cases hl : t.level? (p + 1) with
  | none =>
      rw [extend_of_no_level hl] at hx
      cases hx
      exact .noLevel hl
  | some level =>
      cases hm : level.match? (Text.skipBlanks s) with
      | none =>
          rw [extend_of_no_match hl hm] at hx
          cases hx
          exact .noMatch hl hm
      | some found =>
          rw [extend_of_match hl hm] at hx
          obtain ⟨o, u, ho, hx⟩ := Outcome.andThen_eq_done hx
          exact .of_afterOperand hl hm ho hx

theorem extend_eq_done_iff :
    extend t h d (p + 1) l s = .done m r ↔ ChainStep t h d p l s m r := by
  refine ⟨.of_extend, fun hstep => ?_⟩
  cases hstep with
  | noLevel hl => exact extend_of_no_level hl
  | noMatch hl hm => exact extend_of_no_match hl hm
  | left hl ha hm ho hfit hnext =>
      rw [extend_left hl ha hm, ho, Outcome.done_andThen, Level.combine_fits hfit,
        Outcome.done_andThen, hnext]
  | right hl ha hm ho hnext hfit =>
      rw [extend_right hl ha hm, ho, Outcome.done_andThen, hnext, Outcome.done_andThen,
        Level.combine_fits hfit]
  | once hl ha hm ho hno hfit =>
      rw [extend_once hl ha hm, ho, Outcome.done_andThen, hno]
      exact Level.combine_fits hfit _ _

/-- An expression of the next precedence that is read is one of this precedence, gone on with. -/
theorem read_succ_eq_done_iff :
    read t h d (p + 1) s = .done m r ↔
      ∃ l u, read t h d p s = .done l u ∧ extend t h d (p + 1) l u = .done m r := by
  rw [read_succ]
  constructor
  · exact Outcome.andThen_eq_done
  · rintro ⟨l, u, hl, hx⟩
    rw [hl, Outcome.done_andThen, hx]

end Reading

end InfixArith
