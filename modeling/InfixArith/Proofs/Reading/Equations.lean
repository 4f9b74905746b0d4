import InfixArith.Proofs.Reading.Rest

/-!
# Reading — equations without bounds

`read` is the outcome of an expression of a precedence or tighter, `extend` that of going on with
the chain of a precedence after its first operand.  They satisfy the equations one would take for
their definition: `read_zero`, `read_succ`, and one equation of `extend` for each way a level
groups, or one for them all (`extend_of_match`).  The bound of a chain does not show in them, for a
chain that is given the text it begins at never runs out of it (`chainLeft_bound`, `links_bound`); nor
do the links of a chain that groups to the right (`extend_right`).

`reading_induction` is the induction that goes with the equations: on the length of the text and, for
one text, on the precedence.
-/

namespace InfixArith

namespace Reply

variable {α β : Type}

/-- All that is seen of a reply: its notes in their order, and how reading ended. -/
def record (r : Reply α) : List Note × Outcome α := (r.notes.toList, r.outcome)

theorem andThen_congr {r : Reply α} {f g : α → List Char → Reply β}
    (h : ∀ v s, r.outcome = .done v s → f v s = g v s) : r.andThen f = r.andThen g := by
  obtain ⟨notes, outcome⟩ := r
  cases outcome with
  | done v s => simp only [andThen, h v s rfl]
  | failed f s n => rfl

end Reply

namespace Level

variable {maxHeight : Nat} {level : Level} {operand : List Char → Reply Measured}

theorem combine_eq_done {e : Entry} {place s s' : List Char} {l r m : Measured}
    (h : (combine maxHeight e place l r s).outcome = .done m s') :
    m = .build e l r ∧ s' = s ∧ max l.height r.height + 1 ≤ maxHeight := by
  unfold combine at h
  split at h
  · next hle =>
    cases h
    exact ⟨rfl, rfl, hle⟩
  · cases h

theorem combine_fits {e : Entry} {l r : Measured} (h : max l.height r.height + 1 ≤ maxHeight)
    (place s : List Char) :
    (combine maxHeight e place l r s).outcome = .done (.build e l r) s := by
  rw [combine, if_pos h]
  rfl

theorem combine_too_high {e : Entry} {l r : Measured}
    (h : ¬ max l.height r.height + 1 ≤ maxHeight) (place s : List Char) :
    (combine maxHeight e place l r s).outcome = .failed (.treeTooDeep place) s 0 := by
  rw [combine, if_neg h]
  rfl

/-- A chain ends where no token is matched. -/
theorem chain_of_no_match {l : Measured} {s : List Char}
    (hm : level.match? (Text.skipBlanks s) = none) :
    (level.chain maxHeight operand l s).record = ([], .done l (Text.skipBlanks s)) := by
  unfold chain
  split
  · cases s with
    | nil => rfl
    | cons c s =>
        simp only [chainLeft, hm]
        rfl
  · cases s with
    | nil => rfl
    | cons c s =>
        simp only [links, hm]
        rfl
  · simp only [chainOnce, hm]
    rfl

section Bounds

variable (hmatch : ∀ {s r e}, level.match? s = some (e, r) → r.length < s.length)
  (hop : ∀ s, (operand s).outcome.rest <:+ s)

include hmatch

theorem match?_nil : level.match? (Text.skipBlanks []) = none := by
  cases h : level.match? (Text.skipBlanks []) with
  | none => rfl
  | some found => exact absurd (hmatch h) (Nat.not_lt_zero _)

theorem length_match {s r : List Char} {e : Entry}
    (h : level.match? (Text.skipBlanks s) = some (e, r)) : r.length < s.length :=
  Nat.lt_of_lt_of_le (hmatch h) (Text.length_skipBlanks_le s)

/-- Nothing is read of an empty text, whatever the bound. -/
theorem chainLeft_nil (b : List Char) (l : Measured) :
    chainLeft maxHeight level operand b l [] = .done l [] := by
  cases b with
  | nil => rfl
  | cons c b =>
      simp only [chainLeft, match?_nil hmatch]
      rfl

theorem links_nil (b : List Char) : links level operand b [] = .done [] [] := by
  cases b with
  | nil => rfl
  | cons c b =>
      simp only [links, match?_nil hmatch]
      rfl

include hop

theorem length_operand {s r s' : List Char} {e : Entry} {m : Measured}
    (h : level.match? (Text.skipBlanks s) = some (e, r)) (hm : (operand r).outcome = .done m s') :
    s'.length < s.length := by
  have hr := (hop r).length_le
  rw [hm] at hr
  exact Nat.lt_of_le_of_lt hr (length_match hmatch h)

/-- A chain does not depend on its bound. -/
theorem chainLeft_bound {b b' s : List Char} (l : Measured) (hb : s.length ≤ b.length)
    (hb' : s.length ≤ b'.length) :
    chainLeft maxHeight level operand b l s = chainLeft maxHeight level operand b' l s := by
  induction b generalizing b' l s with
  | nil =>
      obtain rfl : s = [] := List.length_eq_zero_iff.mp (Nat.le_zero.mp hb)
      rw [chainLeft_nil hmatch, chainLeft_nil hmatch]
  | cons c b ih =>
      cases b' with
      | nil =>
          obtain rfl : s = [] := List.length_eq_zero_iff.mp (Nat.le_zero.mp hb')
          rw [chainLeft_nil hmatch, chainLeft_nil hmatch]
      | cons c' b' =>
          simp only [chainLeft]
          split
          · rfl
          · next e r hm =>
            refine congrArg _ (Reply.andThen_congr fun m s' hs' => ?_)
            have hlt := length_operand hmatch hop hm hs'
            refine Reply.andThen_congr fun both s'' hs'' => ?_
            obtain ⟨-, rfl, -⟩ := combine_eq_done hs''
            exact ih both (Nat.le_of_lt_succ (Nat.lt_of_lt_of_le hlt hb))
              (Nat.le_of_lt_succ (Nat.lt_of_lt_of_le hlt hb'))

/-- The links of a chain do not depend on the bound. -/
theorem links_bound {b b' s : List Char} (hb : s.length ≤ b.length) (hb' : s.length ≤ b'.length) :
    links level operand b s = links level operand b' s := by
  induction b generalizing b' s with
  | nil =>
      obtain rfl : s = [] := List.length_eq_zero_iff.mp (Nat.le_zero.mp hb)
      rw [links_nil hmatch, links_nil hmatch]
  | cons c b ih =>
      cases b' with
      | nil =>
          obtain rfl : s = [] := List.length_eq_zero_iff.mp (Nat.le_zero.mp hb')
          rw [links_nil hmatch, links_nil hmatch]
      | cons c' b' =>
          simp only [links]
          split
          · rfl
          · next e r hm =>
            refine congrArg _ (Reply.andThen_congr fun m s' hs' => ?_)
            have hlt := length_operand hmatch hop hm hs'
            rw [ih (Nat.le_of_lt_succ (Nat.lt_of_lt_of_le hlt hb))
              (Nat.le_of_lt_succ (Nat.lt_of_lt_of_le hlt hb'))]

end Bounds

end Level

namespace Reading

variable (t : Table) (h d : Nat)

/-- The outcome of an expression of precedence `p` or tighter, of height `h` at most and nesting `d`
at most. -/
def read (p : Nat) (s : List Char) : Outcome Measured :=
  (expression t h d (t.levelsUpTo p) s).outcome

/-- The outcome of going on with the chain of precedence `p` after the operand `l`. -/
def extend (p : Nat) (l : Measured) (s : List Char) : Outcome Measured :=
  match t.level? p with
  | none       => .done l s
  | some level => (level.chain h (expression t h d (t.levelsUpTo (p - 1))) l s).outcome

variable {t h d} {level : Level} {p : Nat} {l : Measured} {s r : List Char} {e : Entry}

theorem read_rest (p : Nat) (s : List Char) : (read t h d p s).rest <:+ s :=
  expression_rest t h d (t.levelsUpTo p) s

theorem suffix_of_read {m : Measured} (hr : read t h d p s = .done m r) : r <:+ s := by
  have hrest := read_rest (t := t) (h := h) (d := d) p s
  rwa [hr] at hrest

theorem length_read {m : Measured} (hr : read t h d p s = .done m r) : r.length ≤ s.length :=
  (suffix_of_read hr).length_le

theorem extend_rest (p : Nat) (l : Measured) (s : List Char) :
    (extend t h d p l s).rest <:+ s := by
  unfold extend
  split
  · exact List.suffix_refl s
  · exact Level.chain_rest (expression_rest t h d _) l s

theorem length_extend {m : Measured} (hx : extend t h d p l s = .done m r) :
    r.length ≤ s.length := by
  have hle := (extend_rest (t := t) (h := h) (d := d) p l s).length_le
  rwa [hx] at hle

theorem length_of_match (hl : t.level? p = some level) (hm : level.match? s = some (e, r)) :
    r.length < s.length := by
  have he := (Table.mem_of_match? hl hm).1
  obtain ⟨-, hs, -⟩ := Level.match?_eq_some hm
  have hpos : 0 < e.token.toList.length := List.length_pos_iff.mpr (Table.token_ne_nil he)
  rw [← hs, List.length_append]
  omega

theorem length_skip_match (hl : t.level? p = some level)
    (hm : level.match? (Text.skipBlanks s) = some (e, r)) : r.length < s.length :=
  Nat.lt_of_lt_of_le (length_of_match hl hm) (Text.length_skipBlanks_le s)

/-- An operator and its operand take some text. -/
theorem length_link (hl : t.level? p = some level)
    (hm : level.match? (Text.skipBlanks s) = some (e, r)) {q : Nat} {m : Measured} {u : List Char}
    (ho : read t h d q r = .done m u) : u.length < s.length :=
  Nat.lt_of_le_of_lt (length_read ho) (length_skip_match hl hm)

/-! ### Operands -/

theorem outcome_operand (inner : Option (List Char → Reply Measured)) (s : List Char) :
    (operand inner s).outcome =
      match Text.skipBlanks s with
      | [] => .failed (.endOfText .operand) [] 0
      | '(' :: r =>
        match inner with
        | none       => .failed (.nestingTooDeep ('(' :: r)) r 0
        | some inner =>
          (inner r).outcome.enclosed.andThen fun e s =>
            (closing s).outcome.andThen fun _ s => .done e s
      | r =>
        match Numeral.scan? r with
        | none        => .failed (.notOperand r) r 0
        | some (n, s) => .done (.literal n.value) s := by
  unfold operand
  cases Text.skipBlanks s with
  | nil => rfl
  | cons c r =>
      by_cases hopen : c = '('
      · subst hopen
        cases inner <;> simp
      · simp only [List.cons.injEq, hopen, false_and, imp_self, implies_true]
        cases Numeral.scan? (c :: r) <;> rfl

/-- Below the tightest level stands a numeral or, where more nesting is allowed, parentheses. -/
theorem read_zero (t : Table) (h d : Nat) (s : List Char) :
    read t h d 0 s =
      match Text.skipBlanks s with
      | [] => .failed (.endOfText .operand) [] 0
      | '(' :: r =>
        match d with
        | 0     => .failed (.nestingTooDeep ('(' :: r)) r 0
        | d + 1 =>
          (read t h d t.maxPrecedence r).enclosed.andThen fun e s =>
            (closing s).outcome.andThen fun _ s => .done e s
      | r =>
        match Numeral.scan? r with
        | none        => .failed (.notOperand r) r 0
        | some (n, s) => .done (.literal n.value) s := by
  unfold read
  rw [Table.levelsUpTo_zero, Table.levelsUpTo_maxPrecedence]
  cases d with
  | zero => exact outcome_operand none s
  | succ d =>
      exact outcome_operand (some fun s =>
        Level.descend h (atom h t.levels.reverse d) t.levels.reverse s) s

theorem read_nothing (hs : Text.skipBlanks s = []) :
    read t h d 0 s = .failed (.endOfText .operand) [] 0 := by
  rw [read_zero, hs]

theorem read_numeral {c : Char} (hs : Text.skipBlanks s = c :: r) (hc : c ≠ '(') :
    read t h d 0 s =
      match Numeral.scan? (c :: r) with
      | none        => .failed (.notOperand (c :: r)) (c :: r) 0
      | some (n, s) => .done (.literal n.value) s := by
  rw [read_zero, hs]
  split
  · next heq => cases heq
  · next heq => exact absurd (List.cons.inj heq).1 hc
  · rfl

theorem read_parens (hs : Text.skipBlanks s = '(' :: r) :
    read t h (d + 1) 0 s = (read t h d t.maxPrecedence r).enclosed.andThen fun e s =>
      (closing s).outcome.andThen fun _ s => .done e s := by
  rw [read_zero, hs]
  rfl

theorem read_parens_too_deep (hs : Text.skipBlanks s = '(' :: r) :
    read t h 0 0 s = .failed (.nestingTooDeep ('(' :: r)) r 0 := by
  rw [read_zero, hs]
  rfl

/-- An expression of the next precedence is one of this precedence, gone on with. -/
theorem read_succ (p : Nat) (s : List Char) :
    read t h d (p + 1) s = (read t h d p s).andThen (extend t h d (p + 1)) := by
  unfold read extend
  rw [Table.levelsUpTo_succ]
  cases t.level? (p + 1) with
  | none => exact (Outcome.andThen_done _).symm
  | some level =>
      simp only [Option.toList_some, List.singleton_append, expression, Level.descend,
        Reply.outcome_after, Reply.outcome_andThen, Nat.add_sub_cancel]
      rfl

/-! ### Chains -/

theorem extend_of_no_level (hl : t.level? p = none) : extend t h d p l s = .done l s := by
  rw [extend, hl]

theorem extend_of_no_match (hl : t.level? p = some level)
    (hm : level.match? (Text.skipBlanks s) = none) :
    extend t h d p l s = .done l (Text.skipBlanks s) := by
  rw [extend, hl]
  exact congrArg Prod.snd (Level.chain_of_no_match hm)

/-- To the left: an operation is built as soon as its right operand is read. -/
theorem extend_left (hl : t.level? (p + 1) = some level)
    (ha : level.associativity = .leftToRight)
    (hm : level.match? (Text.skipBlanks s) = some (e, r)) :
    extend t h d (p + 1) l s =
      (read t h d p r).andThen fun m s' =>
        (Level.combine h e (Text.skipBlanks s) l m s').outcome.andThen (extend t h d (p + 1)) := by
  have hlen := length_skip_match hl hm
  simp only [extend, hl, Level.chain, ha, Nat.add_sub_cancel]
  cases s with
  | nil => exact absurd hlen (Nat.not_lt_zero _)
  | cons c s =>
      rw [Level.chainLeft]
      simp only [hm, Reply.outcome_after, Reply.outcome_andThen]
      refine Outcome.andThen_congr fun m s' hs' => ?_
      have hle : s'.length ≤ r.length := length_read hs'
      refine Outcome.andThen_congr fun both s'' hc => ?_
      obtain ⟨-, rfl, -⟩ := Level.combine_eq_done hc
      -- what is left of the bound is as good as the text left, which `extend` takes for one
      rw [Level.chainLeft_bound (length_of_match hl)
        (expression_rest t h d (t.levelsUpTo p)) both
        (Nat.le_of_lt_succ (Nat.lt_of_le_of_lt hle hlen)) (Nat.le_refl _)]
      simp only [extend, hl, Level.chain, ha, Nat.add_sub_cancel]

/-- To the right: the rest of the chain is built before the operation it is the operand of. -/
theorem extend_right (hl : t.level? (p + 1) = some level)
    (ha : level.associativity = .rightToLeft)
    (hm : level.match? (Text.skipBlanks s) = some (e, r)) :
    extend t h d (p + 1) l s =
      (read t h d p r).andThen fun m s' =>
        (extend t h d (p + 1) m s').andThen fun both s'' =>
          (Level.combine h e (Text.skipBlanks s) l both s'').outcome := by
  have hlen := length_skip_match hl hm
  simp only [extend, hl, Level.chain, ha, Nat.add_sub_cancel]
  cases s with
  | nil => exact absurd hlen (Nat.not_lt_zero _)
  | cons c s =>
      rw [Reply.outcome_andThen, Level.links]
      simp only [hm, Reply.outcome_after, Reply.outcome_andThen, Outcome.andThen_assoc]
      refine Outcome.andThen_congr fun m s' hs' => ?_
      have hle : s'.length ≤ r.length := length_read hs'
      have hbound : s'.length ≤ s.length := Nat.le_of_lt_succ (Nat.lt_of_le_of_lt hle hlen)
      rw [Level.links_bound (length_of_match hl) (expression_rest t h d (t.levelsUpTo p)) hbound
        (Nat.le_refl s'.length)]
      simp only [Reply.outcome_done, Outcome.done_andThen, Level.foldLinks, Reply.outcome_andThen]

/-- Not at all: a second operator of the level is a fault. -/
theorem extend_once (hl : t.level? (p + 1) = some level)
    (ha : level.associativity = .nonAssociative)
    (hm : level.match? (Text.skipBlanks s) = some (e, r)) :
    extend t h d (p + 1) l s =
      (read t h d p r).andThen fun m s' =>
        match level.match? (Text.skipBlanks s') with
        | some (again, _) =>
          .failed (.chained again.token (Text.skipBlanks s')) (Text.skipBlanks s') 0
        | none =>
          (Level.combine h e (Text.skipBlanks s) l m (Text.skipBlanks s')).outcome := by
  simp only [extend, hl, Level.chain, ha, Nat.add_sub_cancel, Level.chainOnce, hm,
    Reply.outcome_after, Reply.outcome_andThen]
  refine Outcome.andThen_congr fun m s' _ => ?_
  cases level.match? (Text.skipBlanks s') <;> rfl

/-- What a level makes of an operator that stands at `place` between `l` and the operand `m`. -/
def afterOperand (t : Table) (h d p : Nat) (level : Level) (e : Entry) (place : List Char)
    (l m : Measured) (s : List Char) : Outcome Measured :=
  match level.associativity with
  | .leftToRight => (Level.combine h e place l m s).outcome.andThen (extend t h d (p + 1))
  | .rightToLeft =>
    (extend t h d (p + 1) m s).andThen fun both u => (Level.combine h e place l both u).outcome
  | .nonAssociative =>
    match level.match? (Text.skipBlanks s) with
    | some (again, _) => .failed (.chained again.token (Text.skipBlanks s)) (Text.skipBlanks s) 0
    | none            => (Level.combine h e place l m (Text.skipBlanks s)).outcome

/-- However the level groups, the operand after a token is read first. -/
theorem extend_of_match (hl : t.level? (p + 1) = some level)
    (hm : level.match? (Text.skipBlanks s) = some (e, r)) :
    extend t h d (p + 1) l s =
      (read t h d p r).andThen (afterOperand t h d p level e (Text.skipBlanks s) l) := by
  unfold afterOperand
  cases ha : level.associativity with
  | leftToRight => exact extend_left hl ha hm
  | rightToLeft => exact extend_right hl ha hm
  | nonAssociative => exact extend_once hl ha hm

/-! ### Induction -/

/-- What holds of `read` at a precedence and a text, and of `extend` at a text, holds of both
everywhere if it follows from what the equations refer to. -/
theorem reading_induction {R : Nat → List Char → Prop} {E : List Char → Prop}
    (zero : ∀ s, (∀ r : List Char, r.length < s.length → ∀ p, R p r) → R 0 s)
    (succ : ∀ p s, R p s → (∀ r : List Char, r.length ≤ s.length → E r) → R (p + 1) s)
    (chain : ∀ s, (∀ r : List Char, r.length < s.length → (∀ p, R p r) ∧ E r) → E s)
    (s : List Char) : (∀ p, R p s) ∧ E s := by
  induction hn : s.length using Nat.strongRecOn generalizing s with
  | ind n ih =>
      have below : ∀ r : List Char, r.length < s.length → (∀ p, R p r) ∧ E r :=
        fun r hr => ih r.length (hn ▸ hr) r rfl
      have upTo : ∀ r : List Char, r.length ≤ s.length → E r := fun r hr =>
        chain r fun q hq => below q (Nat.lt_of_lt_of_le hq hr)
      -- `extend` asks for shorter texts only, so at one text it comes before `read`
      refine ⟨fun p => ?_, upTo s (Nat.le_refl _)⟩
      induction p with
      | zero => exact zero s fun r hr => (below r hr).1
      | succ p ihp => exact succ p s ihp upTo

end Reading

end InfixArith
