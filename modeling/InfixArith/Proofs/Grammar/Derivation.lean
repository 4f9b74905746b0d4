import InfixArith.Proofs.Grammar.Lexeme
import InfixArith.Table.Basic

/-!
# Grammar — the grammar of a table

`Derives t p ls e`: the lexemes `ls` are an expression of precedence `p` in the grammar of the table
`t`, and stand for the tree `e`.  An expression of precedence `0` is a numeral or an expression of
the loosest level in parentheses; one of precedence `p + 1` is a chain of expressions of precedence
`p` with tokens of precedence `p + 1` between them.  The chain is nested to the left or to the right
as its level groups, and has one token at most if the level does not group.  Where the table has no
entry of precedence `p + 1`, the expressions are those of precedence `p`.

* `Derives.balanced`: the parentheses of a derivation are balanced.
* `Derives.outside_le`: outside parentheses an expression of precedence `p` has tokens of precedence
  `p` or tighter only.
-/

namespace InfixArith

/-- No token holds a parenthesis. -/
def Table.ParenFree (t : Table) : Prop := ∀ e ∈ t.entries, Text.NoParens e.token.toList

instance Table.decidableParenFree (t : Table) : Decidable t.ParenFree :=
  List.decidableBAll _ t.entries

/-- The lexemes `ls` are an expression of precedence `p` that stands for a tree. -/
inductive Derives (t : Table) : (p : Nat) → (ls : List Lexeme) → Expr → Prop where
  | numeral {n : Numeral} (hn : n.WellFormed) : Derives t 0 [.numeral n] (.literal n.value)
  | parens {ls : List Lexeme} {e : Expr} (h : Derives t t.maxPrecedence ls e) :
      Derives t 0 (.opening :: (ls ++ [.closing])) e
  /-- A chain of one operand. -/
  | operand {p : Nat} {ls : List Lexeme} {e : Expr} (h : Derives t p ls e) : Derives t (p + 1) ls e
  /-- A chain that is nested to the left, and another operand. -/
  | left {p : Nat} {ls rs : List Lexeme} {l r : Expr} {entry : Entry} (he : entry ∈ t.entries)
      (hp : entry.precedence = p + 1) (ha : entry.associativity = .leftToRight)
      (hl : Derives t (p + 1) ls l) (hr : Derives t p rs r) :
      Derives t (p + 1) (ls ++ .token entry.token :: rs) (entry.build l r)
  /-- An operand, and a chain that is nested to the right. -/
  | right {p : Nat} {ls rs : List Lexeme} {l r : Expr} {entry : Entry} (he : entry ∈ t.entries)
      (hp : entry.precedence = p + 1) (ha : entry.associativity = .rightToLeft)
      (hl : Derives t p ls l) (hr : Derives t (p + 1) rs r) :
      Derives t (p + 1) (ls ++ .token entry.token :: rs) (entry.build l r)
  /-- Two operands of a level that does not group. -/
  | once {p : Nat} {ls rs : List Lexeme} {l r : Expr} {entry : Entry} (he : entry ∈ t.entries)
      (hp : entry.precedence = p + 1) (ha : entry.associativity = .nonAssociative)
      (hl : Derives t p ls l) (hr : Derives t p rs r) :
      Derives t (p + 1) (ls ++ .token entry.token :: rs) (entry.build l r)

namespace Lexeme

/-- The tokens outside parentheses, from a place on where `k` parentheses are open. -/
def outsideFrom : Nat → List Lexeme → List String
  | _,     []              => []
  | k,     .opening :: ls  => outsideFrom (k + 1) ls
  | k,     .closing :: ls  => outsideFrom (k - 1) ls
  | 0,     .token x :: ls  => x :: outsideFrom 0 ls
  | k + 1, .token _ :: ls  => outsideFrom (k + 1) ls
  | k,     .numeral _ :: ls => outsideFrom k ls

/-- The tokens outside parentheses. -/
def outside (ls : List Lexeme) : List String := outsideFrom 0 ls

/-- The lexemes leave as many parentheses open as there were, and inside parentheses are inside
them altogether. -/
structure Enclosable (ls : List Lexeme) : Prop where
  inside : ∀ k rs, outsideFrom (k + 1) (ls ++ rs) = outsideFrom (k + 1) rs
  outside : ∀ rs, Lexeme.outside (ls ++ rs) = Lexeme.outside ls ++ Lexeme.outside rs

namespace Enclosable

variable {ls rs : List Lexeme}

theorem numeral (n : Numeral) : Enclosable [.numeral n] := ⟨fun _ _ => rfl, fun _ => rfl⟩

theorem enclose (h : Enclosable ls) : Enclosable (.opening :: (ls ++ [.closing])) := by
  have hopen : ∀ k rs, outsideFrom k (.opening :: (ls ++ [.closing]) ++ rs) = outsideFrom k rs := by
    intro k rs
    rw [List.cons_append, List.append_assoc, outsideFrom, h.inside]
    rfl
  refine ⟨fun k rs => hopen (k + 1) rs, fun rs => ?_⟩
  have hnone : Lexeme.outside (.opening :: (ls ++ [.closing])) = [] := by
    have := hopen 0 []
    rwa [List.append_nil] at this
  rw [hnone]
  exact hopen 0 rs

theorem outside_operation (hl : Enclosable ls) (x : String) (rs : List Lexeme) :
    Lexeme.outside (ls ++ .token x :: rs) = Lexeme.outside ls ++ x :: Lexeme.outside rs :=
  hl.outside (.token x :: rs)

theorem operation (hl : Enclosable ls) (hr : Enclosable rs) (x : String) :
    Enclosable (ls ++ .token x :: rs) := by
  refine ⟨fun k ts => ?_, fun ts => ?_⟩
  · rw [List.append_assoc, hl.inside, List.cons_append, outsideFrom, hr.inside]
  · rw [List.append_assoc, List.cons_append, hl.outside_operation, hl.outside_operation, hr.outside,
      List.append_assoc, List.cons_append]

end Enclosable

end Lexeme

/-- The tokens outside parentheses are of precedence `p` or tighter. -/
def OutsideLe (t : Table) (p : Nat) (ls : List Lexeme) : Prop :=
  ∀ x ∈ Lexeme.outside ls, ∃ entry ∈ t.entries, entry.token = x ∧ entry.precedence ≤ p

namespace OutsideLe

variable {t : Table} {p : Nat} {ls rs : List Lexeme}

theorem loosen (h : OutsideLe t p ls) : OutsideLe t (p + 1) ls := by
  intro x hx
  obtain ⟨entry, he, htok, hp⟩ := h x hx
  exact ⟨entry, he, htok, Nat.le_succ_of_le hp⟩

theorem operation {entry : Entry} (he : entry ∈ t.entries) (hp : entry.precedence = p)
    (henc : Lexeme.Enclosable ls) (hl : OutsideLe t p ls) (hr : OutsideLe t p rs) :
    OutsideLe t p (ls ++ .token entry.token :: rs) := by
  intro x hx
  rw [henc.outside_operation] at hx
  rcases List.mem_append.mp hx with hx | hx
  · exact hl x hx
  · rcases List.mem_cons.mp hx with rfl | hx
    · exact ⟨entry, he, rfl, Nat.le_of_eq hp⟩
    · exact hr x hx

end OutsideLe

/-- Operands and operators alternate: numerals and opening parentheses stand where an operand is
`expected`, closing parentheses and tokens of the table where one has ended. -/
inductive Alternates (t : Table) : (expected : Bool) → List Lexeme → Prop where
  | nil : Alternates t false []
  | numeral {n : Numeral} {ls : List Lexeme} (hn : n.WellFormed) (h : Alternates t false ls) :
      Alternates t true (.numeral n :: ls)
  | opening {ls : List Lexeme} (h : Alternates t true ls) : Alternates t true (.opening :: ls)
  | closing {ls : List Lexeme} (h : Alternates t false ls) : Alternates t false (.closing :: ls)
  | token {entry : Entry} {ls : List Lexeme} (he : entry ∈ t.entries) (h : Alternates t true ls) :
      Alternates t false (.token entry.token :: ls)

namespace Alternates

variable {t : Table} {ls : List Lexeme} {s : List Char}

/-- An operand begins with a parenthesis or as numerals do. -/
theorem head_operand (ha : Alternates t true ls) (hs : Spells ls s) :
    ∀ c ∈ s.head?, Text.isBlank c = true ∨ c.isDigit = true ∨ c ∈ ['(', '.', '+', '-'] := by
  intro c hc
  cases hs with
  | nil hb => cases ha
  | cons hb _ =>
      rcases Text.head_append hb hc with hc | hc
      · exact .inl hc
      · cases ha with
        | opening =>
            cases hc
            exact .inr (.inr List.mem_cons_self)
        | numeral hn =>
            obtain ⟨d, x, htext, hd⟩ := Numeral.head_text hn
            rw [Lexeme.text, htext] at hc
            cases hc
            refine .inr (hd.imp_right fun hd => ?_)
            simpa using Or.inr hd

/-- After an operand stands a closing parenthesis or a token. -/
theorem head_operator (ha : Alternates t false ls) (hs : Spells ls s) :
    ∀ c ∈ s.head?, Text.isBlank c = true ∨ c = ')' ∨
      ∃ entry ∈ t.entries, c ∈ entry.token.toList.head? := by
  intro c hc
  cases hs with
  | nil hb => exact .inl (hb c (List.mem_of_mem_head? hc))
  | cons hb _ =>
      rcases Text.head_append hb hc with hc | hc
      · exact .inl hc
      · cases ha with
        | closing =>
            cases hc
            exact .inr (.inl rfl)
        | @token entry _ he =>
            refine .inr (.inr ⟨entry, he, ?_⟩)
            rwa [Lexeme.text, List.head?_append_of_ne_nil _ (Table.token_ne_nil he)] at hc

end Alternates

namespace Derives

variable {t : Table} {p : Nat} {ls : List Lexeme} {e : Expr}

/-- A tighter expression is one of any looser precedence. -/
theorem mono {q : Nat} (h : Derives t p ls e) (hpq : p ≤ q) : Derives t q ls e := by
  induction hpq with
  | refl => exact h
  | step _ ih => exact .operand ih

/-- An operation, whichever way its level groups: the side it groups to may be of the same
precedence, any other operand is tighter. -/
theorem operation {entry : Entry} {ls rs : List Lexeme} {l r : Expr} {pl pr : Nat}
    (he : entry ∈ t.entries) (hl : Derives t pl ls l) (hr : Derives t pr rs r)
    (hpl : pl < entry.precedence ∨
      pl = entry.precedence ∧ entry.associativity = .leftToRight)
    (hpr : pr < entry.precedence ∨
      pr = entry.precedence ∧ entry.associativity = .rightToLeft) :
    Derives t entry.precedence (ls ++ .token entry.token :: rs) (entry.build l r) := by
  obtain ⟨p, hp⟩ := Nat.exists_eq_succ_of_ne_zero (Nat.ne_of_gt (t.valid.precedence_pos entry he))
  rw [hp] at hpl hpr ⊢
  -- the side that the level does not group to is strictly tighter
  have le_of : ∀ {q : Nat} {a b : Associativity}, a ≠ b → entry.associativity = b →
      (q < p + 1 ∨ q = p + 1 ∧ entry.associativity = a) → q ≤ p := by
    rintro q a b hab hb (hlt | ⟨-, ha⟩)
    · exact Nat.le_of_lt_succ hlt
    · exact absurd (ha.symm.trans hb) hab
  have le_succ : ∀ {q : Nat} {a : Associativity},
      (q < p + 1 ∨ q = p + 1 ∧ entry.associativity = a) → q ≤ p + 1 := by
    rintro q a (hlt | ⟨heq, -⟩)
    · exact Nat.le_of_lt hlt
    · exact Nat.le_of_eq heq
  cases ha : entry.associativity with
  | leftToRight =>
      exact .left he hp ha (hl.mono (le_succ hpl)) (hr.mono (le_of (by decide) ha hpr))
  | rightToLeft =>
      exact .right he hp ha (hl.mono (le_of (by decide) ha hpl)) (hr.mono (le_succ hpr))
  | nonAssociative =>
      exact .once he hp ha (hl.mono (le_of (by decide) ha hpl)) (hr.mono (le_of (by decide) ha hpr))

/-! ### Lexemes -/

theorem numeral_wellFormed (h : Derives t p ls e) {n : Numeral} (hn : .numeral n ∈ ls) :
    n.WellFormed := by
  induction h with
  | numeral h =>
      cases List.mem_singleton.mp hn
      exact h
  | parens _ ih =>
      refine ih ?_
      simpa using hn
  | operand _ ih => exact ih hn
  | left _ _ _ _ _ ihl ihr | right _ _ _ _ _ ihl ihr | once _ _ _ _ _ ihl ihr =>
      rcases List.mem_append.mp hn with hn | hn
      · exact ihl hn
      · exact ihr (by simpa using hn)

/-- The tokens of a derivation are those of the table. -/
theorem exists_entry (h : Derives t p ls e) {x : String} (hx : .token x ∈ ls) :
    ∃ entry ∈ t.entries, entry.token = x := by
  induction h with
  | numeral => simp at hx
  | parens _ ih =>
      refine ih ?_
      simpa using hx
  | operand _ ih => exact ih hx
  | left he _ _ _ _ ihl ihr | right he _ _ _ _ ihl ihr | once he _ _ _ _ ihl ihr =>
      rcases List.mem_append.mp hx with hx | hx
      · exact ihl hx
      · rcases List.mem_cons.mp hx with heq | hx
        · cases heq
          exact ⟨_, he, rfl⟩
        · exact ihr hx

/-- In a derivation operands and operators alternate. -/
theorem alternates (h : Derives t p ls e) {ks : List Lexeme} (hk : Alternates t false ks) :
    Alternates t true (ls ++ ks) := by
  induction h generalizing ks with
  | numeral hn => exact .numeral hn hk
  | parens _ ih =>
      rw [List.cons_append, List.append_assoc]
      exact .opening (ih (.closing hk))
  | operand _ ih => exact ih hk
  | left he _ _ _ _ ihl ihr | right he _ _ _ _ ihl ihr | once he _ _ _ _ ihl ihr =>
      rw [List.append_assoc]
      exact ihl (.token he (ihr hk))

theorem alternates_self (h : Derives t p ls e) : Alternates t true ls := by
  have halt := h.alternates .nil
  rwa [List.append_nil] at halt

theorem balanced (h : Derives t p ls e) : Text.Balanced (Lexeme.parens ls) := by
  induction h with
  | numeral _ => exact Text.balanced_nil
  | parens _ ih =>
      rw [Lexeme.parens_enclose]
      exact ih.enclose
  | operand _ ih => exact ih
  | left _ _ _ _ _ ihl ihr | right _ _ _ _ _ ihl ihr | once _ _ _ _ _ ihl ihr =>
      rw [Lexeme.parens_operation]
      exact ihl.append ihr

theorem enclosable (h : Derives t p ls e) : Lexeme.Enclosable ls := by
  induction h with
  | numeral _ => exact .numeral _
  | parens _ ih => exact ih.enclose
  | operand _ ih => exact ih
  | left _ _ _ _ _ ihl ihr | right _ _ _ _ _ ihl ihr | once _ _ _ _ _ ihl ihr =>
      exact ihl.operation ihr _

/-- Outside parentheses stand tokens of the precedence of the expression or tighter ones. -/
theorem outside_le (h : Derives t p ls e) : OutsideLe t p ls := by
  induction h with
  | numeral _ => exact fun x hx => absurd hx List.not_mem_nil
  | parens h _ =>
      intro x hx
      have hnone := h.enclosable.inside 0 [.closing]
      rw [Lexeme.outside, Lexeme.outsideFrom, hnone] at hx
      cases hx
  | operand _ ih => exact ih.loosen
  | left he hp _ hl _ ihl ihr => exact .operation he hp hl.enclosable ihl ihr.loosen
  | right he hp _ hl _ ihl ihr => exact .operation he hp hl.enclosable ihl.loosen ihr
  | once he hp _ hl _ ihl ihr => exact .operation he hp hl.enclosable ihl.loosen ihr.loosen

/-! ### Parentheses -/

theorem nesting_parens (h : Derives t p ls e) :
    Lexeme.nesting (.opening :: (ls ++ [.closing])) = Lexeme.nesting ls + 1 := by
  rw [Lexeme.nesting, Lexeme.parens_enclose]
  exact h.balanced.nesting_enclose

theorem nesting_operation (h : Derives t p ls e) (x : String) (rs : List Lexeme) :
    Lexeme.nesting (ls ++ .token x :: rs) = max (Lexeme.nesting ls) (Lexeme.nesting rs) := by
  rw [Lexeme.nesting, Lexeme.parens_operation]
  exact h.balanced.nesting_append _

/-- Where no token holds a parenthesis, parentheses can be counted in the text. -/
theorem parens_text (h : Derives t p ls e) (ht : t.ParenFree) {s : List Char} (hs : Spells ls s) :
    Lexeme.nesting ls = Text.nesting s ∧ Lexeme.openings ls = s.count '(' := by
  have heq : Text.parens s = Lexeme.parens ls := by
    refine hs.parens_eq (fun n hn => h.numeral_wellFormed hn) fun x hx => ?_
    obtain ⟨entry, he, rfl⟩ := h.exists_entry hx
    exact ht entry he
  rw [Lexeme.nesting, Lexeme.openings, ← heq, Text.count_parens]
  exact ⟨Text.nestingFrom_parens 0 s, rfl⟩

end Derives

end InfixArith
