import InfixArith.Proofs.Format.Lexemes
import InfixArith.Proofs.Grammar.Soundness

/-!
# Format — no parentheses to spare

No text that is read as a tree has fewer parentheses than the source text of the tree, or nests them
less (`format_minimal`); so none of the pairs in the source text can be left out.

The texts that are read are those that the grammar derives.  A derivation at precedence `p` of a tree
whose root binds more loosely than `p` has a pair of parentheses around it; this is what pays for the
parentheses of an operand (`Pays`).
-/

namespace InfixArith

variable {t : Table} {p : Nat} {ls : List Lexeme} {e : Expr}

namespace NumberStyle

/-- No parenthesis stands in the text of a double, finite or not. -/
theorem noParens_display (v : Float) : Text.NoParens (display.text v) := by
  cases hview : Binary64.view v with
  | notANumber =>
      rw [text, hview]
      decide +kernel
  | infinite negative =>
      rw [text, hview]
      cases negative <;> decide +kernel
  | finite negative k =>
      obtain ⟨n, hn, htext, -⟩ := exists_numeral display (Binary64.isFinite_of_view hview)
      exact htext ▸ Numeral.noParens hn

end NumberStyle

namespace Expr

/-- The source text of an operation. -/
theorem format_operation {entry : Entry} {o : Operator} (h : t.find? o = some entry) (l r : Expr) :
    format t (.binary o l r) =
      formatOperand t (some (entry.precedence, entry.associativity)) .left l ++
        (' ' :: (entry.token.toList ++ [' ']) ++
          formatOperand t (some (entry.precedence, entry.associativity)) .right r) := by
  have hoperand : ∀ (b : Bool) (e : Expr) (tail : List Char),
      Text.parenthesizeIf b (formatBefore t e) tail =
        Text.parenthesizeIf b (formatBefore t e) [] ++ tail := by
    intro b e tail
    cases b with
    | false => exact formatBefore_eq t e tail
    | true =>
        rw [Text.parenthesizeIf, Text.parenthesizeIf, if_pos rfl, if_pos rfl, formatBefore_eq,
          formatBefore_eq t e [')']]
        simp
  rw [format, formatBefore, h]
  dsimp only
  rw [hoperand _ l]
  simp [formatOperand]

/-- The source text of an operand, with its parentheses. -/
theorem formatOperand_eq (outer : Option (Nat × Associativity)) (side : Side) (e : Expr) :
    formatOperand t outer side e =
      if needsParens t outer side e then '(' :: (format t e ++ [')']) else format t e := by
  rw [formatOperand, Text.parenthesizeIf, formatBefore_eq t e [')']]
  rfl

end Expr

/-- The lexemes have at least the parentheses of a text and `extra` more, in number and in depth. -/
def Pays (ls : List Lexeme) (s : List Char) (extra : Nat) : Prop :=
  s.count '(' + extra ≤ Lexeme.openings ls ∧ Text.nesting s + extra ≤ Lexeme.nesting ls

theorem Pays.mono {s : List Char} {m n : Nat} (h : Pays ls s n) (hmn : m ≤ n) : Pays ls s m :=
  ⟨Nat.le_trans (Nat.add_le_add_left hmn _) h.1, Nat.le_trans (Nat.add_le_add_left hmn _) h.2⟩

/-- Whether a tree can stand at precedence `p` in parentheses only. -/
def Expr.mustEnclose (t : Table) (p : Nat) (e : Expr) : Nat := if p < e.precedence t then 1 else 0

/-- What a derivation pays for its tree covers the operand with its parentheses. -/
theorem Pays.operand {q : Nat} {a : Associativity} {side : Side}
    (hbal : Text.Balanced (e.format t)) (h : Pays ls (e.format t) (e.mustEnclose t q))
    (hq : q < p ∨ q = p ∧ a.parensOnTie side = false) :
    Text.Balanced (e.formatOperand t (some (p, a)) side) ∧
      Pays ls (e.formatOperand t (some (p, a)) side) 0 := by
  rw [Expr.formatOperand_eq]
  cases hneeds : Expr.needsParens t (some (p, a)) side e with
  | false => exact ⟨hbal, h.mono (Nat.zero_le _)⟩
  | true =>
      -- parentheses are written only for what the derivation encloses as well
      have hlt : q < e.precedence t := by
        rcases Expr.precedence_of_needsParens hneeds with hlt | ⟨heq, htie⟩
        · omega
        · rcases hq with hq | ⟨-, htie'⟩
          · omega
          · rw [htie] at htie'
            cases htie'
      rw [Expr.mustEnclose, if_pos hlt] at h
      rw [if_pos rfl]
      refine ⟨hbal.enclose, ?_, ?_⟩
      · simpa using h.1
      · rw [hbal.nesting_enclose]
        exact h.2

/-- What two derivations pay covers the operation of their trees. -/
theorem Pays.operation {ls rs : List Lexeme} {l r : Expr} {p pl pr : Nat} {entry : Entry}
    (hfree : t.ParenFree) (he : entry ∈ t.entries) (hd : Derives t p ls l)
    (hl : Text.Balanced (l.format t) ∧ Pays ls (l.format t) (l.mustEnclose t pl))
    (hr : Text.Balanced (r.format t) ∧ Pays rs (r.format t) (r.mustEnclose t pr))
    (hpl : pl < entry.precedence ∨
      pl = entry.precedence ∧ entry.associativity.parensOnTie .left = false)
    (hpr : pr < entry.precedence ∨
      pr = entry.precedence ∧ entry.associativity.parensOnTie .right = false) :
    Text.Balanced (Expr.format t (.binary entry.operator l r)) ∧
      Pays (ls ++ .token entry.token :: rs) (Expr.format t (.binary entry.operator l r))
        (Expr.mustEnclose t entry.precedence (.binary entry.operator l r)) := by
  obtain ⟨hbl, hcl, hnl⟩ := Pays.operand hl.1 hl.2 hpl
  obtain ⟨hbr, hcr, hnr⟩ := Pays.operand hr.1 hr.2 hpr
  have htok : Text.NoParens (' ' :: (entry.token.toList ++ [' '])) :=
    .cons (by decide) ((hfree entry he).append (by decide))
  have hbt := Text.balanced_of_noParens htok
  have hcount : (' ' :: (entry.token.toList ++ [' '])).count '(' = 0 :=
    List.count_eq_zero.mpr fun hmem => (htok _ hmem).1 rfl
  rw [Expr.mustEnclose, Expr.precedence_operation he, if_neg (Nat.lt_irrefl _),
    Expr.format_operation (Table.find?_operator he)]
  refine ⟨hbl.append (hbt.append hbr), ?_, ?_⟩
  · rw [List.count_append, List.count_append, hcount, Lexeme.openings_operation]
    omega
  · rw [hbl.nesting_append, hbt.nesting_append, Text.nesting_of_noParens htok,
      hd.nesting_operation]
    omega

/-- **A derivation pays for its tree.** -/
theorem Derives.pays (hplain : t.Plain) (hfree : t.ParenFree) (hd : Derives t p ls e) :
    Text.Balanced (e.format t) ∧ Pays ls (e.format t) (e.mustEnclose t p) := by
  induction hd with
  | @numeral n hn =>
      have hno : Text.NoParens (Expr.format t (.literal n.value)) := by
        rw [Expr.format, Expr.formatBefore, List.append_nil]
        exact NumberStyle.noParens_display _
      refine ⟨Text.balanced_of_noParens hno, ?_, ?_⟩
      · rw [List.count_eq_zero.mpr fun hmem => (hno _ hmem).1 rfl]
        exact Nat.zero_le _
      · rw [Text.nesting_of_noParens hno]
        exact Nat.zero_le _
  | @parens ls e hd ih =>
      obtain ⟨hbal, hcount, hnest⟩ := ih
      -- inside nothing need be paid for, and this pair pays for one more
      have hone : e.mustEnclose t 0 ≤ 1 := by
        unfold Expr.mustEnclose
        split <;> decide
      refine ⟨hbal, ?_, ?_⟩
      · rw [Lexeme.openings_parens]
        omega
      · rw [hd.nesting_parens]
        omega
  | @operand p ls e hd ih =>
      refine ⟨ih.1, ih.2.mono ?_⟩
      unfold Expr.mustEnclose
      split <;> split <;> omega
  | left he hp ha hl _ ihl ihr =>
      rw [hplain _ he, ← hp]
      exact Pays.operation hfree he hl ihl ihr (.inr ⟨hp.symm, by rw [ha]; rfl⟩)
        (.inl (hp ▸ Nat.lt_succ_self _))
  | right he hp ha hl _ ihl ihr =>
      rw [hplain _ he, ← hp]
      exact Pays.operation hfree he hl ihl ihr (.inl (hp ▸ Nat.lt_succ_self _))
        (.inr ⟨hp.symm, by rw [ha]; rfl⟩)
  | once he hp ha hl _ ihl ihr =>
      rw [hplain _ he, ← hp]
      exact Pays.operation hfree he hl ihl ihr (.inl (hp ▸ Nat.lt_succ_self _))
        (.inl (hp ▸ Nat.lt_succ_self _))

namespace Reading

/-- A text that is read as a tree has at least the parentheses of its source text. -/
theorem count_format_le (hplain : t.Plain) (hfree : t.ParenFree) {limits : Limits}
    {s : List Char} (hok : (ofSource t limits s).result = .ok e) :
    (e.format t).count '(' ≤ s.count '(' ∧ Text.nesting (e.format t) ≤ Text.nesting s := by
  obtain ⟨-, ls, hspell, hd⟩ := run_whole_sound hok
  obtain ⟨-, hcount, hnest⟩ := hd.pays hplain hfree
  obtain ⟨hnesting, hopenings⟩ := hd.parens_text hfree hspell
  rw [hopenings] at hcount
  rw [hnesting] at hnest
  exact ⟨Nat.le_trans (Nat.le_add_right _ _) hcount, Nat.le_trans (Nat.le_add_right _ _) hnest⟩

/-- **Minimal parentheses.**  A text that is read as a tree opens at least as many parentheses as the
source text of the tree, and nests them at least as deep.  So no text that the source text becomes
when an opening and a closing parenthesis are deleted is read as that tree. -/
theorem format_minimal (hplain : t.Plain) (hfree : t.ParenFree) {limits : Limits}
    {s : List Char} (hok : (ofSource t limits s).result = .ok e) :
    (e.format t).count '(' ≤ s.count '(' ∧ Text.nesting (e.format t) ≤ Text.nesting s ∧
      ∀ a b c, e.format t = a ++ '(' :: (b ++ ')' :: c) →
        ∀ limits, (ofSource t limits (a ++ (b ++ c))).result ≠ .ok e := by
  obtain ⟨hcount, hnest⟩ := count_format_le hplain hfree hok
  refine ⟨hcount, hnest, fun a b c hformat limits' hok' => ?_⟩
  -- the text without the pair would be read with one parenthesis less than its tree needs
  have hle := (count_format_le hplain hfree hok').1
  rw [hformat] at hle
  rw [List.count_append, List.count_cons_self, List.count_append, List.count_append,
    List.count_append, List.count_cons_of_ne (by decide)] at hle
  omega

/-- The parentheses of `((1)) - (2*3)` are not needed, and none are written. -/
theorem format_minimal_difference :
    let number (digit : Char) : Expr := .literal (Numeral.value ⟨none, [digit], none, none⟩)
    let e : Expr := .binary .sub (number '1') (.binary .mul (number '2') (number '3'))
    (e.format .arithmetic).count '(' ≤ 3 ∧ Text.nesting (e.format .arithmetic) ≤ 2 := by
  intro number e
  have hok : (ofSource .arithmetic .usual "((1)) - (2*3)".toList).result = .ok e := rfl
  obtain ⟨hcount, hnest, -⟩ := format_minimal Table.plain_arithmetic (by decide +kernel) hok
  exact ⟨hcount, hnest⟩

end Reading

end InfixArith
