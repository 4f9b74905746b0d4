import InfixArith.Proofs.Format.Lexemes

/-!
# Format — the source text reads back

For a table with legible tokens the source text of a tree is read as that tree, bit for bit, exactly
when the parentheses it is written with and the tree itself keep to the limits; otherwise the error
is a limit that was reached (`ofSource_format`).
-/

namespace InfixArith.Reading

variable {t : Table}

/-- **Round trip.**  A tree whose operators the table has and whose literals are finite is read back
from its source text exactly under the limits that its parentheses and its height keep to.  Under any
other limits, one of them is the error. -/
theorem ofSource_format (ht : t.Legible) {e : Expr} (he : e.Writable t) (limits : Limits) :
    ((ofSource t limits (e.format t)).result = .ok e ↔
      Lexeme.nesting (e.lexemes t) ≤ limits.maxNesting ∧ e.height ≤ limits.maxHeight) ∧
    (¬ (Lexeme.nesting (e.lexemes t) ≤ limits.maxNesting ∧ e.height ≤ limits.maxHeight) →
      ∃ offset,
        (ofSource t limits (e.format t)).result =
            .error (.nestingTooDeep limits.maxNesting offset) ∨
          (ofSource t limits (e.format t)).result =
            .error (.treeTooDeep limits.maxHeight offset)) ∧
    Spells (e.lexemes t) (e.format t) ∧
    (t.ParenFree → Lexeme.nesting (e.lexemes t) = Text.nesting (e.format t)) := by
  have hd := (Expr.derives_lexemes ht.plain he).mono (Expr.precedence_le_maxPrecedence t e)
  have hread : Readable t (e.lexemes t) (e.format t) := by
    rw [← List.append_nil (e.lexemes t)]
    exact Expr.readable_formatBefore ht he (fun _ hc => nomatch hc) rfl
  obtain ⟨hfits, hrefused⟩ := ofSource_of_readable ht.plain hd hread limits
  refine ⟨⟨fun hok => ?_, hfits⟩, hrefused, hread.spells,
    fun hfree => (hd.parens_text hfree hread.spells).1⟩
  by_contra hno
  obtain ⟨offset, herr | herr⟩ := hrefused hno
  · rw [hok] at herr
    cases herr
  · rw [hok] at herr
    cases herr

/-- The difference `1.0 - (2.0 - 3.0)` needs one pair of parentheses and two operations. -/
theorem ofSource_format_difference :
    let number (digit : Char) : Expr := .literal (Numeral.value ⟨none, [digit], none, none⟩)
    let e : Expr := .binary .sub (number '1') (.binary .sub (number '2') (number '3'))
    (ofSource .arithmetic ⟨1, 2⟩ (e.format .arithmetic)).result = .ok e := by
  intro number e
  exact (ofSource_format Table.legible_arithmetic (e := e) (by decide +kernel) ⟨1, 2⟩).1.mpr
    ⟨by decide +kernel, by decide⟩

end InfixArith.Reading
