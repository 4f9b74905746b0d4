import InfixArith.Proofs.Format.Minimal
import InfixArith.Proofs.Grammar.Arithmetic

/-!
# Format — the source text of what was read

A tree that was read from a text can be read again from its source text under the same limits, if its
literals are finite (`ofSource_reformat`): its parentheses are no more than those of the text, and
the tree is the same.  A numeral beyond the greatest double is read as an infinite literal, whose text
is no numeral; then nothing can be read from the source text, under any limits.
-/

namespace InfixArith

open Reading (ofSource)

/-- Every literal is finite. -/
def Expr.Finite : Expr → Prop
  | .literal v    => v.isFinite
  | .binary _ l r => l.Finite ∧ r.Finite

instance Expr.decidableFinite : (e : Expr) → Decidable e.Finite
  | .literal v    => inferInstanceAs (Decidable (v.isFinite = true))
  | .binary _ l r =>
    have := decidableFinite l
    have := decidableFinite r
    inferInstanceAs (Decidable (l.Finite ∧ r.Finite))

namespace Arithmetic

variable {e : Expr} {ls : List Lexeme} {s : List Char}

theorem find?_isSome (o : Operator) : (Table.arithmetic.find? o).isSome := by
  cases o <;> decide

/-- The arithmetic table has every operator. -/
theorem writable_iff_finite : e.Writable .arithmetic ↔ e.Finite := by
  induction e with
  | literal v => exact Iff.rfl
  | binary o l r ihl ihr =>
      rw [Expr.Writable, Expr.Finite, ihl, ihr]
      exact and_iff_right (find?_isSome o)

/-- A text that is read as a tree has no more parentheses in it, and the tree is no higher, than the
limits allow. -/
theorem within_of_read {limits : Limits} (hok : (ofSource .arithmetic limits s).result = .ok e) :
    Text.nesting s ≤ limits.maxNesting ∧ e.height ≤ limits.maxHeight := by
  obtain ⟨-, ls, hspell, hd⟩ := Reading.run_whole_sound hok
  obtain ⟨hnest, hheight⟩ := (Reading.ofSource_eq_ok_iff Table.plain_arithmetic hd
    (readable_of_spells hspell hd.alternates_self) limits).mp hok
  exact ⟨(hd.parens_text (by decide +kernel) hspell).1 ▸ hnest, hheight⟩

/-- A tree with finite literals is read from its source text under limits that the text and the tree
keep to. -/
theorem read_format {limits : Limits} (he : e.Finite)
    (hnest : Text.nesting (e.format .arithmetic) ≤ limits.maxNesting)
    (hheight : e.height ≤ limits.maxHeight) :
    (ofSource .arithmetic limits (e.format .arithmetic)).result = .ok e := by
  have hwritable := writable_iff_finite.mpr he
  have hd := (Expr.derives_lexemes Table.plain_arithmetic hwritable).mono
    (Expr.precedence_le_maxPrecedence .arithmetic e)
  have hread := Expr.readable_format Table.legible_arithmetic hwritable
  rw [← (hd.parens_text (by decide +kernel) hread.spells).1] at hnest
  exact (Reading.ofSource_eq_ok_iff Table.plain_arithmetic hd hread limits).mpr ⟨hnest, hheight⟩

/-! ### Literals that are not finite -/

/-- The characters of texts that are read: those of numerals, parentheses and tokens, and blanks. -/
def Symbol (c : Char) : Prop :=
  Text.isBlank c = true ∨ Numeral.Symbol c ∨ c ∈ ['(', ')', '+', '-', '*', '/']

theorem symbol_of_mem_token {entry : Entry} (he : entry ∈ Table.arithmetic.entries) {c : Char}
    (hc : c ∈ entry.token.toList) : c ∈ ['(', ')', '+', '-', '*', '/'] := by
  have hall : ∀ entry ∈ Table.arithmetic.entries, (entry.token.toList.all fun c =>
      ['(', ')', '+', '-', '*', '/'].contains c) = true := by
    decide +kernel
  exact List.contains_iff_mem.mp (List.all_eq_true.mp (hall entry he) c hc)

theorem symbol_of_mem {expected : Bool} (hs : Spells ls s)
    (ha : Alternates .arithmetic expected ls) : ∀ c ∈ s, Symbol c := by
  induction hs generalizing expected with
  | nil hb => exact fun c hc => .inl (hb c hc)
  | @cons b x ls s hb _ ih =>
      intro c hc
      rcases List.mem_append.mp hc with hblank | hc
      · exact .inl (hb c hblank)
      · rcases List.mem_append.mp hc with hx | hrest
        · cases ha with
          | numeral hn => exact .inr (.inl (Numeral.symbol_of_mem hn hx))
          | opening | closing =>
              rw [List.mem_singleton.mp hx]
              exact .inr (.inr (by decide))
          | token he => exact .inr (.inr (symbol_of_mem_token he hx))
        · cases ha with
          | numeral _ ha | opening ha | closing ha | token _ ha => exact ih ha c hrest

/-- The text of a literal that is not finite has an `n` or an `N` in it. -/
theorem exists_letter_display {v : Float} (hv : ¬ v.isFinite) :
    ∃ c ∈ NumberStyle.display.text v, c = 'n' ∨ c = 'N' := by
  rw [NumberStyle.text]
  rcases Binary64.view_of_not_isFinite hv with hview | ⟨negative, hview⟩ <;> rw [hview]
  · exact ⟨'N', by decide +kernel, .inr rfl⟩
  · refine ⟨'n', ?_, .inl rfl⟩
    cases negative <;> decide +kernel

theorem mem_formatOperand {c : Char} (t : Table) (outer : Option (Nat × Associativity)) (side : Side)
    (hc : c ∈ e.format t) : c ∈ e.formatOperand t outer side := by
  rw [Expr.formatOperand_eq]
  split
  · exact List.mem_cons_of_mem _ (List.mem_append_left _ hc)
  · exact hc

theorem exists_letter_format (he : ¬ e.Finite) :
    ∃ c ∈ e.format .arithmetic, c = 'n' ∨ c = 'N' := by
  induction e with
  | literal v =>
      rw [Expr.format, Expr.formatBefore, List.append_nil]
      exact exists_letter_display he
  | binary o l r ihl ihr =>
      obtain ⟨entry, hfind⟩ := Option.isSome_iff_exists.mp (find?_isSome o)
      rw [Expr.format_operation hfind]
      rcases not_and_or.mp he with hl | hr
      · obtain ⟨c, hc, hletter⟩ := ihl hl
        exact ⟨c, List.mem_append_left _ (mem_formatOperand _ _ _ hc), hletter⟩
      · obtain ⟨c, hc, hletter⟩ := ihr hr
        refine ⟨c, List.mem_append_right _ (List.mem_append_right _ ?_), hletter⟩
        exact mem_formatOperand _ _ _ hc

/-- Nothing is read from the source text of a tree with a literal that is not finite. -/
theorem format_not_read (he : ¬ e.Finite) (limits : Limits) (e' : Expr) :
    (ofSource .arithmetic limits (e.format .arithmetic)).result ≠ .ok e' := by
  intro hok
  obtain ⟨-, ls, hspell, hd⟩ := Reading.run_whole_sound hok
  obtain ⟨c, hc, hletter⟩ := exists_letter_format he
  have hsymbol : Symbol c := symbol_of_mem hspell hd.alternates_self c hc
  rcases hletter with rfl | rfl <;> exact absurd hsymbol (by unfold Symbol Numeral.Symbol; decide)

/-- **Reading, writing and reading again.**  A tree that was read from some text is read again from
its source text, under the same limits and bit for bit, exactly if all its literals are finite; if
one is not, no tree is read from the source text, whatever the limits. -/
theorem ofSource_reformat {limits : Limits}
    (hok : (ofSource .arithmetic limits s).result = .ok e) :
    ((ofSource .arithmetic limits (e.format .arithmetic)).result = .ok e ↔ e.Finite) ∧
    (¬ e.Finite → ∀ limits' e',
      (ofSource .arithmetic limits' (e.format .arithmetic)).result ≠ .ok e') := by
  obtain ⟨hnest, hheight⟩ := within_of_read hok
  obtain ⟨-, hformat⟩ := Reading.count_format_le Table.plain_arithmetic (by decide +kernel) hok
  refine ⟨⟨fun hok' => ?_, fun he => ?_⟩, format_not_read⟩
  · by_contra he
    exact format_not_read he limits e hok'
  · exact read_format he (Nat.le_trans hformat hnest) hheight

/-- Of `(1) - (2-3)` one pair of parentheses is left, and the tree is the same. -/
theorem ofSource_reformat_difference :
    let number (digit : Char) : Expr := .literal (Numeral.value ⟨none, [digit], none, none⟩)
    let e : Expr := .binary .sub (number '1') (.binary .sub (number '2') (number '3'))
    (ofSource .arithmetic ⟨1, 2⟩ "(1) - (2-3)".toList).result = .ok e ∧
      (ofSource .arithmetic ⟨1, 2⟩ (e.format .arithmetic)).result = .ok e := by
  intro number e
  have hok : (ofSource .arithmetic ⟨1, 2⟩ "(1) - (2-3)".toList).result = .ok e := rfl
  exact ⟨hok, (ofSource_reformat hok).1.mpr (by decide +kernel)⟩

/-- The numeral `1e309` is read as an infinite literal, and `inf` is no numeral. -/
theorem ofSource_reformat_overflow :
    let e : Expr := .literal (Numeral.value ⟨none, ['1'], none, some ⟨'e', none, ['3', '0', '9']⟩⟩)
    (ofSource .arithmetic .usual "1e309".toList).result = .ok e ∧
      e.format .arithmetic = "inf".toList ∧
      (ofSource .arithmetic .usual (e.format .arithmetic)).result =
        .error (.invalidNumber "inf" 0) := by
  intro e
  have hformat : e.format .arithmetic = "inf".toList := by decide +kernel
  refine ⟨rfl, hformat, ?_⟩
  rw [hformat]
  rfl

end Arithmetic

end InfixArith
