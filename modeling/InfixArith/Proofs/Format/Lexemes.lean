import InfixArith.Expr.Format
import InfixArith.Proofs.Decimal.NumberStyle
import InfixArith.Proofs.Grammar.Completeness

/-!
# Format — the lexemes of a formatted expression

`Expr.lexemes t e` are the lexemes that the source text of `e` is written with.  They derive `e` in
the grammar of the table (`derives_lexemes`): an operand without parentheses is of a precedence that
may stand there.  And they are found in the text (`readable_format`), provided that the tokens of the
table can be told apart between blanks (`Table.Legible`).
-/

namespace InfixArith

/-- The tokens of a table can be read back where blanks stand around them: none holds a blank, none
could be taken for a closing parenthesis, and no token hides a looser one that begins with it. -/
structure Table.Legible (t : Table) : Prop where
  plain : t.Plain
  no_blank : ∀ e ∈ t.entries, ∀ c ∈ e.token.toList, Text.isBlank c = false
  no_closing : ∀ e ∈ t.entries, e.token.toList.head? ≠ some ')'
  not_hidden : ∀ a ∈ t.entries, ∀ b ∈ t.entries, a.precedence < b.precedence →
    ¬ a.token.toList <+: b.token.toList

/-- The arithmetic table is legible. -/
theorem Table.legible_arithmetic : Legible arithmetic where
  plain := plain_arithmetic
  no_blank := by
    have hall : ∀ e ∈ arithmetic.entries,
        (e.token.toList.all fun c => !Text.isBlank c) = true := by decide
    intro e he c hc
    simpa using List.all_eq_true.mp (hall e he) c hc
  no_closing := by decide
  not_hidden := by decide +kernel

namespace Lexeme

/-- Puts lexemes in parentheses, if they are needed. -/
def encloseIf (needed : Bool) (ls : List Lexeme) : List Lexeme :=
  if needed then .opening :: (ls ++ [.closing]) else ls

end Lexeme

namespace Expr

/-- Every operator has an entry and every literal is finite. -/
def Writable (t : Table) : Expr → Prop
  | .literal v    => v.isFinite
  | .binary o l r => (t.find? o).isSome ∧ l.Writable t ∧ r.Writable t

instance decidableWritable (t : Table) : (e : Expr) → Decidable (e.Writable t)
  | .literal v    => inferInstanceAs (Decidable (v.isFinite = true))
  | .binary o l r =>
    have := decidableWritable t l
    have := decidableWritable t r
    inferInstanceAs (Decidable ((t.find? o).isSome ∧ l.Writable t ∧ r.Writable t))

/-- The precedence of the operation at the root; `0` for a literal. -/
def precedence (t : Table) (e : Expr) : Nat :=
  match e.operator?.bind t.find? with
  | some entry => entry.precedence
  | none       => 0

/-- The lexemes of the source text. -/
def lexemes (t : Table) : Expr → List Lexeme
  | .literal v    =>
    (Numeral.scan? (NumberStyle.display.text v)).toList.map fun (n, _) => .numeral n
  | .binary o l r =>
    match t.find? o with
    | some entry =>
      let outer := some (entry.precedence, entry.associativity)
      Lexeme.encloseIf (needsParens t outer .left l) (l.lexemes t) ++
        .token entry.token :: Lexeme.encloseIf (needsParens t outer .right r) (r.lexemes t)
    | none => []

variable {t : Table}

/-- An operand without parentheses may stand where it does. -/
theorem precedence_of_not_needsParens {p : Nat} {a : Associativity} {side : Side} {e : Expr}
    (h : needsParens t (some (p, a)) side e = false) (hp : 0 < p) :
    e.precedence t < p ∨ e.precedence t = p ∧ a.parensOnTie side = false := by
  unfold needsParens at h
  unfold precedence
  cases hi : e.operator?.bind t.find? with
  | none => exact .inl hp
  | some inner =>
      simp only [hi, Bool.or_eq_false_iff, decide_eq_false_iff_not, Bool.and_eq_false_imp,
        decide_eq_true_eq] at h
      rcases Nat.lt_or_eq_of_le (Nat.le_of_not_lt h.1) with hlt | heq
      · exact .inl hlt
      · exact .inr ⟨heq, h.2 heq⟩

/-- An operand gets parentheses only if it binds more loosely, or as loosely on the wrong side. -/
theorem precedence_of_needsParens {p : Nat} {a : Associativity} {side : Side} {e : Expr}
    (h : needsParens t (some (p, a)) side e = true) :
    p < e.precedence t ∨ e.precedence t = p ∧ a.parensOnTie side = true := by
  unfold needsParens at h
  unfold precedence
  cases hi : e.operator?.bind t.find? with
  | none => simp [hi] at h
  | some inner => simpa [hi] using h

theorem lexemes_literal {v : Float} (hv : v.isFinite) :
    ∃ n : Numeral, n.WellFormed ∧ n.text = NumberStyle.display.text v ∧ n.value = v ∧
      lexemes t (.literal v) = [.numeral n] := by
  obtain ⟨n, hn, htext, hval⟩ := NumberStyle.exists_numeral .display hv
  have hscan := Numeral.scan?_text_append hn (s := []) fun _ hc => nomatch hc
  rw [List.append_nil, htext] at hscan
  exact ⟨n, hn, htext, hval, by rw [lexemes, hscan]; rfl⟩

theorem precedence_operation {entry : Entry} (he : entry ∈ t.entries) (l r : Expr) :
    precedence t (.binary entry.operator l r) = entry.precedence := by
  simp only [precedence, operator?, Option.bind_some, Table.find?_operator he]

theorem precedence_le_maxPrecedence (t : Table) (e : Expr) : e.precedence t ≤ t.maxPrecedence := by
  unfold precedence
  split
  · next entry h =>
    obtain ⟨o, -, ho⟩ := Option.bind_eq_some_iff.mp h
    exact Table.precedence_le_maxPrecedence (Table.mem_of_find? ho).1
  · exact Nat.zero_le _

/-- An operand, in parentheses if it needs them, derives its tree. -/
theorem derives_encloseIf {ls : List Lexeme} {e : Expr} {p : Nat} (a b : Associativity)
    (side : Side) (hd : Derives t (e.precedence t) ls e) (hp : 0 < p)
    (hside : a.parensOnTie side = false → a = b) :
    ∃ q, Derives t q (Lexeme.encloseIf (needsParens t (some (p, a)) side e) ls) e ∧
      (q < p ∨ q = p ∧ a = b) := by
  cases h : needsParens t (some (p, a)) side e with
  | true => exact ⟨0, .parens (hd.mono (precedence_le_maxPrecedence t e)), .inl hp⟩
  | false =>
      exact ⟨_, hd, (precedence_of_not_needsParens h hp).imp_right fun h => ⟨h.1, hside h.2⟩⟩

/-- **The formatted lexemes derive the expression.** -/
theorem derives_lexemes (hplain : t.Plain) {e : Expr} (he : e.Writable t) :
    Derives t (e.precedence t) (e.lexemes t) e := by
  induction e with
  | literal v =>
      obtain ⟨n, hn, -, hval, hls⟩ := lexemes_literal (t := t) he
      rw [hls]
      exact hval ▸ .numeral hn
  | binary o l r ihl ihr =>
      obtain ⟨ho, hl, hr⟩ := he
      obtain ⟨entry, hfind⟩ := Option.isSome_iff_exists.mp ho
      obtain ⟨hmem, rfl⟩ := Table.mem_of_find? hfind
      have hpos := t.valid.precedence_pos entry hmem
      obtain ⟨pl, hdl, hpl⟩ := derives_encloseIf entry.associativity .leftToRight .left (ihl hl)
        hpos (by cases entry.associativity <;> decide)
      obtain ⟨pr, hdr, hpr⟩ := derives_encloseIf entry.associativity .rightToLeft .right (ihr hr)
        hpos (by cases entry.associativity <;> decide)
      have := hdl.operation hmem hdr hpl hpr
      rw [hplain entry hmem] at this
      rw [precedence_operation hmem, lexemes, hfind]
      exact this

/-! ### Finding the lexemes -/

/-- A beginning without `c` of a text with `c` in it lies before that `c`. -/
theorem prefix_before {x u v : List Char} {c : Char} (hx : c ∉ x) (h : x <+: u ++ c :: v) :
    x <+: u := by
  -- if `x` reached beyond `u`, its next character would be `c`
  rcases List.prefix_or_prefix_of_prefix h (List.prefix_append u (c :: v)) with hxu | ⟨y, rfl⟩
  · exact hxu
  · cases y with
    | nil => simp
    | cons d y =>
        have hy := (List.cons_prefix_cons.mp ((List.prefix_append_right_inj u).mp h)).1
        exact absurd (hy ▸ List.mem_append_right u List.mem_cons_self) hx

/-- A token between blanks is found. -/
theorem readable_token (ht : t.Legible) {entry : Entry} (he : entry ∈ t.entries)
    {ks : List Lexeme} {s : List Char} (hr : Readable t ks (' ' :: s)) :
    Readable t (.token entry.token :: ks) (' ' :: (entry.token.toList ++ ' ' :: s)) := by
  have hspace : ∀ a ∈ t.entries, ' ' ∉ a.token.toList := fun a ha hmem =>
    absurd (ht.no_blank a ha ' ' hmem) (by decide)
  cases htok : entry.token.toList with
  | nil => exact absurd htok (Table.token_ne_nil he)
  | cons c y =>
      have hc := ht.no_blank entry he c (by rw [htok]; exact List.mem_cons_self)
      refine ⟨' ' :: s, ?_, hr⟩
      have hskip := Lexeme.skipBlanks_text (x := .token entry.token) Text.blanks_space htok hc (' ' :: s)
      rw [Lexeme.text, List.singleton_append, htok] at hskip
      rw [hskip, ← htok]
      refine found_token he (fun a ha _ hpre => prefix_before (hspace a ha) hpre)
        fun a ha hp hpre => ?_
      exact ht.not_hidden a ha entry he hp (prefix_before (hspace a ha) hpre)

/-- Parentheses around what is found are found too. -/
theorem readable_parenthesizeIf (ht : t.Legible) {ls : List Lexeme} {body : List Char → List Char}
    (hbody : ∀ {ks tail}, Numeral.Ends tail → Readable t ks tail → Readable t (ls ++ ks) (body tail))
    (needed : Bool) {ks : List Lexeme} {tail : List Char} (htail : Numeral.Ends tail)
    (hr : Readable t ks tail) :
    Readable t (Lexeme.encloseIf needed ls ++ ks) (Text.parenthesizeIf needed body tail) := by
  cases needed with
  | false => exact hbody htail hr
  | true =>
      have hends : Numeral.Ends (')' :: tail) := by
        rintro c ⟨rfl⟩
        decide
      have hclose : Readable t (.closing :: ks) (')' :: tail) := by
        refine ⟨tail, ?_, hr⟩
        rw [Text.skipBlanks_of_head (by decide)]
        exact found_closing ht.no_closing tail
      have hopen : Readable t (.opening :: (ls ++ .closing :: ks)) ('(' :: body (')' :: tail)) :=
        ⟨_, Text.skipBlanks_of_head (by decide) _, hbody hends hclose⟩
      rw [Lexeme.encloseIf, if_pos rfl, List.cons_append, List.append_assoc]
      exact hopen

/-- **The formatted lexemes are found in the formatted text**, before any text that a numeral cannot
go on with. -/
theorem readable_formatBefore (ht : t.Legible) {e : Expr} (he : e.Writable t) {ks : List Lexeme}
    {tail : List Char} (htail : Numeral.Ends tail) (hr : Readable t ks tail) :
    Readable t (e.lexemes t ++ ks) (formatBefore t e tail) := by
  induction e generalizing ks tail with
  | literal v =>
      obtain ⟨n, hn, htext, -, hls⟩ := lexemes_literal (t := t) he
      obtain ⟨c, y, hc, hhead⟩ := Numeral.head_text hn
      rw [hls, formatBefore, ← htext]
      refine ⟨tail, ?_, hr⟩
      have hskip := Lexeme.skipBlanks_text (x := .numeral n) Text.blanks_nil hc
        (Numeral.isBlank_head hhead) tail
      rw [List.nil_append, Lexeme.text] at hskip
      rw [hskip]
      exact found_numeral hn htail
  | binary o l r ihl ihr =>
      obtain ⟨ho, hl, hr'⟩ := he
      obtain ⟨entry, hfind⟩ := Option.isSome_iff_exists.mp ho
      obtain ⟨hmem, -⟩ := Table.mem_of_find? hfind
      rw [lexemes, formatBefore, hfind]
      dsimp only
      rw [List.append_assoc, List.cons_append]
      -- from the right: the right operand before `tail`, the token, the left one before a blank
      have hright := readable_parenthesizeIf ht (ihr hr')
        (needsParens t (some (entry.precedence, entry.associativity)) .right r) htail hr
      have hspace := readable_congr (Text.skipBlanks_cons ' ' _).symm hright
      exact readable_parenthesizeIf ht (ihl hl) _ (Numeral.ends_space _) (readable_token ht hmem hspace)

theorem readable_format (ht : t.Legible) {e : Expr} (he : e.Writable t) :
    Readable t (e.lexemes t) (e.format t) := by
  rw [← List.append_nil (e.lexemes t)]
  exact readable_formatBefore ht he (fun _ hc => nomatch hc) rfl

end Expr

end InfixArith
