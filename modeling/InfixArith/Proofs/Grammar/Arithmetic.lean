import InfixArith.Proofs.Grammar.Completeness

/-!
# Grammar — arithmetic

The grammar of the arithmetic table, written out over texts:

    sum     = product { ("+" | "-") product }        grouped to the left
    product = power { ("*" | "/") power }            grouped to the left
    power   = atom [ "**" power ]
    atom    = "(" sum ")" | numeral

with blanks before every terminal and at the end; the numerals are the words of `Numeral.pattern`
(`Numeral.mem_pattern_iff`).  The grammar says nothing of how long a numeral is or which of `*` and
`**` is read; a reader has to decide at every place and never goes back.
`Arithmetic.ofSource_of_derivation`: it never decides wrongly.

The lexemes of a derivation are found by a reader because operands and operators alternate
(`readable_of_spells`): what may follow a numeral cannot make it longer, and no `*` follows a `*`.
-/

namespace InfixArith.Arithmetic

open Text (Blanks isBlank)

/-- The nonterminals of the grammar. -/
inductive Nonterminal where
  | sum
  | product
  | power
  | atom

/-- The text stands for the tree, with so many parentheses nested in it. -/
inductive Derivation : Nonterminal → List Char → Expr → (nesting : Nat) → Prop where
  | numeral {b : List Char} {n : Numeral} (hb : Blanks b) (hn : n.WellFormed) :
      Derivation .atom (b ++ n.text) (.literal n.value) 0
  | parens {b b' s : List Char} {e : Expr} {k : Nat} (hb : Blanks b) (h : Derivation .sum s e k)
      (hb' : Blanks b') : Derivation .atom (b ++ '(' :: (s ++ (b' ++ [')']))) e (k + 1)
  | atom {s : List Char} {e : Expr} {k : Nat} (h : Derivation .atom s e k) :
      Derivation .power s e k
  | pow {b s s' : List Char} {l r : Expr} {k k' : Nat} (h : Derivation .atom s l k)
      (hb : Blanks b) (h' : Derivation .power s' r k') :
      Derivation .power (s ++ (b ++ '*' :: '*' :: s')) (.binary .pow l r) (max k k')
  | power {s : List Char} {e : Expr} {k : Nat} (h : Derivation .power s e k) :
      Derivation .product s e k
  | mul {b s s' : List Char} {l r : Expr} {k k' : Nat} (h : Derivation .product s l k)
      (hb : Blanks b) (h' : Derivation .power s' r k') :
      Derivation .product (s ++ (b ++ '*' :: s')) (.binary .mul l r) (max k k')
  | div {b s s' : List Char} {l r : Expr} {k k' : Nat} (h : Derivation .product s l k)
      (hb : Blanks b) (h' : Derivation .power s' r k') :
      Derivation .product (s ++ (b ++ '/' :: s')) (.binary .div l r) (max k k')
  | product {s : List Char} {e : Expr} {k : Nat} (h : Derivation .product s e k) :
      Derivation .sum s e k
  | add {b s s' : List Char} {l r : Expr} {k k' : Nat} (h : Derivation .sum s l k)
      (hb : Blanks b) (h' : Derivation .product s' r k') :
      Derivation .sum (s ++ (b ++ '+' :: s')) (.binary .add l r) (max k k')
  | sub {b s s' : List Char} {l r : Expr} {k k' : Nat} (h : Derivation .sum s l k)
      (hb : Blanks b) (h' : Derivation .product s' r k') :
      Derivation .sum (s ++ (b ++ '-' :: s')) (.binary .sub l r) (max k k')

/-- A source text: a sum and blanks. -/
def Source (s : List Char) (e : Expr) (nesting : Nat) : Prop :=
  ∃ w b, w ++ b = s ∧ Blanks b ∧ Derivation .sum w e nesting

/-! ### Greedy reading -/

/-- The characters that the tokens begin with. -/
theorem head_token {entry : Entry} (he : entry ∈ Table.arithmetic.entries) :
    ∃ c y, entry.token.toList = c :: y ∧ c ∈ ['+', '-', '*', '/'] := by
  simp only [Table.arithmetic, List.mem_cons, List.not_mem_nil, or_false] at he
  rcases he with rfl | rfl | rfl | rfl | rfl <;> exact ⟨_, _, rfl, by decide⟩

variable {ls : List Lexeme} {s : List Char}

/-- What follows an operand cannot make its numeral longer. -/
theorem ends_of_alternates (hs : Spells ls s) (ha : Alternates .arithmetic false ls) :
    Numeral.Ends s := by
  intro c hc
  rcases ha.head_operator hs c hc with hb | rfl | ⟨entry, he, htok⟩
  · have hno : ¬ (c.isDigit = true ∨ c ∈ ['.', 'e', 'E', '+', '-', '*', '/', '(', ')']) :=
      fun hc => absurd hb (by rw [Text.isBlank_of_symbol hc]; decide)
    simp only [List.mem_cons, not_or] at hno
    exact ⟨Bool.eq_false_iff.mpr hno.1, hno.2.1, hno.2.2.1, hno.2.2.2.1⟩
  · decide
  · obtain ⟨d, y, htext, hd⟩ := head_token he
    rw [htext] at htok
    cases htok
    simp only [List.mem_cons, List.not_mem_nil, or_false] at hd
    rcases hd with rfl | rfl | rfl | rfl <;> decide

/-- No `*` stands where an operand is expected. -/
theorem head_of_alternates (hs : Spells ls s) (ha : Alternates .arithmetic true ls) :
    s.head? ≠ some '*' := by
  intro hstar
  rcases ha.head_operand hs '*' hstar with hb | hd | hmem
  · exact absurd hb (by decide)
  · exact absurd hd (by decide)
  · exact absurd hmem (by decide)

/-- Where no `*` follows, a token is the only one of its level or a tighter one to be read. -/
theorem token_clear {entry : Entry} (he : entry ∈ Table.arithmetic.entries)
    (hs : s.head? ≠ some '*') : ∀ a ∈ Table.arithmetic.entries, a.precedence ≤ entry.precedence →
      a.token.toList <+: entry.token.toList ++ s → a = entry := by
  intro a ha hp hpre
  have hstar : ¬ ['*', '*'] <+: '*' :: s := by
    rw [List.cons_prefix_cons, List.cons_prefix_iff]
    rintro ⟨-, r, rfl, -⟩
    exact hs rfl
  simp only [Table.arithmetic, List.mem_cons, List.not_mem_nil, or_false] at he ha
  -- tokens that begin differently exclude each other; `**` for `*` needs a `*` in `s` (`hstar`)
  rcases he with rfl | rfl | rfl | rfl | rfl <;> rcases ha with rfl | rfl | rfl | rfl | rfl <;>
    first
    | rfl
    | exact absurd hp (by decide)
    | exact absurd hpre hstar
    | exact absurd (List.cons_prefix_cons.mp hpre).1 (by decide)

/-- Lexemes that alternate are found in a text that spells them. -/
theorem readable_of_spells {expected : Bool} (hs : Spells ls s)
    (ha : Alternates .arithmetic expected ls) : Readable .arithmetic ls s := by
  induction hs generalizing expected with
  | nil hb => exact Text.skipBlanks_of_blanks hb
  | @cons b x ls s hb hs ih =>
      cases ha with
      | @numeral n _ hn ha =>
          obtain ⟨c, y, htext, hc⟩ := Numeral.head_text hn
          refine ⟨s, ?_, ih ha⟩
          rw [Lexeme.skipBlanks_text hb (x := .numeral n) htext (Numeral.isBlank_head hc)]
          exact found_numeral hn (ends_of_alternates hs ha)
      | opening ha =>
          exact ⟨s, Lexeme.skipBlanks_text hb (x := .opening) rfl (by decide) s, ih ha⟩
      | closing ha =>
          refine ⟨s, ?_, ih ha⟩
          rw [Lexeme.skipBlanks_text hb (x := .closing) rfl (by decide)]
          refine found_closing (fun e he hc => ?_) s
          obtain ⟨c, y, htext, hmem⟩ := head_token he
          rw [htext] at hc
          cases hc
          exact absurd hmem (by decide)
      | @token entry _ he ha =>
          obtain ⟨c, y, htext, hmem⟩ := head_token he
          have hblank : isBlank c = false := by
            simp only [List.mem_cons, List.not_mem_nil, or_false] at hmem
            rcases hmem with rfl | rfl | rfl | rfl <;> rfl
          refine ⟨s, ?_, ih ha⟩
          rw [Lexeme.skipBlanks_text hb (x := .token entry.token) htext hblank]
          have hclear := token_clear he (head_of_alternates hs ha)
          refine found_token he (fun a ha hp hpre => ?_) fun a ha hp hpre => ?_
          · exact hclear a ha (Nat.le_of_eq hp) hpre ▸ List.prefix_rfl
          · rw [hclear a ha (Nat.le_of_lt hp) hpre] at hp
            exact absurd hp (Nat.lt_irrefl _)

/-! ### Derivations as lexemes -/

/-- The precedence of the expressions of a nonterminal. -/
def Nonterminal.precedence : Nonterminal → Nat
  | .atom    => 0
  | .power   => 1
  | .product => 2
  | .sum     => 3

/-- The text spells an expression of precedence `p` in the grammar of the table. -/
def HasLexemes (p : Nat) (s : List Char) (e : Expr) (nesting : Nat) : Prop :=
  ∃ ls, Spells ls s ∧ Derives .arithmetic p ls e ∧ Lexeme.nesting ls = nesting

theorem HasLexemes.operation (entry : Entry) (he : entry ∈ Table.arithmetic.entries)
    {b s s' : List Char} {l r : Expr} {pl pr k k' : Nat} (hl : HasLexemes pl s l k)
    (hb : Blanks b) (hr : HasLexemes pr s' r k')
    (hpl : pl < entry.precedence ∨
      pl = entry.precedence ∧ entry.associativity = .leftToRight)
    (hpr : pr < entry.precedence ∨
      pr = entry.precedence ∧ entry.associativity = .rightToLeft) :
    HasLexemes entry.precedence (s ++ (b ++ (entry.token.toList ++ s'))) (entry.build l r)
      (max k k') := by
  obtain ⟨ls, hs, hdl, rfl⟩ := hl
  obtain ⟨rs, hs', hdr, rfl⟩ := hr
  exact ⟨ls ++ .token entry.token :: rs, hs.append (.cons hb hs'), hdl.operation he hdr hpl hpr,
    hdl.nesting_operation _ _⟩

/-- The lexemes of a derivation, in the grammar of the table. -/
theorem Derivation.hasLexemes {x : Nonterminal} {s : List Char} {e : Expr} {k : Nat}
    (h : Derivation x s e k) : HasLexemes x.precedence s e k := by
  induction h with
  | @numeral b n hb hn => exact ⟨[.numeral n], .single hb (.numeral n), .numeral hn, rfl⟩
  | parens hb _ hb' ih =>
      obtain ⟨ls, hs, hd, hk⟩ := ih
      refine ⟨Lexeme.opening :: (ls ++ [Lexeme.closing]),
        .cons hb (hs.append (.single hb' .closing)), .parens hd, ?_⟩
      rw [hd.nesting_parens, hk]
  | atom _ ih | power _ ih | product _ ih =>
      obtain ⟨ls, hs, hd, hk⟩ := ih
      exact ⟨ls, hs, .operand hd, hk⟩
  | pow _ hb _ ihl ihr =>
      exact .operation (.plain .pow 1 .rightToLeft "**") (by simp [Table.arithmetic])
        ihl hb ihr (.inl (by decide)) (.inr (by decide))
  | mul _ hb _ ihl ihr =>
      exact .operation (.plain .mul 2 .leftToRight "*") (by simp [Table.arithmetic])
        ihl hb ihr (.inr (by decide)) (.inl (by decide))
  | div _ hb _ ihl ihr =>
      exact .operation (.plain .div 2 .leftToRight "/") (by simp [Table.arithmetic])
        ihl hb ihr (.inr (by decide)) (.inl (by decide))
  | add _ hb _ ihl ihr =>
      exact .operation (.plain .add 3 .leftToRight "+") (by simp [Table.arithmetic])
        ihl hb ihr (.inr (by decide)) (.inl (by decide))
  | sub _ hb _ ihl ihr =>
      exact .operation (.plain .sub 3 .leftToRight "-") (by simp [Table.arithmetic])
        ihl hb ihr (.inr (by decide)) (.inl (by decide))

/-- A derivation within the limits is read, whatever the limits. -/
theorem read_source {s : List Char} {e : Expr} {k : Nat} (hs : Source s e k) (limits : Limits)
    (hk : k ≤ limits.maxNesting) (he : e.height ≤ limits.maxHeight) :
    (Reading.ofSource .arithmetic limits s).result = .ok e := by
  obtain ⟨w, b, rfl, hb, h⟩ := hs
  obtain ⟨ls, hspell, hd, rfl⟩ := h.hasLexemes
  have hspell : Spells ls (w ++ b) := hspell.append_blanks hb
  have hread := readable_of_spells hspell hd.alternates_self
  exact (Reading.ofSource_eq_ok_iff Table.plain_arithmetic hd hread limits).mpr ⟨hk, he⟩

/-- **Completeness.**  A text of the grammar is read as the tree it stands for, under any limits
that its parentheses and the tree keep to; and it stands for no other tree. -/
theorem ofSource_of_derivation {s : List Char} {e : Expr} {k : Nat} (hs : Source s e k) :
    (∀ limits : Limits, k ≤ limits.maxNesting → e.height ≤ limits.maxHeight →
      (Reading.ofSource .arithmetic limits s).result = .ok e) ∧
    ∀ e' k', Source s e' k' → e' = e := by
  refine ⟨fun limits => read_source hs limits, fun e' k' hs' => ?_⟩
  -- under limits that both trees keep to, the one result is both of them
  have h := read_source hs ⟨max k k', max e.height e'.height⟩ (Nat.le_max_left _ _)
    (Nat.le_max_left _ _)
  have h' := read_source hs' ⟨max k k', max e.height e'.height⟩ (Nat.le_max_right _ _)
    (Nat.le_max_right _ _)
  rw [h] at h'
  cases h'
  rfl

/-- Of `2--3` the first sign is the operator, and the second belongs to the numeral. -/
theorem ofSource_minus_negative :
    (Reading.ofSource .arithmetic .usual "2--3".toList).result =
      .ok (.binary .sub (.literal (Numeral.value ⟨none, ['2'], none, none⟩))
        (.literal (Numeral.value ⟨some .minus, ['3'], none, none⟩))) :=
  (ofSource_of_derivation ⟨_, [], rfl, Text.blanks_nil,
    .sub (b := [])
      (.product (.power (.atom (.numeral Text.blanks_nil
        (Numeral.wellFormed_of_scan? (s := ['2']) (r := []) rfl)))))
      Text.blanks_nil
      (.power (.atom (.numeral Text.blanks_nil
        (Numeral.wellFormed_of_scan? (s := ['-', '3']) (r := []) rfl))))⟩).1 .usual
    (by decide) (by decide)

end InfixArith.Arithmetic
