import InfixArith.Proofs.Numeral.Scan
import InfixArith.Text.Blank
import Mathlib.Data.List.Basic

/-!
# Grammar — lexemes, and the texts that spell them

A source text is lexemes with blanks before each of them and after the last: `Spells ls s`.  What is
counted of parentheses is counted both in texts and in lists of lexemes, and is the same in a text
and in the lexemes it spells when no token holds a parenthesis (`Spells.parens_eq`).

* `Text.nesting s`: the most parentheses open at once in `s`.
* `Text.Balanced s`: `s` closes exactly the parentheses it opens, so that the nesting of a text
  around it is known from its own.
-/

namespace InfixArith

/-- The smallest pieces of a source text. -/
inductive Lexeme where
  | numeral (n : Numeral)
  | opening
  | closing
  | token (text : String)
  deriving DecidableEq

namespace Text

/-- `s` is nothing but blanks. -/
def Blanks (s : List Char) : Prop := ∀ c ∈ s, isBlank c = true

theorem blanks_nil : Blanks [] := fun _ hc => absurd hc List.not_mem_nil

theorem blanks_space : Blanks [' '] := List.forall_mem_singleton.mpr rfl

theorem Blanks.append {s r : List Char} (hs : Blanks s) (hr : Blanks r) : Blanks (s ++ r) := by
  intro c hc
  rcases List.mem_append.mp hc with hc | hc
  · exact hs c hc
  · exact hr c hc

theorem skipBlanks_append {b : List Char} (hb : Blanks b) (s : List Char) :
    skipBlanks (b ++ s) = skipBlanks s :=
  List.dropWhile_append_of_pos hb

theorem skipBlanks_of_blanks {b : List Char} (hb : Blanks b) : skipBlanks b = [] := by
  rw [← List.append_nil b, skipBlanks_append hb]
  rfl

/-- What is skipped is blanks. -/
theorem exists_blanks (s : List Char) : ∃ b, Blanks b ∧ b ++ skipBlanks s = s :=
  ⟨s.takeWhile isBlank, fun _ hc => List.mem_takeWhile_imp hc, List.takeWhile_append_dropWhile⟩

/-- The first character that is not skipped stands after blanks. -/
theorem exists_blanks_cons {s r : List Char} {c : Char} (h : skipBlanks s = c :: r) :
    ∃ b, Blanks b ∧ b ++ [c] ++ r = s := by
  obtain ⟨b, hb, hs⟩ := exists_blanks s
  exact ⟨b, hb, by rw [← List.append_cons, ← h, hs]⟩

/-- Nothing is skipped before a character that is no blank. -/
theorem skipBlanks_of_head {c : Char} (hc : isBlank c = false) (s : List Char) :
    skipBlanks (c :: s) = c :: s := by
  rw [skipBlanks_cons, hc]
  rfl

theorem head_append {b r : List Char} (hb : Blanks b) {c : Char} (hc : c ∈ (b ++ r).head?) :
    isBlank c = true ∨ c ∈ r.head? := by
  cases b with
  | nil => exact .inr hc
  | cons d b =>
      cases hc
      exact .inl (hb _ List.mem_cons_self)

/-- No digit and no other character of arithmetic is a blank. -/
theorem isBlank_of_symbol {c : Char}
    (hc : c.isDigit = true ∨ c ∈ ['.', 'e', 'E', '+', '-', '*', '/', '(', ')']) :
    isBlank c = false := by
  rcases hc with hd | hmem
  · simp only [Char.isDigit, Bool.and_eq_true, decide_eq_true_eq] at hd
    have hlo : 48 ≤ c.toNat := hd.1
    have hhi : c.toNat ≤ 57 := hd.2
    by_contra hb
    simp only [Bool.not_eq_false, isBlank, blankRanges, List.any_cons, List.any_nil,
      Bool.or_eq_true, Bool.and_eq_true, decide_eq_true_eq, Bool.false_eq_true, or_false] at hb
    omega
  · simp only [List.mem_cons, List.not_mem_nil, or_false] at hmem
    rcases hmem with rfl | rfl | rfl | rfl | rfl | rfl | rfl | rfl | rfl <;> rfl

/-! ### Parentheses in texts -/

/-- The parentheses of a text. -/
def parens (s : List Char) : List Char := s.filter fun c => c = '(' || c = ')'

/-- The most parentheses open at once from a place on where `k` of them are. -/
def nestingFrom : Nat → List Char → Nat
  | k, []     => k
  | k, c :: s =>
    if c = '(' then nestingFrom (k + 1) s
    else if c = ')' then max k (nestingFrom (k - 1) s)
    else nestingFrom k s

/-- The most parentheses open at once. -/
def nesting (s : List Char) : Nat := nestingFrom 0 s

/-- The text holds no parenthesis. -/
def NoParens (s : List Char) : Prop := ∀ c ∈ s, c ≠ '(' ∧ c ≠ ')'

instance decidableNoParens (s : List Char) : Decidable (NoParens s) :=
  List.decidableBAll _ s

theorem NoParens.append {s r : List Char} (hs : NoParens s) (hr : NoParens r) :
    NoParens (s ++ r) := by
  intro c hc
  rcases List.mem_append.mp hc with hc | hc
  · exact hs c hc
  · exact hr c hc

theorem NoParens.cons {c : Char} {s : List Char} (hc : c ≠ '(' ∧ c ≠ ')') (hs : NoParens s) :
    NoParens (c :: s) := by
  intro d hd
  rcases List.mem_cons.mp hd with rfl | hd
  · exact hc
  · exact hs d hd

theorem Blanks.noParens {b : List Char} (hb : Blanks b) : NoParens b := by
  intro c hc
  have hc := hb c hc
  constructor <;> rintro rfl <;> revert hc <;> decide

@[simp] theorem nestingFrom_opening (k : Nat) (s : List Char) :
    nestingFrom k ('(' :: s) = nestingFrom (k + 1) s := rfl

@[simp] theorem nestingFrom_closing (k : Nat) (s : List Char) :
    nestingFrom k (')' :: s) = max k (nestingFrom (k - 1) s) := rfl

theorem le_nestingFrom (k : Nat) (s : List Char) : k ≤ nestingFrom k s := by
  induction s generalizing k with
  | nil => exact Nat.le_refl k
  | cons c s ih =>
      rw [nestingFrom]
      split
      · exact Nat.le_of_succ_le (ih (k + 1))
      · split
        · exact Nat.le_max_left _ _
        · exact ih k

theorem parens_append (s r : List Char) : parens (s ++ r) = parens s ++ parens r :=
  List.filter_append ..

theorem parens_of_noParens {s : List Char} (h : NoParens s) : parens s = [] := by
  refine List.filter_eq_nil_iff.mpr fun c hc => ?_
  simp [h c hc]

/-- Only the parentheses of a text count. -/
theorem nestingFrom_parens (k : Nat) (s : List Char) : nestingFrom k (parens s) = nestingFrom k s := by
  induction s generalizing k with
  | nil => rfl
  | cons c s ih =>
      by_cases hopen : c = '('
      · subst hopen
        exact ih (k + 1)
      · by_cases hclose : c = ')'
        · subst hclose
          exact congrArg (max k) (ih (k - 1))
        · have hskip : parens (c :: s) = parens s := by simp [parens, hopen, hclose]
          rw [hskip, nestingFrom, if_neg hopen, if_neg hclose, ih]

theorem count_parens (s : List Char) : (parens s).count '(' = s.count '(' :=
  List.count_filter rfl

/-- The text closes exactly the parentheses it opens. -/
def Balanced (u : List Char) : Prop :=
  ∀ k s, nestingFrom k (u ++ s) = max (k + nesting u) (nestingFrom k s)

theorem nestingFrom_append {u : List Char} (hu : NoParens u) (k : Nat) (s : List Char) :
    nestingFrom k (u ++ s) = nestingFrom k s := by
  induction u with
  | nil => rfl
  | cons c u ih =>
      obtain ⟨hopen, hclose⟩ := hu c List.mem_cons_self
      rw [List.cons_append, nestingFrom, if_neg hopen, if_neg hclose,
        ih fun d hd => hu d (List.mem_cons_of_mem c hd)]

theorem nesting_of_noParens {u : List Char} (hu : NoParens u) : nesting u = 0 := by
  have h := nestingFrom_append hu 0 []
  rwa [List.append_nil] at h

theorem balanced_of_noParens {u : List Char} (hu : NoParens u) : Balanced u := by
  intro k s
  rw [nestingFrom_append hu, nesting_of_noParens hu]
  exact (Nat.max_eq_right (le_nestingFrom k s)).symm

theorem balanced_nil : Balanced [] := balanced_of_noParens fun _ hc => nomatch hc

namespace Balanced

variable {u v : List Char}

theorem nesting_append (hu : Balanced u) (v : List Char) :
    nesting (u ++ v) = max (nesting u) (nesting v) := by
  rw [nesting, hu, Nat.zero_add, ← nesting]

theorem append (hu : Balanced u) (hv : Balanced v) : Balanced (u ++ v) := by
  intro k s
  rw [hu.nesting_append v, List.append_assoc, hu, hv, ← Nat.max_assoc,
    Nat.add_max_add_left]

theorem nestingFrom_enclose (hu : Balanced u) (k : Nat) (s : List Char) :
    nestingFrom k ('(' :: (u ++ ')' :: s)) = max (k + (nesting u + 1)) (nestingFrom k s) := by
  rw [nestingFrom_opening, hu, nestingFrom_closing, Nat.add_sub_cancel, ← Nat.max_assoc]
  congr 1
  omega

theorem nesting_enclose (hu : Balanced u) : nesting ('(' :: (u ++ [')'])) = nesting u + 1 := by
  rw [nesting, hu.nestingFrom_enclose, Nat.zero_add]
  exact Nat.max_eq_left (Nat.zero_le _)

theorem enclose (hu : Balanced u) : Balanced ('(' :: (u ++ [')'])) := by
  intro k s
  rw [hu.nesting_enclose, ← hu.nestingFrom_enclose k s, List.cons_append, List.append_assoc]
  rfl

end Balanced

end Text

/-- A numeral begins with no blank. -/
theorem Numeral.isBlank_head {c : Char}
    (hc : c.isDigit = true ∨ c = '.' ∨ c = '+' ∨ c = '-') : Text.isBlank c = false := by
  refine Text.isBlank_of_symbol (hc.imp_right fun hc => ?_)
  rcases hc with rfl | rfl | rfl <;> decide

/-! ### The characters of numerals -/

namespace Numeral

/-- A digit or another character that numerals are written with. -/
def Symbol (c : Char) : Prop := c.isDigit = true ∨ c ∈ ['.', 'e', 'E', '+', '-']

theorem symbol_of_mem_sign {x : Option Sign} {c : Char} (hc : c ∈ Sign.text x) : Symbol c := by
  refine .inr ?_
  rcases x with _ | _ | _
  · cases hc
  · rw [List.mem_singleton.mp hc]
    decide
  · rw [List.mem_singleton.mp hc]
    decide

theorem symbol_of_mem_exponent {x : Option Exponent} (hx : ∀ y ∈ x, y.WellFormed) {c : Char}
    (hc : c ∈ Exponent.text x) : Symbol c := by
  cases x with
  | none => cases hc
  | some x =>
      obtain ⟨hm, -, hd⟩ := hx x rfl
      rcases List.mem_cons.mp hc with rfl | hc
      · refine .inr ?_
        rcases hm with hm | hm <;> rw [hm] <;> decide
      · rcases List.mem_append.mp hc with hc | hc
        · exact symbol_of_mem_sign hc
        · exact .inl (hd c hc)

/-- A numeral is written with digits and a few other characters. -/
theorem symbol_of_mem {n : Numeral} (hn : n.WellFormed) {c : Char} (hc : c ∈ n.text) :
    Symbol c := by
  rcases List.mem_append.mp hc with hc | hc
  · exact symbol_of_mem_sign hc
  · rcases List.mem_append.mp hc with hc | hc
    · exact .inl (hn.whole c hc)
    · rcases List.mem_append.mp hc with hc | hc
      · cases hf : n.fraction with
        | none =>
            rw [hf] at hc
            cases hc
        | some f =>
            rw [hf] at hc
            rcases List.mem_cons.mp hc with rfl | hc
            · exact .inr (by decide)
            · exact .inl (hn.fraction f hf c hc)
      · exact symbol_of_mem_exponent hn.exponent hc

theorem noParens {n : Numeral} (hn : n.WellFormed) : Text.NoParens n.text := by
  intro c hc
  have hsymbol := symbol_of_mem hn hc
  constructor <;> rintro rfl <;> exact absurd hsymbol (by unfold Symbol; decide)

end Numeral

namespace Lexeme

/-- How a lexeme is written. -/
def text : Lexeme → List Char
  | .numeral n => n.text
  | .opening   => ['(']
  | .closing   => [')']
  | .token x   => x.toList

/-- Nothing of a lexeme is skipped as a blank. -/
theorem skipBlanks_text {b y : List Char} {x : Lexeme} {c : Char} (hb : Text.Blanks b)
    (hx : x.text = c :: y) (hc : Text.isBlank c = false) (s : List Char) :
    Text.skipBlanks (b ++ (x.text ++ s)) = x.text ++ s := by
  rw [Text.skipBlanks_append hb, hx]
  exact Text.skipBlanks_of_head hc (y ++ s)

/-- The parentheses among lexemes. -/
def parens : List Lexeme → List Char
  | []             => []
  | .opening :: ls => '(' :: parens ls
  | .closing :: ls => ')' :: parens ls
  | _ :: ls        => parens ls

/-- The most parentheses open at once. -/
def nesting (ls : List Lexeme) : Nat := Text.nesting (parens ls)

/-- How many parentheses are opened. -/
def openings (ls : List Lexeme) : Nat := (parens ls).count '('

theorem parens_append (ls rs : List Lexeme) : parens (ls ++ rs) = parens ls ++ parens rs := by
  induction ls with
  | nil => rfl
  | cons x ls ih =>
      rw [List.cons_append]
      cases x with
      | numeral n => exact ih
      | opening => exact congrArg _ ih
      | closing => exact congrArg _ ih
      | token x => exact ih

theorem parens_enclose (ls : List Lexeme) :
    parens (.opening :: (ls ++ [.closing])) = '(' :: (parens ls ++ [')']) :=
  congrArg (List.cons '(') (parens_append ls [.closing])

theorem parens_operation (ls : List Lexeme) (x : String) (rs : List Lexeme) :
    parens (ls ++ .token x :: rs) = parens ls ++ parens rs :=
  parens_append ls (.token x :: rs)

theorem openings_parens (ls : List Lexeme) :
    openings (.opening :: (ls ++ [.closing])) = openings ls + 1 := by
  rw [openings, parens_enclose]
  simp [openings]

theorem openings_operation (ls : List Lexeme) (x : String) (rs : List Lexeme) :
    openings (ls ++ .token x :: rs) = openings ls + openings rs := by
  rw [openings, parens_operation]
  exact List.count_append

end Lexeme

/-- The text is the lexemes, with blanks before each of them and at the end. -/
inductive Spells : List Lexeme → List Char → Prop where
  | nil {b : List Char} (hb : Text.Blanks b) : Spells [] b
  | cons {b : List Char} {x : Lexeme} {ls : List Lexeme} {s : List Char}
      (hb : Text.Blanks b) (h : Spells ls s) : Spells (x :: ls) (b ++ (x.text ++ s))

namespace Spells

variable {ls rs : List Lexeme} {s r : List Char}

theorem blanks_append {b : List Char} (hb : Text.Blanks b) (h : Spells ls s) :
    Spells ls (b ++ s) := by
  cases h with
  | nil hs => exact .nil (hb.append hs)
  | cons hb' h =>
      rw [← List.append_assoc]
      exact .cons (hb.append hb') h

/-- A lexeme, and blanks before it. -/
theorem single {b : List Char} (hb : Text.Blanks b) (x : Lexeme) : Spells [x] (b ++ x.text) := by
  have h : Spells [x] (b ++ (x.text ++ [])) := .cons hb (.nil Text.blanks_nil)
  rwa [List.append_nil] at h

theorem append (h : Spells ls s) (h' : Spells rs r) : Spells (ls ++ rs) (s ++ r) := by
  induction h with
  | nil hb => exact blanks_append hb h'
  | cons hb _ ih =>
      rw [List.append_assoc, List.append_assoc]
      exact .cons hb ih

theorem append_blanks {b : List Char} (h : Spells ls s) (hb : Text.Blanks b) :
    Spells ls (s ++ b) := by
  have happ := h.append (.nil hb)
  rwa [List.append_nil] at happ

/-- Where no token holds a parenthesis, those of a text are those of the lexemes it spells. -/
theorem parens_eq (h : Spells ls s) (hnum : ∀ n, .numeral n ∈ ls → n.WellFormed)
    (htok : ∀ x, .token x ∈ ls → Text.NoParens x.toList) : Text.parens s = Lexeme.parens ls := by
  induction h with
  | nil hb => exact Text.parens_of_noParens hb.noParens
  | @cons b x ls s hb _ ih =>
      have ih := ih (fun n hn => hnum n (List.mem_cons_of_mem x hn))
        fun y hy => htok y (List.mem_cons_of_mem x hy)
      rw [Text.parens_append, Text.parens_of_noParens hb.noParens, List.nil_append,
        Text.parens_append, ih]
      cases x with
      | numeral n =>
          exact congrArg (· ++ _)
            (Text.parens_of_noParens (Numeral.noParens (hnum n List.mem_cons_self)))
      | opening => rfl
      | closing => rfl
      | token x =>
          exact congrArg (· ++ _) (Text.parens_of_noParens (htok x List.mem_cons_self))

end Spells

end InfixArith
