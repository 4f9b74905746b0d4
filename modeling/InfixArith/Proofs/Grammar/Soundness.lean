import InfixArith.Proofs.Grammar.Derivation
import InfixArith.Proofs.Reading.Calls
import InfixArith.Proofs.Reading.Steps

/-!
# Grammar — what is read is derived

Whatever the table, the text that a successful call takes spells lexemes of which the grammar of the
table derives the tree that is returned (`run_sound`).

The induction is that of the equations of reading.  A chain is gone on with after lexemes that derive
its left operand (`Seed`): an expression of the next tighter level or, where the level groups to the
left, what the chain has come to so far.
-/

namespace InfixArith

open Reading (read extend)

variable {t : Table} {p : Nat} {s r : List Char}

/-- The text from `s` to `r` spells lexemes that derive `e`. -/
def Parsed (t : Table) (p : Nat) (s : List Char) (e : Expr) (r : List Char) : Prop :=
  ∃ w ls, w ++ r = s ∧ Spells ls w ∧ Derives t p ls e

/-- Lexemes that a chain of precedence `p + 1` can be gone on with after. -/
def Seed (t : Table) (p : Nat) (ls : List Lexeme) (l : Expr) : Prop :=
  Derives t p ls l ∨ Derives t (p + 1) ls l ∧
    ∃ level, t.level? (p + 1) = some level ∧ level.associativity = .leftToRight

/-- The text from `s` to `r` spells lexemes that take a chain from `l` to `e`. -/
def Extended (t : Table) (p : Nat) (l : Expr) (s : List Char) (e : Expr) (r : List Char) : Prop :=
  ∃ w ls, w ++ r = s ∧ Spells ls w ∧ ∀ seed, Seed t p seed l → Derives t (p + 1) (seed ++ ls) e

/-- A match is with a token that stands after blanks. -/
theorem Level.exists_token_of_match? {level : Level} {entry : Entry}
    (hm : level.match? (Text.skipBlanks s) = some (entry, r)) :
    ∃ b, Text.Blanks b ∧ entry ∈ level.entries ∧ b ++ entry.token.toList ++ r = s := by
  obtain ⟨b, hb, hbs⟩ := Text.exists_blanks s
  obtain ⟨he, hs, -⟩ := Level.match?_eq_some hm
  exact ⟨b, hb, he, by rw [List.append_assoc, hs, hbs]⟩

namespace Seed

variable {ls : List Lexeme} {l : Expr}

theorem derives (h : Seed t p ls l) : Derives t (p + 1) ls l := by
  rcases h with h | ⟨h, -⟩
  · exact .operand h
  · exact h

/-- A level that does not group to the left goes on after an operand only. -/
theorem derives_operand (h : Seed t p ls l) {level : Level} (hl : t.level? (p + 1) = some level)
    (ha : level.associativity ≠ .leftToRight) : Derives t p ls l := by
  rcases h with h | ⟨-, level', hl', ha'⟩
  · exact h
  · rw [hl] at hl'
    cases hl'
    exact absurd ha' ha

end Seed

namespace Parsed

/-- A chain is an operand and what goes on after it. -/
theorem extended {l e : Expr} {m : List Char} (h : Parsed t p s l m) (hx : Extended t p l m e r) :
    Parsed t (p + 1) s e r := by
  obtain ⟨w, ls, rfl, hw, hd⟩ := h
  obtain ⟨w', ls', rfl, hw', hd'⟩ := hx
  exact ⟨w ++ w', ls ++ ls', List.append_assoc .., hw.append hw', hd' ls (.inl hd)⟩

theorem parens {e : Expr} {m b : List Char} (hb : Text.Blanks b)
    (h : Parsed t t.maxPrecedence m e (Text.skipBlanks s)) (hs : Text.skipBlanks s = ')' :: r) :
    Parsed t 0 (b ++ '(' :: m) e r := by
  obtain ⟨w, ls, rfl, hw, hd⟩ := h
  refine ⟨b ++ ('(' :: (w ++ [')'])), .opening :: (ls ++ [.closing]), ?_, ?_, .parens hd⟩
  · rw [hs]
    simp
  · exact .cons hb (hw.append (.single Text.blanks_nil .closing))

/-- The lexemes derive the tree whatever follows them. -/
theorem exists_append {e : Expr} (h : Parsed t p s e r) :
    ∃ w, w ++ r = s ∧ ∀ v, Parsed t p (w ++ v) e v := by
  obtain ⟨w, ls, hw, hspell, hd⟩ := h
  exact ⟨w, hw, fun v => ⟨w, ls, rfl, hspell, hd⟩⟩

/-- Blanks that follow may be taken too. -/
theorem skipBlanks {e : Expr} (h : Parsed t p s e r) : Parsed t p s e (Text.skipBlanks r) := by
  obtain ⟨w, ls, rfl, hw, hd⟩ := h
  obtain ⟨b, hb, hr⟩ := Text.exists_blanks r
  exact ⟨w ++ b, ls, by rw [List.append_assoc, hr], hw.append_blanks hb, hd⟩

/-- An operand stands after blanks and the token that was matched. -/
theorem exists_operand {level : Level} {entry : Entry} {q u : List Char} {o : Expr} {pr : Nat}
    (ho : Parsed t pr q o u) (hm : level.match? (Text.skipBlanks s) = some (entry, q)) :
    ∃ b w, Text.Blanks b ∧ entry ∈ level.entries ∧ b ++ entry.token.toList ++ w ++ u = s ∧
      ∀ v, Parsed t pr (w ++ v) o v := by
  obtain ⟨b, hb, he, hs⟩ := Level.exists_token_of_match? hm
  obtain ⟨w, hw, hparsed⟩ := ho.exists_append
  exact ⟨b, w, hb, he, by rw [List.append_assoc, hw, hs], hparsed⟩

end Parsed

namespace Extended

/-- Nothing but blanks leaves a chain as it is. -/
theorem blanks (l : Expr) (s : List Char) : Extended t p l s l (Text.skipBlanks s) := by
  obtain ⟨b, hb, hs⟩ := Text.exists_blanks s
  refine ⟨b, [], hs, .nil hb, fun seed h => ?_⟩
  rw [List.append_nil]
  exact h.derives

theorem none (l : Expr) (s : List Char) : Extended t p l s l s := by
  refine ⟨[], [], rfl, .nil Text.blanks_nil, fun seed h => ?_⟩
  rw [List.append_nil]
  exact h.derives

/-- A token, its right operand, and what follows that. -/
theorem token {l m e : Expr} {entry : Entry} {b q u v : List Char} {pr : Nat} (hb : Text.Blanks b)
    (hm : Parsed t pr q m u)
    (hu : ∃ w ls, w ++ v = u ∧ Spells ls w ∧ ∀ seed rs, Seed t p seed l → Derives t pr rs m →
      Derives t (p + 1) (seed ++ .token entry.token :: (rs ++ ls)) e) :
    Extended t p l (b ++ entry.token.toList ++ q) e v := by
  obtain ⟨w, rs, rfl, hw, hrs⟩ := hm
  obtain ⟨w', ls, rfl, hw', hd⟩ := hu
  refine ⟨b ++ (entry.token.toList ++ (w ++ w')), .token entry.token :: (rs ++ ls), ?_, ?_,
    fun seed hseed => hd seed rs hseed hrs⟩
  · simp only [List.append_assoc]
  · exact .cons hb (hw.append hw')

section Chains

variable {l m o : Expr} {level : Level} {entry : Entry} {b q u : List Char}
  (hl : t.level? (p + 1) = some level) (he : entry ∈ level.entries) (hb : Text.Blanks b)
  (ho : Parsed t p q o u)

include hl he hb ho

theorem left (ha : level.associativity = .leftToRight)
    (hnext : Extended t p (entry.build l o) u m r) :
    Extended t p l (b ++ entry.token.toList ++ q) m r := by
  obtain ⟨he, hp, hassoc⟩ := Table.mem_of_mem_level hl he
  obtain ⟨w, ls, hw, hspell, hd⟩ := hnext
  refine .token hb ho ⟨w, ls, hw, hspell, ?_⟩
  intro seed rs hseed hrs
  -- the chain so far, with its operation, is what the rest of the chain is gone on with after
  have hleft := Derives.left he hp (hassoc.trans ha) hseed.derives hrs
  have := hd _ (.inr ⟨hleft, level, hl, ha⟩)
  rwa [List.append_assoc, List.cons_append] at this

theorem right (ha : level.associativity = .rightToLeft) (hnext : Extended t p o u m r) :
    Extended t p l (b ++ entry.token.toList ++ q) (entry.build l m) r := by
  obtain ⟨he, hp, hassoc⟩ := Table.mem_of_mem_level hl he
  obtain ⟨w, ls, hw, hspell, hd⟩ := hnext
  refine .token hb ho ⟨w, ls, hw, hspell, ?_⟩
  intro seed rs hseed hrs
  -- the rest of the chain begins with the right operand; the seed is an operand by itself
  have hoperand := hseed.derives_operand hl (by rw [ha]; decide)
  exact .right he hp (hassoc.trans ha) hoperand (hd rs (.inl hrs))

theorem once (ha : level.associativity = .nonAssociative) :
    Extended t p l (b ++ entry.token.toList ++ q) (entry.build l o) (Text.skipBlanks u) := by
  obtain ⟨he, hp, hassoc⟩ := Table.mem_of_mem_level hl he
  refine .token hb ho.skipBlanks ⟨[], [], rfl, .nil Text.blanks_nil, ?_⟩
  intro seed rs hseed hrs
  have hoperand := hseed.derives_operand hl (by rw [ha]; decide)
  rw [List.append_nil]
  exact .once he hp (hassoc.trans ha) hoperand hrs

end Chains

end Extended

namespace Reading

variable {h d : Nat}

/-- An operand is derived if the expressions in parentheses are. -/
theorem read_zero_sound {m : Measured}
    (ih : ∀ s' : List Char, s'.length < s.length → ∀ d m r,
      read t h d t.maxPrecedence s' = .done m r → Parsed t t.maxPrecedence s' m.expr r)
    (hr : read t h d 0 s = .done m r) : Parsed t 0 s m.expr r := by
  obtain ⟨b, hb, hbs⟩ := Text.exists_blanks s
  cases read_zero_eq_done_iff.mp hr with
  | @numeral _ _ _ n _ hn =>
      have htext := Numeral.text_append_of_scan? hn
      refine ⟨b ++ n.text, [.numeral n], ?_, .single hb (.numeral n),
        .numeral (Numeral.wellFormed_of_scan? hn)⟩
      rw [List.append_assoc, htext, hbs]
  | parens hopen hm hclose =>
      have hinner := ih _ (Text.length_lt_of_skipBlanks hopen) _ _ _ hm
      rw [← hbs, hopen]
      exact .parens hb hinner.skipBlanks hclose

/-- What is read of texts shorter than `s`, and gone on with in them, is derived. -/
def SoundBelow (t : Table) (h : Nat) (s : List Char) : Prop :=
  ∀ s' : List Char, s'.length < s.length →
    (∀ p d m r, read t h d p s' = .done m r → Parsed t p s' m.expr r) ∧
      ∀ p d l m r, extend t h d (p + 1) l s' = .done m r → Extended t p l.expr s' m.expr r

namespace SoundBelow

variable {l m o : Measured} {level : Level} {entry : Entry} {q u : List Char}

/-- The operand after a token is derived, and what follows it is shorter still. -/
theorem operand (ih : SoundBelow t h s) (hl : t.level? (p + 1) = some level)
    (hm : level.match? (Text.skipBlanks s) = some (entry, q)) (ho : read t h d p q = .done o u) :
    Parsed t p q o.expr u ∧ u.length < s.length :=
  ⟨(ih q (length_skip_match hl hm)).1 p d o u ho, length_link hl hm ho⟩

/-- Going on with a chain is derived if what it reads is. -/
theorem extend (ih : SoundBelow t h s) (hx : Reading.extend t h d (p + 1) l s = .done m r) :
    Extended t p l.expr s m.expr r := by
  cases extend_eq_done_iff.mp hx with
  | noLevel _ => exact .none l.expr s
  | noMatch _ _ => exact .blanks l.expr s
  | left hl ha hm ho _ hnext =>
      obtain ⟨b, hb, he, rfl⟩ := Level.exists_token_of_match? hm
      obtain ⟨hparsed, hlt⟩ := ih.operand hl hm ho
      exact .left hl he hb hparsed ha ((ih _ hlt).2 p d _ m r hnext)
  | right hl ha hm ho hnext _ =>
      obtain ⟨b, hb, he, rfl⟩ := Level.exists_token_of_match? hm
      obtain ⟨hparsed, hlt⟩ := ih.operand hl hm ho
      exact .right hl he hb hparsed ha ((ih _ hlt).2 p d _ _ r hnext)
  | once hl ha hm ho _ _ =>
      obtain ⟨b, hb, he, rfl⟩ := Level.exists_token_of_match? hm
      exact .once hl he hb (ih.operand hl hm ho).1 ha

end SoundBelow

/-- What is read of a precedence is derived of it. -/
theorem read_sound {m : Measured} (hr : read t h d p s = .done m r) : Parsed t p s m.expr r := by
  refine (reading_induction
    (R := fun p s => ∀ d m r, read t h d p s = .done m r → Parsed t p s m.expr r)
    (E := fun s => ∀ p d l m r,
      extend t h d (p + 1) l s = .done m r → Extended t p l.expr s m.expr r)
    ?_ ?_ ?_ s).1 p d m r hr
  · intro s ih d m r hr
    exact read_zero_sound (fun s' hs' => ih s' hs' t.maxPrecedence) hr
  · intro p s ihr ihx d m r hr
    obtain ⟨l, q, hl, hx⟩ := read_succ_eq_done_iff.mp hr
    exact (ihr d l q hl).extended (ihx q (length_read hl) p d l m r hx)
  · intro s ih p d l m r hx
    exact SoundBelow.extend (fun s' hs' => ih s' hs') hx

/-! ### Calls -/

/-- A call that succeeds stops where reading the precedence did. -/
theorem run_level_eq_ok {limits : Limits} {size : Nat} {pos : Position} {e : Expr}
    (hok : (run t limits size (.level p) pos).result = .ok e) :
    ∃ m, read t limits.maxHeight (limits.maxNesting - pos.unclosed) p pos.rest =
        .done m (run t limits size (.level p) pos).stop.rest ∧ m.expr = e := by
  obtain ⟨m, u, r, hread, hfin, he⟩ := run_eq_ok_iff.mp hok
  rw [stop_of_done hread hfin]
  cases hfin
  exact ⟨m, hread, he⟩

/-- A whole source that is read is an expression of the loosest level and blanks. -/
theorem run_whole_eq_ok {limits : Limits} {size : Nat} {pos : Position} {e : Expr}
    (hok : (run t limits size .whole pos).result = .ok e) :
    (run t limits size .whole pos).stop.rest = [] ∧
      ∃ m r, read t limits.maxHeight (limits.maxNesting - pos.unclosed) t.maxPrecedence pos.rest =
        .done m r ∧ m.expr = e ∧ Text.skipBlanks r = [] := by
  obtain ⟨m, u, r, hread, hfin, he⟩ := run_eq_ok_iff.mp hok
  rw [stop_of_done hread hfin]
  obtain ⟨hblank, rfl⟩ := Call.finish_whole_eq_done hfin
  exact ⟨rfl, m, u, hread, he, hblank⟩

/-- A whole source that is read spells an expression of the loosest level. -/
theorem run_whole_sound {limits : Limits} {size : Nat} {pos : Position} {e : Expr}
    (hok : (run t limits size .whole pos).result = .ok e) :
    (run t limits size .whole pos).stop.rest = [] ∧
      ∃ ls, Spells ls pos.rest ∧ Derives t t.maxPrecedence ls e := by
  obtain ⟨hstop, m, r, hread, rfl, hr⟩ := run_whole_eq_ok hok
  obtain ⟨w, ls, hw, hspell, hd⟩ := (read_sound hread).skipBlanks
  rw [hr, List.append_nil] at hw
  subst hw
  exact ⟨hstop, ls, hspell, hd⟩

/-- **Soundness.**  Where reading a precedence succeeds, the text from the place it began at to the
place it stopped at spells lexemes of which the grammar of the table derives the tree, and outside
parentheses no token among them is looser than the precedence.  Where reading a whole source
succeeds, all that is left of the source spells an expression of the loosest level. -/
theorem run_sound (t : Table) (limits : Limits) (size : Nat) (pos : Position) :
    (∀ p e, (run t limits size (.level p) pos).result = .ok e →
      ∃ w ls, w ++ (run t limits size (.level p) pos).stop.rest = pos.rest ∧ Spells ls w ∧
        Derives t p ls e ∧
        ∀ entry ∈ t.entries, entry.token ∈ Lexeme.outside ls → entry.precedence ≤ p) ∧
    (∀ e, (run t limits size .whole pos).result = .ok e →
      (run t limits size .whole pos).stop.rest = [] ∧
        ∃ ls, Spells ls pos.rest ∧ Derives t t.maxPrecedence ls e) := by
  constructor
  · intro p e hok
    obtain ⟨m, hread, rfl⟩ := run_level_eq_ok hok
    obtain ⟨w, ls, hw, hspell, hd⟩ := read_sound hread
    refine ⟨w, ls, hw, hspell, hd, fun entry he hx => ?_⟩
    obtain ⟨entry', he', htok, hp⟩ := hd.outside_le _ hx
    rwa [Table.eq_of_token_eq he' he htok] at hp
  · exact fun e hok => run_whole_sound hok

/-- Of `2*3 + 1` the product is read at the level of `*`, and the sum as a whole. -/
theorem run_sound_product :
    let number (digit : Char) : Expr := .literal (Numeral.value ⟨none, [digit], none, none⟩)
    (∃ w ls, w ++ ['+', ' ', '1'] = "2*3 + 1".toList ∧ Spells ls w ∧
      Derives .arithmetic 2 ls (.binary .mul (number '2') (number '3')) ∧
      ∀ entry ∈ Table.arithmetic.entries,
        entry.token ∈ Lexeme.outside ls → entry.precedence ≤ 2) ∧
    ∃ ls, Spells ls "2*3 + 1".toList ∧
      Derives .arithmetic Table.arithmetic.maxPrecedence ls
        (.binary .add (.binary .mul (number '2') (number '3')) (number '1')) :=
  ⟨(run_sound .arithmetic .usual 7 (.start "2*3 + 1".toList)).1 2 _ rfl,
    ((run_sound .arithmetic .usual 7 (.start "2*3 + 1".toList)).2 _ rfl).2⟩

end Reading

end InfixArith
