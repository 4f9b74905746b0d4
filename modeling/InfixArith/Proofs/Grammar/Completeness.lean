import InfixArith.Proofs.Grammar.Derivation
import InfixArith.Proofs.Limits.Raising
import InfixArith.Proofs.Reading.Calls

/-!
# Grammar — what is derived is read

`Readable t ls s`: the lexemes `ls` are what a reader that takes what it can at every place finds in
`s`, and the text ends after them.  If lexemes that derive a tree can be found in this way, the
source is read as that tree, unless a limit is reached; then the limit is reported
(`ofSource_of_readable`).

The induction is on the derivation.  An expression is followed by lexemes that its own level and
tighter ones make nothing of, or by an operator its level groups to the left (`Follows`); reading it
comes to going on with the chain of its level after the whole of it (`Completes`).
-/

namespace InfixArith

open Reading (read extend)

variable {t : Table} {h d p : Nat} {ls ks : List Lexeme} {s : List Char}

/-- Reading comes upon the lexeme at the beginning of `s`, with `r` after it: what is tried before
does not match. -/
def Found (t : Table) : Lexeme → (s r : List Char) → Prop
  | .numeral n, s, r => Numeral.scan? s = some (n, r) ∧ s.head? ≠ some '('
  | .opening,   s, r => s = '(' :: r
  | .closing,   s, r => s = ')' :: r ∧ ∀ p level, t.level? p = some level → level.match? s = none
  | .token x,   s, r => ∃ e ∈ t.entries, e.token = x ∧
    (∀ level, t.level? e.precedence = some level → level.match? s = some (e, r)) ∧
    ∀ p < e.precedence, ∀ level, t.level? p = some level → level.match? s = none

/-- The lexemes are found in the text, one after another, and nothing is left. -/
def Readable (t : Table) : List Lexeme → List Char → Prop
  | [],      s => Text.skipBlanks s = []
  | x :: ls, s => ∃ r, Found t x (Text.skipBlanks s) r ∧ Readable t ls r

theorem found_numeral {n : Numeral} (hn : n.WellFormed) {r : List Char} (hr : Numeral.Ends r) :
    Found t (.numeral n) (n.text ++ r) r := by
  refine ⟨Numeral.scan?_text_append hn hr, ?_⟩
  obtain ⟨c, s, htext, hc⟩ := Numeral.head_text hn
  rw [htext]
  rintro ⟨rfl⟩
  revert hc
  decide

/-- A closing parenthesis is found where no token begins with one. -/
theorem found_closing (ht : ∀ e ∈ t.entries, e.token.toList.head? ≠ some ')') (r : List Char) :
    Found t .closing (')' :: r) r := by
  refine ⟨rfl, fun p level hl => Level.match?_eq_none.mpr fun e he hpre => ?_⟩
  have he := (((Table.mem_level? hl).2.1 e).mp he).1
  obtain ⟨rest, hrest⟩ := hpre
  cases htok : e.token.toList with
  | nil => exact Table.token_ne_nil he htok
  | cons c x =>
      rw [htok] at hrest
      cases hrest
      exact ht e he (by rw [htok]; rfl)

/-- A token is found where no token of its level reaches beyond it and no tighter one can be read. -/
theorem found_token {e : Entry} (he : e ∈ t.entries) {r : List Char}
    (hsame : ∀ a ∈ t.entries, a.precedence = e.precedence →
      a.token.toList <+: e.token.toList ++ r → a.token.toList <+: e.token.toList)
    (htighter : ∀ a ∈ t.entries, a.precedence < e.precedence →
      ¬ a.token.toList <+: e.token.toList ++ r) :
    Found t (.token e.token) (e.token.toList ++ r) r := by
  refine ⟨e, he, rfl, fun level hl => Table.match?_token hl he hsame,
    fun p hp level hl => Level.match?_eq_none.mpr fun a ha => ?_⟩
  obtain ⟨ha, rfl⟩ := ((Table.mem_level? hl).2.1 a).mp ha
  exact htighter a ha hp

/-- An expression of precedence `p` does not go on with these lexemes. -/
def Stops (t : Table) (p : Nat) : List Lexeme → Prop
  | []            => True
  | .closing :: _ => True
  | .token x :: _ => ∃ e ∈ t.entries, e.token = x ∧ p < e.precedence
  | _             => False

/-- These lexemes may follow an expression of precedence `p` that a chain of `p` is built of. -/
def Follows (t : Table) (p : Nat) (ks : List Lexeme) : Prop :=
  Stops t p ks ∨ ∃ e ∈ t.entries, e.precedence = p ∧ e.associativity = .leftToRight ∧
    ∃ rest, ks = .token e.token :: rest

/-- Blanks at the beginning make no difference. -/
theorem readable_congr {s' : List Char} (h : Text.skipBlanks s = Text.skipBlanks s')
    (hr : Readable t ks s) : Readable t ks s' := by
  cases ks with
  | nil => exact h.symm.trans hr
  | cons x ks =>
      obtain ⟨r, hx, hr⟩ := hr
      exact ⟨r, h ▸ hx, hr⟩

/-- What is found in a text is spelled by it. -/
theorem Readable.spells (hr : Readable t ks s) : Spells ks s := by
  induction ks generalizing s with
  | nil =>
      obtain ⟨b, hb, hs⟩ := Text.exists_blanks s
      rw [show Text.skipBlanks s = [] from hr, List.append_nil] at hs
      exact .nil (hs ▸ hb)
  | cons x ks ih =>
      obtain ⟨r, hx, hr⟩ := hr
      obtain ⟨b, hb, hs⟩ := Text.exists_blanks s
      have htext : x.text ++ r = Text.skipBlanks s := by
        cases x with
        | numeral n => exact Numeral.text_append_of_scan? hx.1
        | opening => exact hx.symm
        | closing => exact hx.1.symm
        | token x =>
            obtain ⟨e, he, rfl, hm, -⟩ := hx
            obtain ⟨level, hl, -⟩ := Table.exists_level he
            exact (Level.match?_eq_some (hm level hl)).2.1
      rw [← hs, ← htext]
      exact .cons hb (ih hr)

namespace Stops

theorem tighter {q : Nat} (hk : Stops t p ks) (hq : q ≤ p) : Stops t q ks := by
  match ks, hk with
  | [], _ => trivial
  | .closing :: _, _ => trivial
  | .token _ :: _, ⟨e, he, hx, hp⟩ => exact ⟨e, he, hx, Nat.lt_of_le_of_lt hq hp⟩

/-- Where an expression stops, its chain matches nothing. -/
theorem match?_eq_none (hk : Stops t p ks) (hr : Readable t ks s) {level : Level}
    (hl : t.level? p = some level) : level.match? (Text.skipBlanks s) = none := by
  match ks, hk, hr with
  | [], _, hr =>
      rw [Readable] at hr
      cases hm : level.match? (Text.skipBlanks s) with
      | none => rfl
      | some found =>
          have hlt := Reading.length_of_match hl hm
          rw [hr] at hlt
          exact absurd hlt (Nat.not_lt_zero _)
  | .closing :: _, _, ⟨_, hx, _⟩ => exact hx.2 p level hl
  | .token x :: _, ⟨e, he, hx, hp⟩, ⟨_, ⟨e', he', hx', _, hnone⟩, _⟩ =>
      rw [Table.eq_of_token_eq he' he (hx'.trans hx.symm)] at hnone
      exact hnone p hp level hl

/-- Where an expression stops, going on with its chain changes nothing. -/
theorem extend_eq (hk : Stops t p ks) (hr : Readable t ks s) :
    ∃ s', Readable t ks s' ∧ ∀ l, extend t h d p l s = .done l s' := by
  cases hl : t.level? p with
  | none => exact ⟨s, hr, fun l => Reading.extend_of_no_level hl⟩
  | some level =>
      exact ⟨Text.skipBlanks s, readable_congr (Text.skipBlanks_idem s).symm hr,
        fun l => Reading.extend_of_no_match hl (match?_eq_none hk hr hl)⟩

end Stops

namespace Follows

theorem stops_below {q : Nat} (hk : Follows t p ks) (hq : q < p) : Stops t q ks := by
  rcases hk with hk | ⟨e, he, rfl, -, rest, rfl⟩
  · exact hk.tighter (Nat.le_of_lt hq)
  · exact ⟨e, he, rfl, hq⟩

/-- At a level that does not group to the left an expression stops. -/
theorem stops {e : Entry} (hk : Follows t p ks) (he : e ∈ t.entries) (hp : e.precedence = p)
    (ha : e.associativity ≠ .leftToRight) : Stops t p ks := by
  rcases hk with hk | ⟨e', he', hp', ha', -⟩
  · exact hk
  · exact absurd ((t.valid.associativity_eq e he e' he' (hp.trans hp'.symm)).trans ha') ha

end Follows

/-- The token at the head of readable lexemes is matched on the level of its precedence, which groups
as it does. -/
theorem Readable.exists_match {e : Entry} (he : e ∈ t.entries)
    (hr : Readable t (.token e.token :: ks) s) :
    ∃ level r, t.level? e.precedence = some level ∧ level.associativity = e.associativity ∧
      level.match? (Text.skipBlanks s) = some (e, r) ∧ Readable t ks r := by
  obtain ⟨r, ⟨e', he', hx, hm, -⟩, hr⟩ := hr
  cases Table.eq_of_token_eq he' he hx
  obtain ⟨level, hlevel, hmem⟩ := Table.exists_level he
  have hassoc := (Table.mem_level? hlevel).2.2 e hmem
  exact ⟨level, r, hlevel, hassoc.symm, hm level hlevel, hr⟩

/-! ### Limits -/

/-- The lexemes nest no more than `d` parentheses and the tree no more than `h` operations. -/
def Fits (h d : Nat) (ls : List Lexeme) (e : Expr) : Prop := Lexeme.nesting ls ≤ d ∧ e.height ≤ h

/-- Reading an expression in front of `ks` comes to going on with its chain after it, or to a limit
that is reached. -/
def Completes (t : Table) (h d p : Nat) (ks : List Lexeme) (s : List Char) (ls : List Lexeme)
    (e : Expr) : Prop :=
  (Fits h d ls e → ∃ s', Readable t ks s' ∧ read t h d p s = extend t h d p ⟨e, e.height⟩ s') ∧
    (¬ Fits h d ls e → (read t h d p s).Refused)

namespace Completes

variable {e : Expr}

/-- An expression that is not gone on with is read as it is. -/
theorem read_eq (hc : Completes t h d p ks s ls e) (hk : Stops t p ks) (hfit : Fits h d ls e) :
    ∃ s', Readable t ks s' ∧ read t h d p s = .done ⟨e, e.height⟩ s' := by
  obtain ⟨s', hr, heq⟩ := hc.1 hfit
  obtain ⟨s'', hr', hx⟩ := hk.extend_eq hr
  exact ⟨s'', hr', heq.trans (hx _)⟩

theorem numeral {n : Numeral} (hr : Readable t (.numeral n :: ks) s) :
    Completes t h d 0 ks s [.numeral n] (.literal n.value) := by
  obtain ⟨r, ⟨hscan, hhead⟩, hr⟩ := hr
  refine ⟨fun _ => ⟨r, hr, ?_⟩, fun hno => absurd ⟨Nat.zero_le d, Nat.zero_le h⟩ hno⟩
  rw [Reading.extend_of_no_level t.level?_zero, Reading.read_zero]
  split
  · next hs =>
    rw [hs] at hscan
    cases hscan
  · next hs =>
    rw [hs] at hhead
    exact absurd rfl hhead
  · rw [hscan]
    rfl

theorem parens (hd : Derives t t.maxPrecedence ls e)
    (hr : Readable t (.opening :: (ls ++ .closing :: ks)) s)
    (ih : ∀ d s, Readable t (ls ++ .closing :: ks) s →
      Completes t h d t.maxPrecedence (.closing :: ks) s ls e) :
    Completes t h d 0 ks s (.opening :: (ls ++ [.closing])) e := by
  obtain ⟨r, hopen, hr⟩ := hr
  rw [Completes, Fits, hd.nesting_parens]
  cases d with
  | zero =>
      rw [Reading.read_parens_too_deep hopen]
      exact ⟨fun hfit => absurd hfit.1 (Nat.not_succ_le_zero _), fun _ => ⟨_, _, _, .inl rfl⟩⟩
  | succ d =>
      rw [Nat.add_le_add_iff_right, Reading.read_parens hopen]
      constructor
      · intro hfit
        -- the expression inside stops at the closing parenthesis
        obtain ⟨s', ⟨r', ⟨hclose, -⟩, hr'⟩, heq⟩ := (ih d r hr).read_eq trivial hfit
        refine ⟨r', hr', ?_⟩
        have hclosed : (Reading.closing s').outcome = .done () r' := by
          rw [Reading.closing, hclose]
          rfl
        rw [heq, Reading.extend_of_no_level t.level?_zero]
        simp only [Outcome.enclosed, Outcome.done_andThen, hclosed]
      · intro hno
        exact ((ih d r hr).2 hno).enclosed.andThen _

/-- A chain of one operand is gone on with after the operand. -/
theorem operand (hc : Completes t h d p ks s ls e) (hk : Stops t p ks) :
    Completes t h d (p + 1) ks s ls e := by
  rw [Completes, Reading.read_succ]
  constructor
  · intro hfit
    obtain ⟨s', hr, heq⟩ := hc.read_eq hk hfit
    exact ⟨s', hr, by rw [heq, Outcome.done_andThen]⟩
  · exact fun hno => (hc.2 hno).andThen _

end Completes

/-! ### Operations -/

namespace Derives

variable {rs : List Lexeme} {l r : Expr} {entry : Entry}

/-- An operation fits if its operands do and are not too high themselves. -/
theorem fits_operation (hl : Derives t p ls l) (hplain : entry.build = .binary entry.operator) :
    Fits h d (ls ++ .token entry.token :: rs) (entry.build l r) ↔
      Fits h d ls l ∧ Fits h d rs r ∧ max l.height r.height + 1 ≤ h := by
  rw [Fits, hl.nesting_operation, hplain, Expr.height, Fits, Fits]
  omega

end Derives

theorem Measured.build_of_plain {entry : Entry} (hplain : entry.build = .binary entry.operator)
    (l r : Expr) :
    Measured.build entry ⟨l, l.height⟩ ⟨r, r.height⟩ =
      ⟨entry.build l r, (entry.build l r).height⟩ := by
  rw [hplain]
  rw [Measured.build, hplain]
  rfl

/-! ### Every derivation is read -/

namespace Completes

variable {rs : List Lexeme} {l r : Expr} {entry : Entry}

/-- To the left: the chain so far, and another operand. -/
theorem left (hplain : entry.build = .binary entry.operator) (he : entry ∈ t.entries)
    (hp : entry.precedence = p + 1) (ha : entry.associativity = .leftToRight)
    (hd : Derives t (p + 1) ls l) (hk : Stops t p ks)
    (hl : Completes t h d (p + 1) (.token entry.token :: (rs ++ ks)) s ls l)
    (hr : ∀ s, Readable t (rs ++ ks) s → Completes t h d p ks s rs r) :
    Completes t h d (p + 1) ks s (ls ++ .token entry.token :: rs) (entry.build l r) := by
  rw [Completes, hd.fits_operation hplain]
  by_cases hfl : Fits h d ls l
  · obtain ⟨s₁, hs₁, heq⟩ := hl.1 hfl
    obtain ⟨level, q, hlevel, hassoc, hm, hq⟩ := hs₁.exists_match he
    rw [hp] at hlevel
    -- reading the left operand comes to going on at this token
    rw [heq, Reading.extend_left hlevel (hassoc.trans ha) hm]
    by_cases hfr : Fits h d rs r
    · obtain ⟨s₂, hs₂, heq₂⟩ := (hr q hq).read_eq hk hfr
      rw [heq₂, Outcome.done_andThen]
      refine ⟨fun hfit => ⟨s₂, hs₂, ?_⟩, fun hno => ?_⟩
      · rw [Level.combine_fits hfit.2.2, Outcome.done_andThen, Measured.build_of_plain hplain]
      · exact (Level.combine_refused (fun hle => hno ⟨hfl, hfr, hle⟩) _ _).andThen _
    · exact ⟨fun hfit => absurd hfit.2.1 hfr, fun _ => ((hr q hq).2 hfr).andThen _⟩
  · exact ⟨fun hfit => absurd hfit.1 hfl, fun _ => hl.2 hfl⟩

/-- To the right: an operand, and the rest of the chain. -/
theorem right (hplain : entry.build = .binary entry.operator) (he : entry ∈ t.entries)
    (hp : entry.precedence = p + 1) (ha : entry.associativity = .rightToLeft)
    (hd : Derives t p ls l) (hk : Stops t (p + 1) ks)
    (hl : Completes t h d p (.token entry.token :: (rs ++ ks)) s ls l)
    (hr : ∀ s, Readable t (rs ++ ks) s → Completes t h d (p + 1) ks s rs r) :
    Completes t h d (p + 1) ks s (ls ++ .token entry.token :: rs) (entry.build l r) := by
  have hstop : Stops t p (.token entry.token :: (rs ++ ks)) :=
    ⟨entry, he, rfl, hp ▸ Nat.lt_succ_self p⟩
  rw [Completes, hd.fits_operation hplain, Reading.read_succ]
  by_cases hfl : Fits h d ls l
  · obtain ⟨s₁, hs₁, heq⟩ := hl.read_eq hstop hfl
    obtain ⟨level, q, hlevel, hassoc, hm, hq⟩ := hs₁.exists_match he
    rw [hp] at hlevel
    -- the right operand and what it is gone on with are an expression of the same precedence
    rw [heq, Outcome.done_andThen, Reading.extend_right hlevel (hassoc.trans ha) hm,
      ← Outcome.andThen_assoc, ← Reading.read_succ]
    by_cases hfr : Fits h d rs r
    · obtain ⟨s₂, hs₂, heq₂⟩ := (hr q hq).1 hfr
      obtain ⟨s₃, -, hx⟩ := hk.extend_eq hs₂
      rw [heq₂, hx, Outcome.done_andThen]
      refine ⟨fun hfit => ⟨s₂, hs₂, ?_⟩, fun hno => ?_⟩
      · rw [Level.combine_fits hfit.2.2, Measured.build_of_plain hplain, hx]
      · exact Level.combine_refused (fun hle => hno ⟨hfl, hfr, hle⟩) _ _
    · exact ⟨fun hfit => absurd hfit.2.1 hfr, fun _ => ((hr q hq).2 hfr).andThen _⟩
  · exact ⟨fun hfit => absurd hfit.1 hfl, fun _ => (hl.2 hfl).andThen _⟩

/-- Not at all: two operands, and no further operator of the level. -/
theorem once (hplain : entry.build = .binary entry.operator) (he : entry ∈ t.entries)
    (hp : entry.precedence = p + 1) (ha : entry.associativity = .nonAssociative)
    (hd : Derives t p ls l) (hk : Stops t (p + 1) ks)
    (hl : Completes t h d p (.token entry.token :: (rs ++ ks)) s ls l)
    (hr : ∀ s, Readable t (rs ++ ks) s → Completes t h d p ks s rs r) :
    Completes t h d (p + 1) ks s (ls ++ .token entry.token :: rs) (entry.build l r) := by
  have hstop : Stops t p (.token entry.token :: (rs ++ ks)) :=
    ⟨entry, he, rfl, hp ▸ Nat.lt_succ_self p⟩
  rw [Completes, hd.fits_operation hplain, Reading.read_succ]
  by_cases hfl : Fits h d ls l
  · obtain ⟨s₁, hs₁, heq⟩ := hl.read_eq hstop hfl
    obtain ⟨level, q, hlevel, hassoc, hm, hq⟩ := hs₁.exists_match he
    rw [hp] at hlevel
    rw [heq, Outcome.done_andThen, Reading.extend_once hlevel (hassoc.trans ha) hm]
    by_cases hfr : Fits h d rs r
    · obtain ⟨s₂, hs₂, heq₂⟩ := (hr q hq).read_eq (hk.tighter (Nat.le_succ p)) hfr
      -- what follows is no token of the level, so the operation is built
      have hnone := hk.match?_eq_none hs₂ hlevel
      rw [heq₂, Outcome.done_andThen]
      simp only [hnone]
      refine ⟨fun hfit => ⟨s₂, hs₂, ?_⟩, fun hno => ?_⟩
      · rw [Level.combine_fits hfit.2.2, Measured.build_of_plain hplain,
          Reading.extend_of_no_match hlevel hnone]
      · exact Level.combine_refused (fun hle => hno ⟨hfl, hfr, hle⟩) _ _
    · exact ⟨fun hfit => absurd hfit.2.1 hfr, fun _ => ((hr q hq).2 hfr).andThen _⟩
  · exact ⟨fun hfit => absurd hfit.1 hfl, fun _ => (hl.2 hfl).andThen _⟩

end Completes

/-- Lexemes that derive a tree and are found in a text are read as that tree. -/
theorem Derives.completes (hplain : t.Plain) {e : Expr} (hd : Derives t p ls e)
    (hr : Readable t (ls ++ ks) s) (hk : Follows t p ks) : Completes t h d p ks s ls e := by
  induction hd generalizing d s ks with
  | numeral _ => exact .numeral hr
  | @parens ls e hd ih =>
      rw [List.cons_append, List.append_assoc] at hr
      exact .parens hd hr fun d s hr => ih hr (.inl trivial)
  | operand _ ih =>
      have hstop := hk.stops_below (Nat.lt_succ_self _)
      exact (ih hr (.inl hstop)).operand hstop
  | left he hp ha hl _ ihl ihr =>
      rw [List.append_assoc] at hr
      have hstop := hk.stops_below (Nat.lt_succ_self _)
      exact .left (hplain _ he) he hp ha hl hstop (ihl hr (.inr ⟨_, he, hp, ha, _, rfl⟩))
        fun s hr => ihr hr (.inl hstop)
  | right he hp ha hl _ ihl ihr =>
      rw [List.append_assoc] at hr
      have hstop := hk.stops he hp (by rw [ha]; decide)
      exact .right (hplain _ he) he hp ha hl hstop
        (ihl hr (.inl ⟨_, he, rfl, hp ▸ Nat.lt_succ_self _⟩)) fun s hr => ihr hr hk
  | once he hp ha hl _ ihl ihr =>
      rw [List.append_assoc] at hr
      have hstop := hk.stops he hp (by rw [ha]; decide)
      exact .once (hplain _ he) he hp ha hl hstop
        (ihl hr (.inl ⟨_, he, rfl, hp ▸ Nat.lt_succ_self _⟩))
        fun s hr => ihr hr (.inl (hstop.tighter (Nat.le_succ _)))

namespace Reading

/-- A source that is read up to blanks is read. -/
theorem ofSource_eq_ok {limits : Limits} {m : Measured} {r : List Char}
    (hr : read t limits.maxHeight limits.maxNesting t.maxPrecedence s = .done m r)
    (hend : Text.skipBlanks r = []) : (ofSource t limits s).result = .ok m.expr := by
  refine run_eq_ok_iff.mpr ⟨m, r, [], hr, ?_, rfl⟩
  rw [Call.finish, hend]

/-- The fault of a source is reported. -/
theorem ofSource_eq_error {limits : Limits} {f : Fault} {r : List Char} {n : Nat}
    (hr : read t limits.maxHeight limits.maxNesting t.maxPrecedence s = .failed f r n) :
    (ofSource t limits s).result = .error (f.report limits (Text.byteSize s)) := by
  have ho : outcomeAt t limits .whole (.start s) = .failed f r n :=
    congrArg (Outcome.andThen · _) hr
  rw [ofSource, run_result, ho, Outcome.result]

/-- **Completeness.**  A source in which lexemes that derive a tree are found is read as that tree,
unless a limit is reached; then that limit is the error. -/
theorem ofSource_of_readable (hplain : t.Plain) {e : Expr} (hd : Derives t t.maxPrecedence ls e)
    (hr : Readable t ls s) (limits : Limits) :
    (Fits limits.maxHeight limits.maxNesting ls e → (ofSource t limits s).result = .ok e) ∧
    (¬ Fits limits.maxHeight limits.maxNesting ls e → ∃ offset,
      (ofSource t limits s).result = .error (.nestingTooDeep limits.maxNesting offset) ∨
        (ofSource t limits s).result = .error (.treeTooDeep limits.maxHeight offset)) := by
  rw [← List.append_nil ls] at hr
  have hc := hd.completes hplain (h := limits.maxHeight) (d := limits.maxNesting) hr (.inl trivial)
  constructor
  · intro hfit
    obtain ⟨s', hr', heq⟩ := hc.read_eq trivial hfit
    exact ofSource_eq_ok heq hr'
  · intro hno
    obtain ⟨place, r, n, heq | heq⟩ := hc.2 hno
    · exact ⟨_, .inl (ofSource_eq_error heq)⟩
    · exact ⟨_, .inr (ofSource_eq_error heq)⟩

/-- Such a source is read under the limits that it keeps to, and under no others. -/
theorem ofSource_eq_ok_iff (hplain : t.Plain) {e : Expr} (hd : Derives t t.maxPrecedence ls e)
    (hr : Readable t ls s) (limits : Limits) :
    (ofSource t limits s).result = .ok e ↔ Fits limits.maxHeight limits.maxNesting ls e := by
  obtain ⟨hfits, hrefused⟩ := ofSource_of_readable hplain hd hr limits
  refine ⟨fun hok => ?_, hfits⟩
  by_contra hno
  obtain ⟨offset, herr | herr⟩ := hrefused hno
  · cases hok.symm.trans herr
  · cases hok.symm.trans herr

end Reading

end InfixArith
