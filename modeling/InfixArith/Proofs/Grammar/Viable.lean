import InfixArith.Proofs.Grammar.Arithmetic
import InfixArith.Proofs.Grammar.Soundness
import InfixArith.Proofs.Reading.Places

/-!
# Grammar — what comes before an error

What comes before the place of a fault is the beginning of a text that the grammar derives
(`Fails.viable`): an operand that is missing can be supplied, a parenthesis that is open can be
closed, and where an operator or what follows an expression is refused nothing is missing.  This is so
of operations that are too high as well, though their place lies in a chain of which more has been
read; for the chain could have ended there.

In the arithmetic grammar lexemes that alternate are read as they are spelled, so the text can be gone
on with from there in a way that is read as a tree (`Arithmetic.ofSource_repairable`).
-/

namespace InfixArith

open Reading (read extend)

variable {t : Table} {p : Nat} {s w : List Char}

/-- The text can be gone on with to an expression of precedence `p`. -/
def Viable (t : Table) (p : Nat) (w : List Char) : Prop := ∃ x e, Parsed t p (w ++ x) e []

/-- The text can be gone on with to a chain of precedence `p + 1`, after its operand `l`. -/
def ViableAfter (t : Table) (p : Nat) (l : Expr) (w : List Char) : Prop :=
  ∃ x e, Extended t p l (w ++ x) e []

namespace Viable

/-- An operand that is missing after blanks is supplied. -/
theorem blanks (hb : Text.Blanks w) : Viable t 0 w := by
  obtain ⟨n, hn⟩ : ∃ n : Numeral, n.WellFormed := ⟨_, Numeral.wellFormed_of_scan? (s := ['1']) rfl⟩
  exact ⟨n.text, .literal n.value, _, [.numeral n], List.append_nil _, .single hb (.numeral n),
    .numeral hn⟩

/-- What an expression leaves need not be gone on with. -/
theorem of_parsed {e : Expr} (h : ∀ v, Parsed t p (w ++ v) e v) {b : List Char}
    (hb : Text.Blanks b) : Viable t p (w ++ b) := by
  have hskip := (h b).skipBlanks
  rw [Text.skipBlanks_of_blanks hb] at hskip
  exact ⟨[], e, by rwa [List.append_nil]⟩

/-- The parenthesis is closed after an expression in it. -/
theorem parens {b : List Char} (hb : Text.Blanks b) (h : Viable t t.maxPrecedence w) :
    Viable t 0 (b ++ ['('] ++ w) := by
  obtain ⟨x, e, hparsed⟩ := h
  obtain ⟨u, hu, hclose⟩ := hparsed.exists_append
  rw [List.append_nil] at hu
  subst hu
  exact ⟨x ++ [')'], e, by
    simpa using Parsed.parens (s := [')']) (r := []) hb (hclose [')']) rfl⟩

theorem succ (h : Viable t p w) : Viable t (p + 1) w := by
  obtain ⟨x, e, v, ls, hv, hspell, hd⟩ := h
  exact ⟨x, e, v, ls, hv, hspell, .operand hd⟩

theorem extended {l : Expr} {v : List Char} (h : ∀ u, Parsed t p (w ++ u) l u)
    (hv : ViableAfter t p l v) : Viable t (p + 1) (w ++ v) := by
  obtain ⟨x, e, hx⟩ := hv
  refine ⟨x, e, ?_⟩
  rw [List.append_assoc]
  exact (h (v ++ x)).extended hx

end Viable

namespace ViableAfter

variable {l o : Expr} {level : Level} {entry : Entry} {b v : List Char}

/-- A chain may end after an operand. -/
theorem blanks (l : Expr) (hb : Text.Blanks b) : ViableAfter t p l b := by
  have h := Extended.blanks (t := t) (p := p) l b
  rw [Text.skipBlanks_of_blanks hb] at h
  exact ⟨[], l, by rwa [List.append_nil]⟩

section Chains

variable (hl : t.level? (p + 1) = some level) (he : entry ∈ level.entries) (hb : Text.Blanks b)

include hl he hb

/-- The right operand is completed, and the chain ends with it. -/
theorem operand (h : Viable t p w) : ViableAfter t p l (b ++ entry.token.toList ++ w) := by
  obtain ⟨x, o, ho⟩ := h
  cases ha : level.associativity with
  | leftToRight => exact ⟨x, _, by simpa using Extended.left hl he hb ho ha (.none _ [])⟩
  | rightToLeft => exact ⟨x, _, by simpa using Extended.right hl he hb ho ha (.none o [])⟩
  | nonAssociative => exact ⟨x, _, by
      simpa [Text.skipBlanks_nil] using Extended.once hl he hb ho ha⟩

variable (ho : ∀ v, Parsed t p (w ++ v) o v)

include ho

theorem left (ha : level.associativity = .leftToRight)
    (hv : ViableAfter t p (entry.build l o) v) :
    ViableAfter t p l (b ++ entry.token.toList ++ w ++ v) := by
  obtain ⟨x, e, hx⟩ := hv
  exact ⟨x, e, by simpa using Extended.left hl he hb (ho (v ++ x)) ha hx⟩

theorem right (ha : level.associativity = .rightToLeft) (hv : ViableAfter t p o v) :
    ViableAfter t p l (b ++ entry.token.toList ++ w ++ v) := by
  obtain ⟨x, e, hx⟩ := hv
  exact ⟨x, _, by simpa using Extended.right hl he hb (ho (v ++ x)) ha hx⟩

theorem once (ha : level.associativity = .nonAssociative) (hv : Text.Blanks v) :
    ViableAfter t p l (b ++ entry.token.toList ++ w ++ v) := by
  have h := Extended.once (l := l) hl he hb (ho v) ha
  rw [Text.skipBlanks_of_blanks hv, ← List.append_assoc] at h
  exact ⟨[], _, by rwa [List.append_nil]⟩

end Chains

end ViableAfter

/-! ### Faults -/

/-- What comes before the place of the fault in `s`, or all of `s` if it has none, satisfies `P`. -/
def Fault.After (P : List Char → Prop) (s : List Char) (f : Fault) : Prop :=
  ∃ w, w ++ f.place?.getD [] = s ∧ P w

namespace Fault.After

variable {P Q : List Char → Prop} {f : Fault}

theorem mono (h : f.After Q s) (hP : ∀ w, Q w → P w) : f.After P s := by
  obtain ⟨w, hw, hQ⟩ := h
  exact ⟨w, hw, hP w hQ⟩

/-- The text comes after `w`. -/
theorem append {r : List Char} (h : f.After Q r) (hs : w ++ r = s) (hP : ∀ v, Q v → P (w ++ v)) :
    f.After P s := by
  obtain ⟨v, rfl, hQ⟩ := h
  exact ⟨w ++ v, by rw [List.append_assoc, hs], hP v hQ⟩

/-- The fault is where blanks end. -/
theorem skipBlanks (hf : Text.skipBlanks s = f.place?.getD []) (hP : ∀ b, Text.Blanks b → P b) :
    f.After P s := by
  obtain ⟨b, hb, hs⟩ := Text.exists_blanks s
  exact ⟨b, hf ▸ hs, hP b hb⟩

end Fault.After

namespace Reading

variable {h d n : Nat} {r : List Char} {f : Fault}

/-- The text can be gone on with to what was to be read. -/
def Task.Viable (t : Table) : Task → List Char → Prop
  | .expression p => InfixArith.Viable t p
  | .chain p l    => ViableAfter t p l.expr

theorem ClosingFault.after (hf : ClosingFault s f r) : f.After Text.Blanks s := by
  cases hf with
  | missing hs | other hs => exact .skipBlanks hs fun _ hb => hb

/-- **What comes before a fault is a beginning of what was to be read.** -/
theorem Fails.viable {task : Task} (hf : Fails t h d task s f r n) : f.After (task.Viable t) s := by
  induction hf with
  | missing hs | notOperand hs | tooDeep hs => exact .skipBlanks hs fun _ => Viable.blanks
  | inside hs _ ih =>
      obtain ⟨b, hb, hbs⟩ := Text.exists_blanks_cons hs
      exact ih.append hbs fun v hv => Viable.parens hb hv
  | closing hs hm hf =>
      obtain ⟨b, hb, hbs⟩ := Text.exists_blanks_cons hs
      obtain ⟨w, hw, hparsed⟩ := (read_sound hm).exists_append
      refine hf.after.append (w := b ++ ['('] ++ w) (by rw [List.append_assoc, hw, hbs]) ?_
      intro v hv
      rw [List.append_assoc]
      exact Viable.parens hb (.of_parsed hparsed hv)
  | first _ ih => exact ih.mono fun _ hw => hw.succ
  | after hl _ ih =>
      obtain ⟨w, hw, hparsed⟩ := (read_sound hl).exists_append
      exact ih.append hw fun v hv => Viable.extended hparsed hv
  | operand hl hm _ ih =>
      obtain ⟨b, hb, he, hs⟩ := Level.exists_token_of_match? hm
      exact ih.append hs fun v hv => ViableAfter.operand hl he hb hv
  | left hl ha hm ho _ ih =>
      obtain ⟨b, w, hb, he, hs, hparsed⟩ := (read_sound ho).exists_operand hm
      exact ih.append hs fun v hv => ViableAfter.left hl he hb hparsed ha hv
  | right hl ha hm ho _ ih =>
      obtain ⟨b, w, hb, he, hs, hparsed⟩ := (read_sound ho).exists_operand hm
      exact ih.append hs fun v hv => ViableAfter.right hl he hb hparsed ha hv
  | chained hl ha hm ho =>
      obtain ⟨b, w, hb, he, hs, hparsed⟩ := (read_sound ho).exists_operand hm
      refine Fault.After.append (Q := Text.Blanks) (.skipBlanks rfl fun _ hb => hb) hs ?_
      exact fun v hv => ViableAfter.once hl he hb hparsed ha hv
  | tooHigh => exact .skipBlanks rfl fun _ => ViableAfter.blanks _

/-- What comes before the fault of a call is a beginning of an expression of the precedence it reads. -/
theorem CallFault.viable {call : Call} (hf : CallFault t h d call s f r n) :
    f.After (Viable t (call.precedence t)) s := by
  cases hf with
  | expression hf => exact hf.viable
  | @trailing _ u r c hm hu =>
      obtain ⟨w, hw, hparsed⟩ := (read_sound hm).exists_append
      have hplace : Fault.After Text.Blanks u (.trailing (c :: r)) :=
        .skipBlanks hu fun _ hb => hb
      exact hplace.append hw fun v hv => .of_parsed hparsed hv

end Reading

/-! ### Errors -/

namespace ParseError

/-- Where the error is in the source, in bytes; at its end if nowhere. -/
def offset? : ParseError → Option Nat
  | .unexpectedEnd _     => none
  | .expectedClosing _ p => some p
  | .invalidNumber _ p   => some p
  | .trailingInput _ p   => some p
  | .ambiguousChain _ p  => some p
  | .nestingTooDeep _ p  => some p
  | .treeTooDeep _ p     => some p

end ParseError

theorem Fault.offset?_report (f : Fault) (limits : Limits) (size : Nat) :
    (f.report limits size).offset? = f.place?.map (size - Text.byteSize ·) := by
  cases f <;> rfl

namespace Arithmetic

/-- **What comes before an error can be repaired.**  The source before the place of an error, or all
of it if the error is that it ends, can be gone on with in a way that is read as a tree, under any
limits that are high enough. -/
theorem ofSource_repairable {limits : Limits} {s : List Char} {err : ParseError}
    (h : (Reading.ofSource .arithmetic limits s).result = .error err) :
    ∃ w rest, w ++ rest = s ∧ Text.byteSize w = err.offset?.getD (Text.byteSize s) ∧
      ∃ x e k, ∀ limits' : Limits, k ≤ limits'.maxNesting → e.height ≤ limits'.maxHeight →
        (Reading.ofSource .arithmetic limits' (w ++ x)).result = .ok e := by
  obtain ⟨f, r, n, ho, rfl⟩ := Reading.outcomeAt_of_error h
  obtain ⟨w, hw, x, e, v, ls, hv, hspell, hd⟩ := (Reading.callFault_of_failed ho).viable
  rw [List.append_nil] at hv
  subst hv
  have hread := readable_of_spells hspell hd.alternates_self
  refine ⟨w, _, hw, ?_, x, e, Lexeme.nesting ls, fun limits' hk hheight =>
    (Reading.ofSource_eq_ok_iff Table.plain_arithmetic hd hread limits').mpr ⟨hk, hheight⟩⟩
  have hw : w ++ f.place?.getD [] = s := hw
  rw [Fault.offset?_report, ← hw, Text.byteSize_append]
  cases f.place? with
  | none => rfl
  | some place => exact (Nat.add_sub_cancel ..).symm

/-- In `(1 + *2` an operand and a closing parenthesis are missing after `(1 + `. -/
theorem ofSource_repairable_operand :
    (Reading.ofSource .arithmetic .usual "(1 + *2".toList).result = .error (.invalidNumber "*2" 5) ∧
    ∃ w rest, w ++ rest = "(1 + *2".toList ∧ Text.byteSize w = 5 ∧
      ∃ x e k, ∀ limits' : Limits, k ≤ limits'.maxNesting → e.height ≤ limits'.maxHeight →
        (Reading.ofSource .arithmetic limits' (w ++ x)).result = .ok e :=
  ⟨rfl, @ofSource_repairable .usual _ (.invalidNumber "*2" 5) rfl⟩

end Arithmetic

end InfixArith
