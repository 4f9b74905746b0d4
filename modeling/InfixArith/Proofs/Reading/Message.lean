import InfixArith.Proofs.Reading.Alike

/-!
# Reading — what an error says

An error quotes what stands at its place in the text (`mem_of_mem_quoted`), and its message is on one
line unless what it quotes is not (`oneLine_message`).  What a message begins with is known
(`begins_message`).
-/

namespace InfixArith

namespace Text

/-- The text begins with the character `c`. -/
def Begins (c : Char) (s : String) : Prop := s.toList.head? = some c

instance decidableBegins (c : Char) (s : String) : Decidable (Begins c s) :=
  inferInstanceAs (Decidable (s.toList.head? = some c))

theorem Begins.append {c : Char} {s : String} (hs : Begins c s) (x : String) :
    Begins c (s ++ x) := by
  rw [Begins, String.toList_append, List.head?_append, Option.mem_def.mp hs, Option.some_or]

/-- The text is on one line. -/
def OneLine (s : String) : Prop := '\n' ∉ s.toList

instance decidableOneLine (s : String) : Decidable (OneLine s) :=
  inferInstanceAs (Decidable ('\n' ∉ s.toList))

namespace OneLine

theorem append {s x : String} (hs : OneLine s) (hx : OneLine x) : OneLine (s ++ x) := by
  intro hc
  rw [String.toList_append] at hc
  exact (List.mem_append.mp hc).elim hs hx

theorem number (n : Nat) : OneLine (toString n) := by
  intro hc
  rw [Nat.toString_eq_repr, Nat.toList_repr] at hc
  exact absurd (Nat.isDigit_of_mem_toDigits (by decide) (by decide) hc) (by decide)

end OneLine

end Text

namespace ParseError

/-- What an error quotes of the text. -/
def quoted : ParseError → List Char
  | .expectedClosing found _ => [found]
  | .invalidNumber found _   => found.toList
  | .trailingInput rest _    => rest.toList
  | .ambiguousChain token _  => token.toList
  | _                        => []

open Text (Begins OneLine)

/-- The message of an error begins with one of these capitals. -/
theorem begins_message (e : ParseError) : ∃ c ∈ ['U', 'E', 'I', 'S', 'P'], Begins c e.message := by
  cases e with
  | unexpectedEnd x =>
      have h : Begins 'U' "Unexpected end of input, expected " := by decide
      exact ⟨'U', by decide, h.append _⟩
  | expectedClosing found p =>
      have h : Begins 'E' "Expected ')', got '" := by decide
      exact ⟨'E', by decide, ((h.append _).append _).append _⟩
  | invalidNumber found p =>
      have h : Begins 'I' "Invalid number at position " := by decide
      exact ⟨'I', by decide, (((h.append _).append _).append _).append _⟩
  | trailingInput rest p =>
      have h : Begins 'S' "Syntax error: didn't reach end of input, unconsumed '" := by decide
      exact ⟨'S', by decide, ((h.append _).append _).append _⟩
  | ambiguousChain token p =>
      have h : Begins 'P' "Parentheses are required to chain '" := by decide
      exact ⟨'P', by decide, ((h.append _).append _).append _⟩
  | nestingTooDeep limit p =>
      have h : Begins 'P' "Parentheses nested more than " := by decide
      exact ⟨'P', by decide, ((h.append _).append _).append _⟩
  | treeTooDeep limit p =>
      have h : Begins 'E' "Expression nests more than " := by decide
      exact ⟨'E', by decide, ((h.append _).append _).append _⟩

/-- A message is on one line, if what it quotes is. -/
theorem oneLine_message {e : ParseError} (h : '\n' ∉ e.quoted) : OneLine e.message := by
  have ends : OneLine "' at position " := by decide
  cases e with
  | unexpectedEnd x =>
      refine OneLine.append (by decide) ?_
      cases x <;> decide
  | expectedClosing found p =>
      have hfound : OneLine found.toString := by
        rwa [OneLine, Char.toString_eq_singleton, String.toList_singleton]
      have hopening : OneLine "Expected ')', got '" := by decide
      exact ((hopening.append hfound).append ends).append (.number p)
  | invalidNumber found p =>
      have hopening : OneLine "Invalid number at position " := by decide
      have hfound : OneLine found := h
      exact (((hopening.append (.number p)).append (by decide)).append hfound).append (by decide)
  | trailingInput rest p =>
      have hopening : OneLine "Syntax error: didn't reach end of input, unconsumed '" := by decide
      have hrest : OneLine rest := h
      exact ((hopening.append hrest).append ends).append (.number p)
  | ambiguousChain token p =>
      have hopening : OneLine "Parentheses are required to chain '" := by decide
      have htoken : OneLine token := h
      exact ((hopening.append htoken).append ends).append (.number p)
  | nestingTooDeep limit p =>
      have hopening : OneLine "Parentheses nested more than " := by decide
      have hdeep : OneLine " deep at position " := by decide
      exact ((hopening.append (.number limit)).append hdeep).append (.number p)
  | treeTooDeep limit p =>
      have hopening : OneLine "Expression nests more than " := by decide
      have hdeep : OneLine " operations deep at position " := by decide
      exact ((hopening.append (.number limit)).append hdeep).append (.number p)

end ParseError

namespace Fault

variable {R : List Char → List Char → Prop} {f f' : Fault} {s : List Char}

theorem quoted_report (f : Fault) (limits : Limits) (size : Nat) :
    (f.report limits size).quoted = f.quote := by
  cases f <;> simp [report, ParseError.quoted, quote]

/-- What a fault at a place of a text quotes is in the text. -/
theorem Alike.mem_of_mem_quote (h : f.Alike R f') (hf : ∀ place ∈ f.place?, place <:+ s) :
    ∀ c ∈ f.quote, c ∈ s := by
  intro c hc
  cases hplace : f.place? with
  | some place => exact (hf place hplace).subset ((h.quote_prefix place hplace).subset hc)
  | none =>
      cases f with
      | endOfText x => cases hc
      | _ => cases hplace

end Fault

namespace Reading

/-- **What an error quotes is in the text.** -/
theorem mem_of_mem_quoted {t : Table} {limits : Limits} {s : List Char} {e : ParseError}
    (h : (ofSource t limits s).result = .error e) : ∀ c ∈ e.quoted, c ∈ s := by
  rcases ofSource_alike (Lockstep.equal t) (rfl : s = s) limits with
    ⟨tree, hok, -⟩ | ⟨f, f', hf, hplace, -, he, -⟩
  · rw [hok] at h
    cases h
  · rw [he] at h
    cases h
    rw [Fault.quoted_report]
    exact hf.mem_of_mem_quote hplace

end Reading

end InfixArith
