import InfixArith.Proofs.Reading.Blanks

/-!
# Reading — blanks at the ends

A text and what is left of it without the blanks at its ends come to the same tree, or to errors that
differ in their offsets by the blanks before the text and in what they quote by the blanks after it
(`ofSource_trim`).  For at every place reached in the one the other differs by the blanks at the end
(`Text.Padded`).
-/

namespace InfixArith

namespace Text

/-! ### Blanks at the ends -/

/-- `s` is `s'` with more blanks before it, if any, and the blanks `b` after it; or there are only
blanks in both. -/
def Padded (b s s' : List Char) : Prop :=
  skipBlanks s = skipBlanks s' ++ b ∨ (skipBlanks s = [] ∧ skipBlanks s' = [])

namespace Padded

variable {b s s' : List Char}

/-- Where something other than a blank stands, the blanks after it are all there is. -/
theorem eq_append {c : Char} {r r' : List Char} (h : Padded b (c :: r) (c :: r'))
    (hc : isBlank c = false) : c :: r = c :: r' ++ b := by
  rw [Padded, skipBlanks_of_head hc, skipBlanks_of_head hc] at h
  exact h.resolve_right fun h => nomatch h.1

theorem of_append (hb : Blanks b) (h : s = s' ++ b ∨ (s = [] ∧ s' = [])) : Padded b s s' := by
  rcases h with rfl | ⟨rfl, rfl⟩
  · rw [Padded, skipBlanks, List.dropWhile_append]
    split
    · next hs => exact .inr ⟨skipBlanks_of_blanks hb, List.isEmpty_iff.mp hs⟩
    · exact .inl rfl
  · exact .inr ⟨rfl, rfl⟩

theorem wordByWord (hb : Blanks b) : WordByWord (Padded b) where
  skip h := by rwa [Padded, skipBlanks_idem, skipBlanks_idem]
  word := by
    intro s s' h
    rcases h with h | ⟨h, h'⟩
    · obtain ⟨r, hr, hs'⟩ := exists_firstWord s'
      rw [← hs', List.append_assoc] at h
      exact firstWord_eq h (noBlank_firstWord s') (hr.append hb)
    · rw [firstWord_eq_nil_iff.mpr h, firstWord_eq_nil_iff.mpr h']
  cut := by
    intro s s' w r r' h hs hs' _
    refine of_append hb ?_
    rcases h with h | ⟨h, h'⟩
    · rw [hs, hs', List.append_assoc] at h
      exact .inl (List.append_cancel_left h)
    · rw [hs] at h
      rw [hs'] at h'
      exact .inr ⟨(List.append_eq_nil_iff.mp h).2, (List.append_eq_nil_iff.mp h').2⟩

end Padded

/-- A text without the blanks at its ends. -/
theorem exists_trim (s : List Char) :
    ∃ b, Blanks b ∧ skipBlanks s = trim s ++ b ∧ skipBlanks (trim s) = trim s := by
  obtain ⟨b, hb, hs⟩ := exists_blanks (skipBlanks s).reverse
  have hsplit : skipBlanks s = trim s ++ b.reverse := by
    rw [trim, dropTrailingBlanks, ← List.reverse_append, hs, List.reverse_reverse]
  refine ⟨b.reverse, fun c hc => hb c (List.mem_reverse.mp hc), hsplit, ?_⟩
  cases ht : trim s with
  | nil => rfl
  | cons c r =>
      rw [ht] at hsplit
      exact skipBlanks_of_head (isBlank_of_skipBlanks_eq_cons hsplit) r

/-- No blank stands at the end of a text without the blanks at its ends. -/
theorem isBlank_of_trim_eq_append {s r : List Char} {c : Char} (h : trim s = r ++ [c]) :
    isBlank c = false := by
  have hrev := congrArg List.reverse h
  rw [trim, dropTrailingBlanks, List.reverse_reverse, List.reverse_append] at hrev
  exact isBlank_of_skipBlanks_eq_cons hrev

theorem padded_trim {s b : List Char} (hs : skipBlanks s = trim s ++ b)
    (ht : skipBlanks (trim s) = trim s) : Padded b s (trim s) :=
  .inl (by rw [ht, hs])

theorem firstWord_trim (s : List Char) : firstWord (trim s) = firstWord s := by
  obtain ⟨b, hb, hs, ht⟩ := exists_trim s
  exact ((Padded.wordByWord hb).word (padded_trim hs ht)).symm

/-- At a place there is no blank yet, so what is more in the text is after it. -/
theorem SamePlace.eq_append {b p p' : List Char} (h : SamePlace (Padded b) p p') : p = p' ++ b := by
  cases h with
  | intro hc h => exact h.eq_append hc

/-- The blanks that a text begins with. -/
def leading (s : List Char) : List Char := s.takeWhile isBlank

theorem leading_append_skipBlanks (s : List Char) : leading s ++ skipBlanks s = s :=
  List.takeWhile_append_dropWhile

end Text

open Text (Blanks Padded byteSize)

namespace ParseError

/-- The error `e` in a text and the error `e'` in the text without the blanks at its ends, `lead`
bytes of them before it: they differ in the offset by `lead`, and `e` may quote more blanks. -/
inductive Trimmed (lead : Nat) : (e e' : ParseError) → Prop where
  | unexpectedEnd (x : Expectation) : Trimmed lead (.unexpectedEnd x) (.unexpectedEnd x)
  | expectedClosing (found : Char) (p : Nat) :
      Trimmed lead (.expectedClosing found (lead + p)) (.expectedClosing found p)
  | invalidNumber (found : String) {b : List Char} (hb : Blanks b) (p : Nat) :
      Trimmed lead (.invalidNumber (found ++ String.ofList b) (lead + p)) (.invalidNumber found p)
  | trailingInput (rest : String) {b : List Char} (hb : Blanks b) (p : Nat) :
      Trimmed lead (.trailingInput (rest ++ String.ofList b) (lead + p)) (.trailingInput rest p)
  | ambiguousChain (token : String) (p : Nat) :
      Trimmed lead (.ambiguousChain token (lead + p)) (.ambiguousChain token p)
  | nestingTooDeep (limit p : Nat) :
      Trimmed lead (.nestingTooDeep limit (lead + p)) (.nestingTooDeep limit p)
  | treeTooDeep (limit p : Nat) :
      Trimmed lead (.treeTooDeep limit (lead + p)) (.treeTooDeep limit p)

end ParseError

namespace Fault

variable {b s s' : List Char} {lead : Nat} {f f' : Fault}

theorem offset_padded {p : List Char} (hs : byteSize s = lead + byteSize s' + byteSize b)
    (hp : p <:+ s') :
    byteSize s - byteSize (p ++ b) = lead + (byteSize s' - byteSize p) := by
  obtain ⟨u, rfl⟩ := hp
  simp only [hs, Text.byteSize_append]
  omega

/-- Alike faults in a text and in the text without the blanks at its ends are reported alike. -/
theorem Alike.report_trimmed (h : f.Alike (Padded b) f') (hb : Blanks b)
    (hs : byteSize s = lead + byteSize s' + byteSize b) (hf : ∀ p ∈ f'.place?, p <:+ s')
    (limits : Limits) :
    (f.report limits (byteSize s)).Trimmed lead (f'.report limits (byteSize s')) := by
  cases h with
  | endOfText x => exact .unexpectedEnd x
  | unclosed h =>
      rw [report, h.eq_append, offset_padded hs (hf _ rfl)]
      exact .expectedClosing _ _
  | notOperand h =>
      rw [report, h.eq_append, offset_padded hs (hf _ rfl), List.take_append,
        String.ofList_append]
      exact .invalidNumber _ (fun c hc => hb c (List.mem_of_mem_take hc)) _
  | trailing h =>
      rw [report, h.eq_append, offset_padded hs (hf _ rfl), String.ofList_append]
      exact .trailingInput _ hb _
  | chained _ h =>
      rw [report, h.eq_append, offset_padded hs (hf _ rfl)]
      exact .ambiguousChain _ _
  | nestingTooDeep h =>
      rw [report, h.eq_append, offset_padded hs (hf _ rfl)]
      exact .nestingTooDeep _ _
  | treeTooDeep h =>
      rw [report, h.eq_append, offset_padded hs (hf _ rfl)]
      exact .treeTooDeep _ _

end Fault

namespace Reading

/-- **Blanks at the ends of a text do not matter**, with a table whose tokens hold none: the text
without them comes to the same tree, or to the same error but for the offset and the blanks quoted. -/
theorem ofSource_trim {t : Table} (ht : t.Unspaced) (limits : Limits) (s : List Char) :
    (∃ e, (ofSource t limits s).result = .ok e ∧
      (ofSource t limits (Text.trim s)).result = .ok e) ∨
    ∃ e e', (ofSource t limits s).result = .error e ∧
      (ofSource t limits (Text.trim s)).result = .error e' ∧
      e.Trimmed (byteSize (Text.leading s)) e' := by
  obtain ⟨b, hb, hs, htrim⟩ := Text.exists_trim s
  have hsize : byteSize s = byteSize (Text.leading s) + byteSize (Text.trim s) + byteSize b := by
    rw [Nat.add_assoc, ← Text.byteSize_append, ← hs, ← Text.byteSize_append,
      Text.leading_append_skipBlanks]
  rcases ofSource_alike (Lockstep.of_words ht (Padded.wordByWord hb)) (Text.padded_trim hs htrim)
    limits with hok | ⟨f, f', hf, -, hplace, he, he'⟩
  · exact .inl hok
  · exact .inr ⟨_, _, he, he', hf.report_trimmed hb hsize hplace limits⟩

end Reading

end InfixArith
