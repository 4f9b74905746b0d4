import InfixArith.Proofs.Reading.Trim

/-!
# Reading — layout

The layout of a text is how its words are set apart.  `Text.collapse` sets them apart by single
spaces, and changes no word (`words_collapse`); nor does taking away the blanks at the ends
(`words_trim`).  Texts with the same words are the same word by word (`wordByWord_words`), so they are
read in lockstep, and layout decides nothing but the offsets and the blanks that an error quotes
(`ofSource_layout`).

That no part of the layout counts comes from one equation of words: a blank sets the words before it
apart from those after it (`words_append_blank`).
-/

namespace InfixArith

namespace Text

/-- The text with each run of blanks replaced by a single space. -/
def collapse : List Char → List Char
  | []     => []
  | c :: s => if isBlank c then ' ' :: skipBlanks (collapse s) else c :: collapse s

/-- The words of a text: its longest pieces without blanks. -/
def words (s : List Char) : List (List Char) := (s.splitOnP isBlank).filter (· ≠ [])

/-! ### Words -/

variable {s s' w r r' : List Char}

theorem words_append_blank {c : Char} (hc : isBlank c = true) (s r : List Char) :
    words (s ++ c :: r) = words s ++ words r := by
  rw [words, List.splitOnP_append_cons s r hc, List.filter_append, ← words, ← words]

@[simp] theorem words_nil : words [] = [] := by
  rw [words, List.splitOnP_nil]
  rfl

theorem words_cons_blank {c : Char} (hc : isBlank c = true) (s : List Char) :
    words (c :: s) = words s :=
  words_append_blank hc [] s

/-- Words do not go on past a blank. -/
theorem words_append (s : List Char) (hr : AtBlank r) : words (s ++ r) = words s ++ words r := by
  cases r with
  | nil => simp
  | cons c r => rw [words_append_blank (hr c rfl), words_cons_blank (hr c rfl)]

theorem words_blanks {b : List Char} (hb : Blanks b) : words b = [] := by
  induction b with
  | nil => exact words_nil
  | cons c b ih =>
      rw [words_cons_blank (hb c List.mem_cons_self)]
      exact ih fun d hd => hb d (List.mem_cons_of_mem c hd)

theorem words_word (hw : NoBlank w) (hne : w ≠ []) : words w = [w] := by
  rw [words, List.splitOnP_eq_singleton hw]
  simp [hne]

/-- The first word, and those after it. -/
theorem words_eq_cons (hw : NoBlank w) (hne : w ≠ []) (hr : AtBlank r) :
    words (w ++ r) = w :: words r := by
  rw [words_append w hr, words_word hw hne, List.singleton_append]

theorem words_skipBlanks (s : List Char) : words (skipBlanks s) = words s := by
  induction s with
  | nil => rfl
  | cons c s ih =>
      rw [skipBlanks_cons]
      split
      · next hc => rw [ih, words_cons_blank hc]
      · rfl

theorem firstWord_eq_head (s : List Char) : firstWord s = (words s).headD [] := by
  obtain ⟨r, hr, hs⟩ := exists_firstWord s
  rw [← words_skipBlanks]
  by_cases hne : firstWord s = []
  · rw [firstWord_eq_nil_iff.mp hne, hne, words_nil]
    rfl
  · rw [← hs, words_eq_cons (noBlank_firstWord s) hne hr]
    rfl

/-! ### Layouts of the same words -/

theorem words_trim (s : List Char) : words (trim s) = words s := by
  obtain ⟨b, hb, hs, -⟩ := exists_trim s
  have hblank : AtBlank b := fun c hc => hb c (List.mem_of_mem_head? hc)
  rw [← words_skipBlanks s, hs, words_append _ hblank, words_blanks hb, List.append_nil]

/-- What stands before the text may go on into its first word. -/
theorem words_append_collapse (w s : List Char) : words (w ++ collapse s) = words (w ++ s) := by
  induction s generalizing w with
  | nil => rfl
  | cons c s ih =>
      rw [collapse]
      split
      · next hc =>
        have hspace : isBlank ' ' = true := by decide
        rw [words_append_blank hspace, words_append_blank hc, words_skipBlanks]
        exact congrArg _ (ih [])
      · rw [List.append_cons, ih, ← List.append_cons]

theorem words_collapse (s : List Char) : words (collapse s) = words s :=
  words_append_collapse [] s

/-- The text up to its first blank, and the rest. -/
theorem exists_toBlank (s : List Char) : ∃ u q, NoBlank u ∧ AtBlank q ∧ u ++ q = s :=
  ⟨_, _, noBlank_takeWhile s, atBlank_dropWhile s, List.takeWhile_append_dropWhile⟩

/-- Texts that begin alike and have the same words go on with the same words. -/
theorem words_eq_of_append (hw : NoBlank w) (h : words (w ++ r) = words (w ++ r')) :
    words r = words r' := by
  cases w with
  | nil => exact h
  | cons c w =>
      obtain ⟨u, q, hu, hq, rfl⟩ := exists_toBlank r
      obtain ⟨u', q', hu', hq', rfl⟩ := exists_toBlank r'
      have hword : ∀ {v : List Char}, NoBlank v → NoBlank (c :: w ++ v) := fun hv d hd =>
        (List.mem_append.mp hd).elim (hw d) (hv d)
      rw [← List.append_assoc, ← List.append_assoc,
        words_eq_cons (hword hu) (List.cons_ne_nil _ _) hq,
        words_eq_cons (hword hu') (List.cons_ne_nil _ _) hq', List.cons.injEq] at h
      rw [words_append u hq, words_append u' hq', List.append_cancel_left h.1, h.2]

/-- Texts with the same words are the same word by word, however these are set apart. -/
theorem wordByWord_words : WordByWord fun s s' => words s = words s' where
  skip h := by rwa [words_skipBlanks, words_skipBlanks]
  word h := by rw [firstWord_eq_head, firstWord_eq_head, h]
  cut := by
    intro s s' w r r' h hs hs' hw
    rw [← words_skipBlanks s, ← words_skipBlanks s', hs, hs'] at h
    exact words_eq_of_append hw h

end Text

/-- The same error, but for its offset and for what it quotes of the text beyond one character. -/
inductive ParseError.SameKind : (e e' : ParseError) → Prop where
  | unexpectedEnd (x : Expectation) : SameKind (.unexpectedEnd x) (.unexpectedEnd x)
  | expectedClosing (found : Char) (p p' : Nat) :
      SameKind (.expectedClosing found p) (.expectedClosing found p')
  | invalidNumber (found found' : String) (p p' : Nat) :
      SameKind (.invalidNumber found p) (.invalidNumber found' p')
  | trailingInput (rest rest' : String) (p p' : Nat) :
      SameKind (.trailingInput rest p) (.trailingInput rest' p')
  | ambiguousChain (token : String) (p p' : Nat) :
      SameKind (.ambiguousChain token p) (.ambiguousChain token p')
  | nestingTooDeep (limit p p' : Nat) :
      SameKind (.nestingTooDeep limit p) (.nestingTooDeep limit p')
  | treeTooDeep (limit p p' : Nat) : SameKind (.treeTooDeep limit p) (.treeTooDeep limit p')

/-- Alike faults are reported as the same kind of error. -/
theorem Fault.Alike.sameKind {R : List Char → List Char → Prop} {f f' : Fault} (h : f.Alike R f')
    (limits : Limits) (size size' : Nat) :
    (f.report limits size).SameKind (f'.report limits size') := by
  cases h with
  | endOfText x => exact .unexpectedEnd x
  | unclosed h => exact .expectedClosing _ _ _
  | notOperand h => exact .invalidNumber _ _ _ _
  | trailing h => exact .trailingInput _ _ _ _
  | chained _ h => exact .ambiguousChain _ _ _
  | nestingTooDeep h => exact .nestingTooDeep _ _ _
  | treeTooDeep h => exact .treeTooDeep _ _ _

namespace Reading

/-- **Layout does not matter**, with a table whose tokens hold no blank: texts that are equal when
each run of blanks in them is a single space and none stands at the ends come to the same tree, or to
errors of the same kind. -/
theorem ofSource_layout {t : Table} (ht : t.Unspaced) (limits : Limits) {s s' : List Char}
    (h : Text.collapse (Text.trim s) = Text.collapse (Text.trim s')) :
    (∃ e, (ofSource t limits s).result = .ok e ∧ (ofSource t limits s').result = .ok e) ∨
    ∃ e e', (ofSource t limits s).result = .error e ∧ (ofSource t limits s').result = .error e' ∧
      e.SameKind e' := by
  have hwords : Text.words s = Text.words s' := by
    rw [← Text.words_trim s, ← Text.words_trim s', ← Text.words_collapse, h, Text.words_collapse]
  rcases ofSource_alike (Lockstep.of_words ht Text.wordByWord_words) hwords limits with
    hok | ⟨f, f', hf, -, -, he, he'⟩
  · exact .inl hok
  · exact .inr ⟨_, _, he, he', hf.sameKind limits _ _⟩

/-- Of two numerals in a row the second is refused, however far it stands from the first. -/
theorem ofSource_layout_tab :
    let s := "(1 \t2)".toList
    let s' := " (1 2)\n".toList
    Table.arithmetic.Unspaced ∧ Text.collapse (Text.trim s) = Text.collapse (Text.trim s') ∧
      ∃ e e', (ofSource .arithmetic .usual s).result = .error e ∧
        (ofSource .arithmetic .usual s').result = .error e' ∧ e.SameKind e' :=
  ⟨Table.unspaced_arithmetic, rfl,
    (ofSource_layout Table.unspaced_arithmetic .usual rfl).resolve_left fun ⟨_, he, _⟩ => nomatch he⟩

end Reading

end InfixArith
