import InfixArith.Proofs.Format.Reformat

/-!
# Format — the texts of different values

The text of a value tells which it is (`display_injective`): of a finite double it is a numeral with
that value, and the three others have letters in them that no numeral has.  It is on one line, and how
it may begin is known (`head_display`), so that nothing else need be taken for it.
-/

namespace InfixArith.NumberStyle

variable {v w : Float}

/-- The text of a finite double is written with the characters of numerals. -/
theorem symbol_of_mem_text (style : NumberStyle) (hv : v.isFinite) :
    ∀ c ∈ style.text v, Numeral.Symbol c := by
  obtain ⟨n, hn, htext, -⟩ := exists_numeral style hv
  rw [← htext]
  exact fun c hc => Numeral.symbol_of_mem hn hc

/-- The text of a finite double is told from what follows, if that cannot belong to a numeral. -/
theorem text_append_inj (style : NumberStyle) (hv : v.isFinite) (hw : w.isFinite) {s t : List Char}
    (hs : Numeral.Ends s) (ht : Numeral.Ends t) (h : style.text v ++ s = style.text w ++ t) :
    v = w ∧ s = t := by
  obtain ⟨n, hn, hntext, rfl⟩ := exists_numeral style hv
  obtain ⟨m, hm, hmtext, rfl⟩ := exists_numeral style hw
  have hscan := Numeral.scan?_text_append hn hs
  rw [hntext, h, ← hmtext, Numeral.scan?_text_append hm ht] at hscan
  cases hscan
  exact ⟨rfl, rfl⟩

/-- The text of a finite double begins as a numeral does. -/
theorem text_append_ne (style : NumberStyle) (hv : v.isFinite) {c : Char}
    (hc : ¬ (c.isDigit = true ∨ c = '.' ∨ c = '+' ∨ c = '-')) (s t : List Char) :
    style.text v ++ s ≠ c :: t := by
  obtain ⟨n, hn, htext, -⟩ := exists_numeral style hv
  obtain ⟨d, u, hu, hd⟩ := Numeral.head_text hn
  rw [← htext, hu]
  rintro ⟨⟩
  exact hc hd

/-- Finite doubles with the same text are the same. -/
theorem eq_of_text_eq (style : NumberStyle) (hv : v.isFinite) (hw : w.isFinite)
    (h : style.text v = style.text w) : v = w :=
  (text_append_inj style hv hw Numeral.ends_nil Numeral.ends_nil (by rw [h])).1

theorem isFinite_of_display_eq (hv : v.isFinite) (h : display.text v = display.text w) :
    w.isFinite := by
  by_contra hw
  obtain ⟨c, hc, hletter⟩ := Arithmetic.exists_letter_display hw
  have hsymbol := symbol_of_mem_text display hv c (h ▸ hc)
  rcases hletter with rfl | rfl <;> exact absurd hsymbol (by unfold Numeral.Symbol; decide)

/-- The texts of what is not finite. -/
theorem display_of_not_isFinite (hv : ¬ v.isFinite) :
    display.text v ∈ ["NaN".toList, "inf".toList, "-inf".toList] := by
  rw [text]
  rcases Binary64.view_of_not_isFinite hv with hview | ⟨negative, hview⟩ <;> rw [hview]
  · decide
  · cases negative <;> decide

/-- The infinities and what is no number have texts of their own. -/
theorem view_eq_of_display_eq (hv : ¬ v.isFinite) (hw : ¬ w.isFinite)
    (h : display.text v = display.text w) : Binary64.view v = Binary64.view w := by
  rw [text, text] at h
  rcases Binary64.view_of_not_isFinite hv with hview | ⟨negative, hview⟩ <;>
    rcases Binary64.view_of_not_isFinite hw with hview' | ⟨negative', hview'⟩ <;>
    rw [hview, hview'] at h ⊢
  · revert h
    cases negative' <;> decide
  · revert h
    cases negative <;> decide
  · revert h
    cases negative <;> cases negative' <;> decide

/-- **The text of a value tells which it is**, the sign of zero included. -/
theorem display_injective : Function.Injective display.text := by
  intro v w h
  by_cases hv : v.isFinite
  · exact eq_of_text_eq display hv (isFinite_of_display_eq hv h) h
  · have hw : ¬ w.isFinite := fun hw => hv (isFinite_of_display_eq hw h.symm)
    exact Binary64.view_injective (view_eq_of_display_eq hv hw h)

/-- A value begins with a digit, a point or a sign, or with the letter of what is not finite. -/
theorem head_display (v : Float) :
    ∃ c ∈ (display.text v).head?, c.isDigit = true ∨ c ∈ ['.', '+', '-', 'N', 'i'] := by
  by_cases hv : v.isFinite
  · obtain ⟨n, hn, htext, -⟩ := exists_numeral display hv
    obtain ⟨c, s, hs, hc⟩ := Numeral.head_text hn
    refine ⟨c, by rw [← htext, hs]; rfl, hc.imp_right fun hc => ?_⟩
    rcases hc with rfl | rfl | rfl <;> decide
  · have hmem := display_of_not_isFinite hv
    simp only [List.mem_cons, List.not_mem_nil, or_false] at hmem
    rcases hmem with h | h | h <;> rw [h]
    · exact ⟨'N', by decide, .inr (by decide)⟩
    · exact ⟨'i', by decide, .inr (by decide)⟩
    · exact ⟨'-', by decide, .inr (by decide)⟩

/-- A value is written on one line. -/
theorem newline_not_mem_display (v : Float) : '\n' ∉ display.text v := by
  by_cases hv : v.isFinite
  · exact fun hc => absurd (symbol_of_mem_text display hv _ hc) (by unfold Numeral.Symbol; decide)
  · have hmem := display_of_not_isFinite hv
    simp only [List.mem_cons, List.not_mem_nil, or_false] at hmem
    rcases hmem with h | h | h <;> rw [h] <;> decide

end InfixArith.NumberStyle
