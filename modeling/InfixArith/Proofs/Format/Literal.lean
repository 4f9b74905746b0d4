import InfixArith.Proofs.Decimal.NumberStyle
import InfixArith.Proofs.Grammar.Completeness

/-!
# Format — literals

The text of a finite literal is what the trace writes of it, with a point put in where that has none
(`text_display`).  It is scanned whole before whatever cannot go on a numeral, and read as the
literal it was, bit for bit (`ofSource_literal`).
-/

namespace InfixArith

namespace NumberStyle

/-- Puts a point and a zero before the exponent, or at the end, of a text that has no point. -/
def withPoint (s : List Char) : List Char :=
  if '.' ∈ s then s
  else s.takeWhile (· ≠ 'e') ++ ('.' :: '0' :: s.dropWhile (· ≠ 'e'))

theorem withPoint_of_mem {s : List Char} (h : '.' ∈ s) : withPoint s = s := if_pos h

theorem mem_withPoint (s : List Char) : '.' ∈ withPoint s := by
  unfold withPoint
  split
  · assumption
  · exact List.mem_append_right _ List.mem_cons_self

theorem withPoint_minus (s : List Char) : withPoint ('-' :: s) = '-' :: withPoint s := by
  have hmem : '.' ∈ '-' :: s ↔ '.' ∈ s := List.mem_cons.trans (or_iff_right (by decide))
  unfold withPoint
  by_cases h : '.' ∈ s
  · rw [if_pos h, if_pos (hmem.mpr h)]
  · rw [if_neg h, if_neg (fun hs => h (hmem.mp hs))]
    rfl

theorem mem_positional (ds : List Char) (point : Int) : '.' ∈ positional ds point := by
  unfold positional
  split
  · exact List.mem_cons_of_mem _ List.mem_cons_self
  · split
    · simp
    · exact List.mem_append_right _ List.mem_cons_self

/-- An exponent after digits is left behind the point that is put in. -/
theorem withPoint_exponent {ds s : List Char} (hds : Digits ds) (hs : '.' ∉ s) :
    withPoint (ds ++ 'e' :: s) = ds ++ ('.' :: '0' :: 'e' :: s) := by
  have hne : ∀ c ∈ ds, decide (c ≠ 'e') = true := by
    intro c hc
    refine decide_eq_true ?_
    rintro rfl
    exact absurd (hds _ hc) (by decide)
  have hno : '.' ∉ ds ++ 'e' :: s := by
    intro hmem
    rcases List.mem_append.mp hmem with hd | hmem
    · exact absurd (hds _ hd) (by decide)
    · rcases List.mem_cons.mp hmem with h | h
      · exact absurd h (by decide)
      · exact hs h
  rw [withPoint, if_neg hno, List.takeWhile_append_of_pos hne, List.dropWhile_append_of_pos hne]
  simp

theorem scientific_display {ds : List Char} (hds : Digits ds) (x : Int) :
    scientific display ds x = withPoint (scientific plain ds x) := by
  unfold scientific
  dsimp only
  split
  · have hsign : '.' ∉ (if x < 0 then ['-'] else if plain.plusInExponent = true then ['+'] else []) ++
        Nat.toDigits 10 x.natAbs := by
      intro hmem
      rcases List.mem_append.mp hmem with hmem | hmem
      · split at hmem
        · exact absurd hmem (by decide)
        · exact absurd hmem (by decide)
      · exact absurd (digits_toDigits _ _ hmem) (by decide)
    exact (withPoint_exponent (fun c hc => hds c (List.mem_of_mem_take hc)) hsign).symm
  · rw [withPoint_of_mem]
    · rfl
    · exact List.mem_append_right _ (List.mem_append_left _ List.mem_cons_self)

theorem decimalText_display (d : Decimal) :
    decimalText display d = withPoint (decimalText plain d) := by
  have hfrom : plain.positionalFrom = display.positionalFrom := rfl
  have hbelow : plain.positionalBelow = display.positionalBelow := rfl
  unfold decimalText
  dsimp only
  rw [scientific_display (digits_toDigits _), hfrom, hbelow]
  split
  · exact (withPoint_of_mem (mem_positional _ _)).symm
  · rfl

theorem magnitudeText_display (k : Nat) :
    magnitudeText display k = withPoint (magnitudeText plain k) := by
  unfold magnitudeText
  split
  · rfl
  · exact decimalText_display _

/-- **Literals have a point.**  The text of a finite literal is that of the trace, with a point put
in where there is none. -/
theorem text_display {v : Float} (hv : v.isFinite) :
    display.text v = withPoint (plain.text v) := by
  obtain ⟨hview, -⟩ := Binary64.view_of_isFinite hv
  rw [text, text, hview]
  dsimp only
  split
  · rw [withPoint_minus, magnitudeText_display]
  · exact magnitudeText_display _

end NumberStyle

namespace Completes

/-- A numeral is read at every precedence. -/
theorem numeral_at {t : Table} {n : Numeral} {s : List Char} (hr : Readable t [.numeral n] s)
    (h d p : Nat) : Completes t h d p [] s [.numeral n] (.literal n.value) := by
  induction p with
  | zero => exact .numeral hr
  | succ p ih => exact ih.operand trivial

end Completes

namespace Reading

/-- **Literals read back.**  The text of a finite literal has a point; it is taken whole for a
numeral, whatever comes after it that cannot go on one, and the value of this numeral is the literal,
bit for bit.  So it is read as the literal, with any table and under any limits. -/
theorem ofSource_literal {v : Float} (hv : v.isFinite) :
    '.' ∈ NumberStyle.display.text v ∧
    (∃ n : Numeral, n.text = NumberStyle.display.text v ∧ n.value = v ∧
      ∀ r, Numeral.Ends r →
        Numeral.scan? (Text.skipBlanks (NumberStyle.display.text v ++ r)) = some (n, r)) ∧
    ∀ t limits, (ofSource t limits (NumberStyle.display.text v)).result = .ok (.literal v) := by
  obtain ⟨n, hn, htext, hval⟩ := NumberStyle.exists_numeral .display hv
  obtain ⟨c, s, hhead, hc⟩ := Numeral.head_text hn
  have hskip : ∀ r, Text.skipBlanks (n.text ++ r) = n.text ++ r :=
    Lexeme.skipBlanks_text (x := .numeral n) Text.blanks_nil hhead (Numeral.isBlank_head hc)
  rw [← htext]
  refine ⟨?_, ⟨n, rfl, hval, fun r hr => ?_⟩, fun t limits => ?_⟩
  · rw [htext, NumberStyle.text_display hv]
    exact NumberStyle.mem_withPoint _
  · rw [hskip, Numeral.scan?_text_append hn hr]
  · have hread : Readable t [.numeral n] n.text := by
      refine ⟨[], ?_, rfl⟩
      rw [← List.append_nil n.text, hskip]
      exact found_numeral hn fun _ hc => nomatch hc
    obtain ⟨r, hend, heq⟩ := (Completes.numeral_at hread limits.maxHeight limits.maxNesting
      t.maxPrecedence).read_eq trivial ⟨Nat.zero_le _, Nat.zero_le _⟩
    rw [← hval]
    exact ofSource_eq_ok heq hend

/-- The number `1e16` gets a point before its exponent, and is read from `1.0e16`. -/
theorem ofSource_literal_large :
    let v : Float := Numeral.value ⟨none, ['1'], none, some ⟨'e', none, ['1', '6']⟩⟩
    NumberStyle.display.text v = "1.0e16".toList ∧
    (∃ n : Numeral, n.value = v ∧ ∀ r ∈ [[], " 2".toList, ")".toList],
      Numeral.scan? (Text.skipBlanks ("1.0e16".toList ++ r)) = some (n, r)) ∧
    ∀ t limits, (ofSource t limits "1.0e16".toList).result = .ok (.literal v) := by
  intro v
  have htext : NumberStyle.display.text v = "1.0e16".toList := by decide +kernel
  obtain ⟨-, ⟨n, -, hval, hscan⟩, hread⟩ := ofSource_literal (v := v) (by decide +kernel)
  rw [htext] at hscan hread
  refine ⟨htext, ⟨n, hval, fun r hr => hscan r ?_⟩, hread⟩
  simp only [List.mem_cons, List.not_mem_nil, or_false] at hr
  rcases hr with rfl | rfl | rfl
  · exact fun _ hc => nomatch hc
  · rintro c ⟨rfl⟩
    decide
  · rintro c ⟨rfl⟩
    decide

end Reading

end InfixArith
