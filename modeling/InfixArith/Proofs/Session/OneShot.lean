import InfixArith.Proofs.Session.Reply

/-!
# Session — a line, and the expression by itself

A session reads a line without the blanks at its ends; asked for a value by itself, the line is read as
it stands.  Both come to the same (`command_agrees`): the session writes a value exactly if that is the
answer, and otherwise what is wrong, told for the line without the blanks.
-/

namespace InfixArith

namespace Answer

variable {figures : Nat} {source : List Char}

/-- Asked for the value of what is read as a tree, the answer is its rounded value. -/
theorem ofSource_value_ok {e : Expr} (he : (reading source).result = .ok e) :
    ofSource figures .value source = .ok (.value (Rounding.round e.evaluate figures)) := by
  rw [ofSource, he]
  rfl

theorem ofSource_error {question : Question} {e : ParseError}
    (he : (reading source).result = .error e) :
    ofSource figures question source = .error (.parse e) := by
  rw [ofSource, he]

end Answer

namespace Session

variable {line : List Char}

/-- The value of a line, in a session and by itself. -/
theorem replyText_eq_display_iff (figures : Nat) (hblank : Text.firstWord line ≠ [])
    (hexit : Text.firstWord line ≠ exitWord) (v : Float) :
    replyText figures line = NumberStyle.display.text v ++ ['\n'] ↔
      Answer.ofSource figures .value line = .ok (.value v) := by
  rcases Reading.ofSource_trim Table.legible_arithmetic.no_blank .usual line with
    ⟨e, he, htrim⟩ | ⟨e, e', he, htrim, -⟩
  · rw [replyText_ok hblank hexit htrim, Answer.ofSource_value_ok he, List.append_left_inj,
      NumberStyle.display_injective.eq_iff]
    exact ⟨fun h => h ▸ rfl, fun h => by cases h; rfl⟩
  · rw [replyText_error hblank hexit htrim, Answer.ofSource_error he, List.append_left_inj]
    exact iff_of_false (e'.message_ne_display v) nofun

/-- What is wrong with a line, in a session and by itself. -/
theorem replyText_of_no_value {figures : Nat} (hblank : Text.firstWord line ≠ [])
    (hexit : Text.firstWord line ≠ exitWord)
    (hno : ∀ v, Answer.ofSource figures .value line ≠ .ok (.value v)) :
    ∃ e e', Answer.ofSource figures .value line = .error (.parse e) ∧
      e.Trimmed (Text.byteSize (Text.leading line)) e' ∧
      replyText figures line = e'.message.toList ++ ['\n'] := by
  rcases Reading.ofSource_trim Table.legible_arithmetic.no_blank .usual line with
    ⟨e, he, -⟩ | ⟨e, e', he, htrim, htrimmed⟩
  · exact absurd (Answer.ofSource_value_ok he) (hno _)
  · exact ⟨e, e', Answer.ofSource_error he, htrimmed, replyText_error hblank hexit htrim⟩

/-- **A session evaluates as one does by itself.**  A line that is neither blank nor `!exit` keeps the
session going.  Carried out on an output that never fails, it writes the text of a value exactly if
this is the answer for the whole line; otherwise there is an error for the whole line, and the message
written is of the same error but for the offset, which counts from the end of the leading blanks, and
for blanks at the end of what is quoted. -/
theorem command_agrees (figures : Nat) (hblank : Text.firstWord line ≠ [])
    (hexit : Text.firstWord line ≠ exitWord) :
    let performed := Sink.run {} ⟨(command figures line).2, none⟩
    (command figures line).1 = .proceed ∧ performed.failure = none ∧
    (∀ v, performed.written = Text.bytes (NumberStyle.display.text v ++ ['\n']) ↔
      Answer.ofSource figures .value line = .ok (.value v)) ∧
    ((∀ v, Answer.ofSource figures .value line ≠ .ok (.value v)) →
      ∃ e e', Answer.ofSource figures .value line = .error (.parse e) ∧
        e.Trimmed (Text.byteSize (Text.leading line)) e' ∧
        performed.written = Text.bytes (e'.message.toList ++ ['\n'])) := by
  intro performed
  obtain ⟨hwritten, hfailure⟩ := Sink.run_endless ⟨(command figures line).2, none⟩
  have hwritten : performed.written = Text.bytes (replyText figures line) := hwritten
  refine ⟨by rw [command_expression hblank hexit], hfailure, fun v => ?_, fun hno => ?_⟩
  · rw [hwritten, Text.bytes_injective.eq_iff]
    exact replyText_eq_display_iff figures hblank hexit v
  · obtain ⟨e, e', he, htrimmed, htext⟩ := replyText_of_no_value hblank hexit hno
    exact ⟨e, e', he, htrimmed, hwritten ▸ congrArg Text.bytes htext⟩

/-- Before the `x` stand a no-break space, of two bytes, and a space; by itself the line is quoted to
its end. -/
theorem command_agrees_letter :
    let line := "\u00A0 x \n".toList
    Text.firstWord line ≠ [] ∧ Text.firstWord line ≠ exitWord ∧
    Answer.ofSource 2 .value line = .error (.parse (.invalidNumber "x \n" 3)) ∧
    ∃ e', (ParseError.invalidNumber "x \n" 3).Trimmed 3 e' ∧
      (Sink.run {} ⟨(command 2 line).2, none⟩).written = Text.bytes (e'.message.toList ++ ['\n']) := by
  intro line
  have hblank : Text.firstWord line ≠ [] := by decide
  have hexit : Text.firstWord line ≠ exitWord := by decide
  have hsource : Answer.ofSource 2 .value line = .error (.parse (.invalidNumber "x \n" 3)) := rfl
  obtain ⟨-, -, -, herror⟩ := command_agrees 2 hblank hexit
  obtain ⟨e, e', he, htrimmed, hwritten⟩ := herror fun v => by rw [hsource]; exact nofun
  cases hsource.symm.trans he
  exact ⟨hblank, hexit, hsource, e', htrimmed, hwritten⟩

end Session

end InfixArith
