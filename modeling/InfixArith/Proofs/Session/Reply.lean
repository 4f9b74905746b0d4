import InfixArith.Proofs.Format.Distinct
import InfixArith.Proofs.Reading.Message
import InfixArith.Proofs.Reading.Trim
import InfixArith.Proofs.Session.Output

/-!
# Session — the reply to a line

A line that is neither blank nor `!exit` is replied to with one line of text: its value, or the message
of what is wrong with it (`exists_replyText`).  The reply tells which: no message can be taken for a
value, and no value for another.
-/

namespace InfixArith

/-- A message is not the text of a value. -/
theorem ParseError.message_ne_display (e : ParseError) (v : Float) :
    e.message.toList ≠ NumberStyle.display.text v := by
  intro h
  obtain ⟨c, hc, hmessage⟩ := e.begins_message
  obtain ⟨d, hd, hvalue⟩ := NumberStyle.head_display v
  rw [Text.Begins, h, Option.mem_def.mp hd] at hmessage
  cases hmessage
  simp only [List.mem_cons, List.not_mem_nil, or_false] at hc
  rcases hc with rfl | rfl | rfl | rfl | rfl <;> revert hvalue <;> decide

namespace Session

/-- The text that is written for a line. -/
def replyText (figures : Nat) (line : List Char) : List Char :=
  (command figures line).2.flatMap Effect.text

variable {figures : Nat} {line : List Char}

theorem text_records (events : List Event) :
    (events.map Effect.record).flatMap Effect.text = [] := by
  rw [List.flatMap_map]
  exact List.flatMap_eq_nil_iff.mpr fun _ _ => rfl

theorem command_blank (h : Text.firstWord line = []) : command figures line = (.proceed, []) := by
  rw [command, if_pos h]

theorem command_exit (h : Text.firstWord line = exitWord) :
    command figures line = (.leave, [.record .exiting]) := by
  rw [command, h, if_neg (by decide), if_pos rfl]

theorem command_expression (hblank : Text.firstWord line ≠ [])
    (hexit : Text.firstWord line ≠ exitWord) :
    command figures line = (.proceed, reply figures (Text.trim line)) := by
  rw [command, if_neg hblank, if_neg hexit]

/-- Nothing is replied to a blank line. -/
theorem replyText_blank (h : Text.firstWord line = []) : replyText figures line = [] := by
  rw [replyText, command_blank h]
  rfl

theorem replyText_exit (h : Text.firstWord line = exitWord) : replyText figures line = [] := by
  rw [replyText, command_exit h]
  rfl

theorem text_reply (figures : Nat) (line : List Char) :
    (reply figures line).flatMap Effect.text =
      (match (Answer.reading line).result with
        | .ok e    => (Answer.ofExpr figures e .value).text
        | .error e => e.message.toList) ++ ['\n'] := by
  rw [reply, List.flatMap_cons, List.flatMap_append, text_records]
  exact List.append_nil _

/-- The reply to an expression is its value. -/
theorem replyText_ok (hblank : Text.firstWord line ≠ []) (hexit : Text.firstWord line ≠ exitWord)
    {e : Expr} (he : (Answer.reading (Text.trim line)).result = .ok e) :
    replyText figures line =
      NumberStyle.display.text (Rounding.round e.evaluate figures) ++ ['\n'] := by
  rw [replyText, command_expression hblank hexit, text_reply, he]
  rfl

/-- The reply to anything else is what is wrong with it. -/
theorem replyText_error (hblank : Text.firstWord line ≠ []) (hexit : Text.firstWord line ≠ exitWord)
    {e : ParseError} (he : (Answer.reading (Text.trim line)).result = .error e) :
    replyText figures line = e.message.toList ++ ['\n'] := by
  rw [replyText, command_expression hblank hexit, text_reply, he]

/-- **A reply is one line**, if the line replied to is. -/
theorem exists_replyText (figures : Nat) (hline : '\n' ∉ Text.trim line)
    (hblank : Text.firstWord line ≠ []) (hexit : Text.firstWord line ≠ exitWord) :
    ∃ body, replyText figures line = body ++ ['\n'] ∧ '\n' ∉ body := by
  cases he : (Answer.reading (Text.trim line)).result with
  | ok e =>
      exact ⟨_, replyText_ok hblank hexit he, NumberStyle.newline_not_mem_display _⟩
  | error e =>
      have hquoted : '\n' ∉ e.quoted := fun hc => hline (Reading.mem_of_mem_quoted he _ hc)
      exact ⟨_, replyText_error hblank hexit he, ParseError.oneLine_message hquoted⟩

end Session

end InfixArith
