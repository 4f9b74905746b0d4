import InfixArith.Proofs.Session.Reply

/-!
# Session — a transcript

A session processes the lines of its input up to the first with `!exit` for its first word, or up to
the first that is not UTF-8, or all of them (`Processes`).  What it writes is the replies to these
lines, one after another, each after a prompt if the session prompts, and one prompt more if it went on
to look for another line (`run_transcript`).

One line is a step (`scriptOfLines_cons`), from which the lines before the last follow
(`scriptOfLines_append`); what becomes of the last depends on how the session ends.
-/

namespace InfixArith.Session

open Text (bytes LinesOf firstWord lineFeed)

/-- How a session ends. -/
inductive Ending where
  /-- With the line that says so. -/
  | left
  | inputEnded
  /-- At a line that is not UTF-8. -/
  | undecodable
  deriving DecidableEq

/-- Of the lines `ls`, a session processes `texts`: those up to and including the first with `!exit`
for its first word, or those before the first that is not UTF-8, or all. -/
inductive Processes (ls : List (List UInt8)) : (texts : List (List Char)) → Ending → Prop where
  | left (before : List (List Char)) {last : List Char} {after : List (List UInt8)}
      (hls : ls = before.map bytes ++ bytes last :: after)
      (hbefore : ∀ s ∈ before, firstWord s ≠ exitWord) (hlast : firstWord last = exitWord) :
      Processes ls (before ++ [last]) .left
  | inputEnded (texts : List (List Char)) (hls : ls = texts.map bytes)
      (htexts : ∀ s ∈ texts, firstWord s ≠ exitWord) : Processes ls texts .inputEnded
  | undecodable (texts : List (List Char)) {line : List UInt8} {after : List (List UInt8)}
      (hls : ls = texts.map bytes ++ line :: after)
      (htexts : ∀ s ∈ texts, firstWord s ≠ exitWord) (hline : ∀ s, bytes s ≠ line) :
      Processes ls texts .undecodable

namespace Processes

variable {ls : List (List UInt8)} {texts : List (List Char)} {ending : Ending}

theorem cons (h : Processes ls texts ending) {s : List Char} (hs : firstWord s ≠ exitWord) :
    Processes (bytes s :: ls) (s :: texts) ending := by
  cases h with
  | left before hls hbefore hlast =>
      exact .left (s :: before) (congrArg _ hls) (List.forall_mem_cons.mpr ⟨hs, hbefore⟩) hlast
  | inputEnded _ hls htexts =>
      exact .inputEnded (s :: texts) (congrArg _ hls) (List.forall_mem_cons.mpr ⟨hs, htexts⟩)
  | undecodable _ hls htexts hline =>
      exact .undecodable (s :: texts) (congrArg _ hls) (List.forall_mem_cons.mpr ⟨hs, htexts⟩) hline

/-- Whatever the lines are, a session processes some of them. -/
theorem exist (ls : List (List UInt8)) : ∃ texts ending, Processes ls texts ending := by
  induction ls with
  | nil => exact ⟨[], .inputEnded, .inputEnded [] rfl nofun⟩
  | cons line ls ih =>
      cases hline : Text.ofBytes? line with
      | none =>
          exact ⟨[], .undecodable, .undecodable [] rfl nofun (Text.ofBytes?_eq_none_iff.mp hline)⟩
      | some s =>
          obtain rfl := Text.ofBytes?_eq_some_iff.mp hline
          by_cases hs : firstWord s = exitWord
          · exact ⟨[s], .left, .left [] rfl nofun hs⟩
          · obtain ⟨texts, ending, h⟩ := ih
            exact ⟨s :: texts, ending, h.cons hs⟩

/-- The lines processed are lines of the input. -/
theorem bytes_mem (h : Processes ls texts ending) : ∀ s ∈ texts, bytes s ∈ ls := by
  intro s hs
  cases h with
  | left _ hls _ _ =>
      rw [hls]
      rcases List.mem_append.mp hs with hs | hs
      · exact List.mem_append_left _ (List.mem_map_of_mem hs)
      · rw [List.mem_singleton.mp hs]
        exact List.mem_append_right _ List.mem_cons_self
  | inputEnded _ hls _ =>
      rw [hls]
      exact List.mem_map_of_mem hs
  | undecodable _ hls _ _ =>
      rw [hls]
      exact List.mem_append_left _ (List.mem_map_of_mem hs)

end Processes

/-! ### Scripts -/

/-- What is done for a line. -/
def turn (prompting : Bool) (figures : Nat) (s : List Char) : List Effect :=
  promptEffects prompting ++ (command figures s).2

section Script

variable (prompting : Bool) (figures : Nat)

theorem command_proceeds {s : List Char} (hs : firstWord s ≠ exitWord) :
    (command figures s).1 = .proceed := by
  by_cases hblank : firstWord s = []
  · rw [command_blank hblank]
  · rw [command_expression hblank hs]

/-- No reading fails, so what is done for a line depends on what its bytes are. -/
theorem scriptOfLines_line (line : List UInt8) (ls : List (List UInt8)) :
    scriptOfLines prompting figures none (line :: ls) =
      .before (promptEffects prompting) (match Text.ofBytes? line with
        | none   => ⟨[], some undecodable⟩
        | some s =>
          match command figures s with
          | (.leave, es)   => ⟨es, none⟩
          | (.proceed, es) => .before es (scriptOfLines prompting figures none ls)) := rfl

/-- One line, and then the rest. -/
theorem scriptOfLines_cons {s : List Char} (hs : firstWord s ≠ exitWord) (ls : List (List UInt8)) :
    scriptOfLines prompting figures none (bytes s :: ls) =
      .before (turn prompting figures s) (scriptOfLines prompting figures none ls) := by
  have hcommand : command figures s = (.proceed, (command figures s).2) :=
    Prod.ext (command_proceeds figures hs) rfl
  rw [scriptOfLines_line, Text.ofBytes?_bytes]
  dsimp only
  rw [hcommand]
  simp only [Script.before, turn, List.append_assoc]

/-- The line that ends the session: what follows it does not matter. -/
theorem scriptOfLines_exit {s : List Char} (hs : firstWord s = exitWord)
    (ls : List (List UInt8)) :
    scriptOfLines prompting figures none (bytes s :: ls) = ⟨turn prompting figures s, none⟩ := by
  simp only [scriptOfLines_line, Text.ofBytes?_bytes, turn, command_exit hs, Script.before]

theorem scriptOfLines_undecodable {line : List UInt8} (hline : ∀ s, bytes s ≠ line)
    (ls : List (List UInt8)) :
    scriptOfLines prompting figures none (line :: ls) =
      ⟨promptEffects prompting, some undecodable⟩ := by
  simp only [scriptOfLines_line, Text.ofBytes?_eq_none_iff.mpr hline, Script.before, List.append_nil]

/-- Lines that keep the session going, and then the rest. -/
theorem scriptOfLines_append {texts : List (List Char)}
    (htexts : ∀ s ∈ texts, firstWord s ≠ exitWord) (ls : List (List UInt8)) :
    scriptOfLines prompting figures none (texts.map bytes ++ ls) =
      .before (texts.flatMap (turn prompting figures)) (scriptOfLines prompting figures none ls) := by
  induction texts with
  | nil => rfl
  | cons s texts ih =>
      obtain ⟨hs, htexts⟩ := List.forall_mem_cons.mp htexts
      rw [List.map_cons, List.cons_append, scriptOfLines_cons prompting figures hs, ih htexts]
      simp only [Script.before, List.flatMap_cons, List.append_assoc]

end Script

/-! ### What is written -/

/-- The prompt, if the session prompts. -/
def promptText (prompting : Bool) : List Char := if prompting then prompt else []

/-- The replies to the lines processed, each after the prompt, and the prompt for the line that did not
come. -/
def transcript (prompting : Bool) (figures : Nat) (texts : List (List Char)) (ending : Ending) :
    List Char :=
  texts.flatMap (fun s => promptText prompting ++ replyText figures s) ++
    if ending = .left then [] else promptText prompting

theorem text_promptEffects (prompting : Bool) :
    (promptEffects prompting).flatMap Effect.text = promptText prompting := by
  cases prompting <;> rfl

theorem text_turns (prompting : Bool) (figures : Nat) (texts : List (List Char)) :
    (texts.flatMap (turn prompting figures)).flatMap Effect.text =
      texts.flatMap fun s => promptText prompting ++ replyText figures s := by
  rw [List.flatMap_assoc]
  refine List.flatMap_congr fun s _ => ?_
  rw [turn, List.flatMap_append, text_promptEffects, replyText]

/-- The script of a session writes the transcript of the lines processed, and fails only at a line that
is not UTF-8. -/
theorem scriptOfLines_processes (prompting : Bool) (figures : Nat) {ls : List (List UInt8)}
    {texts : List (List Char)} {ending : Ending} (h : Processes ls texts ending) :
    (scriptOfLines prompting figures none ls).effects.flatMap Effect.text =
        transcript prompting figures texts ending ∧
      (scriptOfLines prompting figures none ls).failure =
        if ending = .undecodable then some undecodable else none := by
  cases h with
  | left before hls hbefore hlast =>
      rw [hls, scriptOfLines_append prompting figures hbefore,
        scriptOfLines_exit prompting figures hlast]
      refine ⟨?_, rfl⟩
      rw [transcript, ← text_turns]
      simp [Script.before]
  | inputEnded _ hls htexts =>
      have hscript := scriptOfLines_append prompting figures htexts []
      rw [List.append_nil] at hscript
      rw [hls, hscript, transcript, ← text_turns]
      refine ⟨?_, rfl⟩
      simp [Script.before, scriptOfLines, text_promptEffects, Effect.text]
  | undecodable _ hls htexts hline =>
      rw [hls, scriptOfLines_append prompting figures htexts,
        scriptOfLines_undecodable prompting figures hline]
      refine ⟨?_, rfl⟩
      rw [transcript, ← text_turns]
      simp [Script.before, text_promptEffects]

/-- A line without the blanks at its ends has no line feed in it. -/
theorem newline_not_mem_trim {input : List UInt8} {ls : List (List UInt8)} (h : LinesOf input ls)
    {s : List Char} (hs : bytes s ∈ ls) : '\n' ∉ Text.trim s := by
  intro hmem
  obtain ⟨r, u, hr⟩ := List.append_of_mem hmem
  obtain ⟨b, -, hskip, -⟩ := Text.exists_trim s
  -- the line feed at hand is the last character of the line, so it is a blank at its end
  have hbytes : bytes s = bytes (Text.leading s ++ r) ++ lineFeed :: bytes (u ++ b) := by
    have hfeed : bytes ['\n'] = [lineFeed] := by decide
    have hsplit : Text.leading s ++ r ++ (['\n'] ++ (u ++ b)) = s := by
      calc Text.leading s ++ r ++ (['\n'] ++ (u ++ b))
          = Text.leading s ++ (Text.trim s ++ b) := by rw [hr]; simp
        _ = s := by rw [← hskip, Text.leading_append_skipBlanks]
    rw [← List.singleton_append, ← hfeed, ← Text.bytes_append, ← Text.bytes_append, hsplit]
  have hnil := Text.bytes_eq_nil_iff.mp (h.eq_nil_of_mem hs hbytes)
  rw [(List.append_eq_nil_iff.mp hnil).1] at hr
  exact absurd (Text.isBlank_of_trim_eq_append hr) (by decide)

/-- What follows the line that ends a session does not matter. -/
theorem script_after_exit (prompting : Bool) (figures : Nat) {input : List UInt8}
    {before : List (List Char)} {last : List Char} {after : List (List UInt8)}
    (h : LinesOf input (before.map bytes ++ bytes last :: after))
    (hbefore : ∀ s ∈ before, firstWord s ≠ exitWord) (hlast : firstWord last = exitWord) :
    (before ++ [last]).flatMap bytes <+: input ∧
      ∀ other, ((before ++ [last]).flatMap bytes).getLast? = some lineFeed →
        script prompting figures none ((before ++ [last]).flatMap bytes ++ other) =
          script prompting figures none input := by
  have hls : before.map bytes ++ bytes last :: after = (before ++ [last]).map bytes ++ after := by
    rw [List.map_append, List.append_assoc]
    rfl
  have hinput := h.flatten_eq
  rw [hls, List.flatten_append] at hinput
  refine ⟨⟨after.flatten, hinput⟩, fun other hfeed => ?_⟩
  have hfirst := (h.of_append hls).lines_eq
  rw [List.flatMap_def] at hfeed ⊢
  rw [script, script, Text.lines_append hfeed, hfirst, h.lines_eq, List.map_append,
    List.append_assoc, List.map_singleton, List.singleton_append,
    scriptOfLines_append prompting figures hbefore, scriptOfLines_append prompting figures hbefore,
    scriptOfLines_exit prompting figures hlast, scriptOfLines_exit prompting figures hlast]

/-- **A session is its replies, one after another.**  On an output that never fails, it writes the
transcript of the lines it processes, and ends with a failure only at a line that is not UTF-8.  The
reply to a line, which depends on nothing before it, is empty if the line is blank or ends the session,
and otherwise one line.  The bytes after the line that ends the session do not matter. -/
theorem run_transcript (prompting : Bool) (figures : Nat) (input : List UInt8) :
    (∃ ls texts ending, LinesOf input ls ∧ Processes ls texts ending) ∧
    ∀ ls texts ending, LinesOf input ls → Processes ls texts ending →
      let performed := Sink.run {} (script prompting figures none input)
      performed.written = bytes (transcript prompting figures texts ending) ∧
      performed.failure = (if ending = .undecodable then some undecodable else none) ∧
      (∀ s ∈ texts,
        (firstWord s = [] ∨ firstWord s = exitWord → replyText figures s = []) ∧
        (firstWord s ≠ [] → firstWord s ≠ exitWord →
          ∃ body, replyText figures s = body ++ ['\n'] ∧ '\n' ∉ body)) ∧
      (ending = .left → texts.flatMap bytes <+: input ∧
        ∀ other, (texts.flatMap bytes).getLast? = some lineFeed →
          script prompting figures none (texts.flatMap bytes ++ other) =
            script prompting figures none input) := by
  constructor
  · obtain ⟨texts, ending, h⟩ := Processes.exist (Text.lines input)
    exact ⟨Text.lines input, texts, ending, Text.linesOf_iff.mpr rfl, h⟩
  · intro ls texts ending hlines h performed
    obtain ⟨htext, hend⟩ := scriptOfLines_processes prompting figures h
    obtain ⟨hwritten, hfailure⟩ := Sink.run_endless (script prompting figures none input)
    have hscript : script prompting figures none input = scriptOfLines prompting figures none ls := by
      rw [script, hlines.lines_eq]
    refine ⟨?_, ?_, fun s hs => ⟨?_, fun hblank hexit => ?_⟩, fun hleft => ?_⟩
    · rw [hwritten, hscript, htext]
    · rw [hfailure, hscript, hend]
    · rintro (hblank | hexit)
      · exact replyText_blank hblank
      · exact replyText_exit hexit
    · exact exists_replyText figures (newline_not_mem_trim hlines (h.bytes_mem s hs)) hblank hexit
    · subst hleft
      cases h with
      | left before hls hbefore hlast =>
          subst hls
          exact script_after_exit prompting figures hlines hbefore hlast

/-- A blank line has no reply, and the line with `!exit` and what follows it have none either. -/
example : (Sink.run {} (script true 3 none (bytes "x\n\n !exit now\n2".toList))).written =
    bytes ">? Invalid number at position 0: 'x'\n>? >? ".toList := by
  decide +kernel

end InfixArith.Session
