import InfixArith.Answer

/-!
# Session — a shell over lines of input

A session answers its input line by line.  What it does is laid down as a list of effects in their
order, without regard to an output that may fail (`Session.script`); `Sink.perform` carries effects
out on an output until one fails.

A line is trimmed first.  A blank line has no reply, `!exit` as the first word ends the session, and
any other line is an expression, replied to with its rounded value or with what is wrong with it.
-/

namespace InfixArith

/-- What is written before a line is read, if the session prompts. -/
def prompt : List Char := ">? ".toList

/-- The word that ends a session. -/
def exitWord : List Char := "!exit".toList

/-- Something done in the course of a session. -/
inductive Effect where
  | write (text : List Char)
  | flush
  | record (e : Event)

/-- Whether a session goes on after a line. -/
inductive Action where
  | proceed
  | leave
  deriving DecidableEq

/-- What the processing of some input does, and how it ends: `none` is a regular end. -/
structure Script where
  effects : List Effect
  failure : Option Failure

namespace Script

/-- Effects before those of a script. -/
def before (es : List Effect) (s : Script) : Script := ⟨es ++ s.effects, s.failure⟩

end Script

namespace Session

/-- The reply to a line with an expression: its text, after what reading it records. -/
def reply (figures : Nat) (line : List Char) : List Effect :=
  let reading := Answer.reading line
  let text :=
    match reading.result with
    | .ok e    => (Answer.ofExpr figures e .value).text
    | .error e => e.message.toList
  .record (.evaluating line) ::
    (reading.events.map .record ++ [.write (text ++ ['\n'])])

/-- What a line does. -/
def command (figures : Nat) (line : List Char) : Action × List Effect :=
  let word := Text.firstWord line
  if word = [] then (.proceed, [])
  else if word = exitWord then (.leave, [.record .exiting])
  else (.proceed, reply figures (Text.trim line))

/-- What is done before each line is read. -/
def promptEffects (prompting : Bool) : List Effect :=
  if prompting then [.write prompt, .flush] else []

/-- The failure of a line that is not UTF-8. -/
def undecodable : Failure := .io "stream did not contain valid UTF-8"

/-- The script for the lines of an input.  With `readFault`, reading on after the last byte fails,
and a last line without its line feed is lost. -/
def scriptOfLines (prompting : Bool) (figures : Nat) (readFault : Option String) :
    List (List UInt8) → Script
  | [] =>
    .before (promptEffects prompting) <|
      match readFault with
      | some cause => ⟨[], some (.io cause)⟩
      | none       => ⟨[.record .inputEnded], none⟩
  | line :: rest =>
    .before (promptEffects prompting) <|
      match readFault, Text.terminated line with
      | some cause, false => ⟨[], some (.io cause)⟩
      | _, _ =>
        match Text.ofBytes? line with
        | none   => ⟨[], some undecodable⟩
        | some s =>
          match command figures s with
          | (.leave, es)   => ⟨es, none⟩
          | (.proceed, es) => .before es (scriptOfLines prompting figures readFault rest)

/-- The script for an input. -/
def script (prompting : Bool) (figures : Nat) (readFault : Option String) (input : List UInt8) :
    Script :=
  scriptOfLines prompting figures readFault (Text.lines input)

end Session

/-- An output: how many bytes it still takes and which flush fails, each with the cause it then
fails with. -/
structure Sink where
  room : Option Nat := none
  writeFault : String := ""
  badFlush : Option Nat := none
  flushFault : String := ""

/-- What has been carried out on an output. -/
structure Performed where
  written : List UInt8
  flushes : Nat
  events : List Event
  /-- The bytes the output still takes. -/
  room : Option Nat
  failure : Option Failure

namespace Sink

/-- Carries effects out in order until one fails, after `flushed` flushes.  Of a text that does not
fit, the bytes that fit are written. -/
def perform (sink : Sink) : (room : Option Nat) → (flushed : Nat) → List Effect → Performed
  | room, _, [] => ⟨[], 0, [], room, none⟩
  | room, flushed, .record e :: es =>
    let p := perform sink room flushed es
    { p with events := e :: p.events }
  | room, flushed, .flush :: es =>
    if sink.badFlush = some flushed then ⟨[], 1, [], room, some (.io sink.flushFault)⟩
    else
      let p := perform sink room (flushed + 1) es
      { p with flushes := p.flushes + 1 }
  | room, flushed, .write s :: es =>
    let bs := Text.bytes s
    match room with
    | none =>
      let p := perform sink none flushed es
      { p with written := bs ++ p.written }
    | some n =>
      if bs.length ≤ n then
        let p := perform sink (some (n - bs.length)) flushed es
        { p with written := bs ++ p.written }
      else ⟨bs.take n, 0, [], some 0, some (.io sink.writeFault)⟩

/-- Runs a script on an output: it ends with the failure of the output or else with its own. -/
def run (sink : Sink) (s : Script) : Performed :=
  let p := sink.perform sink.room 0 s.effects
  { p with failure := p.failure.or s.failure }

end Sink

end InfixArith
