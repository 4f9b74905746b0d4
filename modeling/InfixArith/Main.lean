import InfixArith.CommandLine

/-!
# Main — the program

Reads the arguments and the standard input, and writes what the run comes to.  A session answers
each line as soon as it is read.
-/

namespace InfixArith.Main

/-- Carries out effects on the standard output. -/
def perform (out : IO.FS.Stream) : List Effect → IO Unit
  | []             => pure ()
  | .write s :: es => do
    out.putStr (String.ofList s)
    perform out es
  | .flush :: es   => do
    out.flush
    perform out es
  | .record _ :: es => perform out es

/-- The bytes up to and with the next line feed, or to the end of the input. -/
partial def nextLine (input : IO.FS.Stream) (line : List UInt8) : IO (List UInt8) := do
  match (← input.read 1).toList with
  | []     => pure line.reverse
  | b :: _ => if b = Text.lineFeed then pure (b :: line).reverse else nextLine input (b :: line)

/-- A session over the standard input; the failure that ends it, if one does. -/
partial def converse (input out : IO.FS.Stream) (prompting : Bool) (figures : Nat) :
    IO (Option Failure) := do
  perform out (Session.promptEffects prompting)
  let line ← nextLine input []
  if line.isEmpty then pure none
  else
    match Text.ofBytes? line with
    | none   => pure (some Session.undecodable)
    | some s =>
      match Session.command figures s with
      | (.leave, _)    => pure none
      | (.proceed, es) => do
        perform out es
        out.flush
        converse input out prompting figures

/-- Writes what a run has come to. -/
def conclude (e : Exit) : IO UInt32 := do
  let out ← IO.getStdout
  out.write e.output.toByteArray
  out.flush
  (← IO.getStderr).putStr e.complaint
  pure e.code

end InfixArith.Main

/-- Runs the program with its arguments. -/
def main (arguments : List String) : IO UInt32 := do
  match InfixArith.CommandLine.ofArguments {} arguments with
  | .request r =>
    if r.expression.isNone then
      let input ← IO.getStdin
      let failure ←
        InfixArith.Main.converse input (← IO.getStdout) (← input.isTty) r.roundTo
      match failure with
      | some f => InfixArith.Main.conclude (.failure [] f)
      | none   => InfixArith.Main.conclude (.success [])
    else InfixArith.Main.conclude (.run arguments [])
  | _ => InfixArith.Main.conclude (.run arguments [])
