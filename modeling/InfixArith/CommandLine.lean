import InfixArith.Session

/-!
# CommandLine — arguments, and what a run of the program comes to

At most one expression is given; without one the program is a session over its standard input.

* `-i`, `--interactive`: a session
* `-R N`, `--round-sf N`: round values to `N` significant figures, from 1 up to `2 ^ 32 - 1`
* `--format`, `--tree`: show the text with the fewest parentheses, or the tree as JSON
* `-V`, `--version`: show the version

Short options may share one dash, a value may follow its option directly or after `=`, and after
`--` nothing is an option.  Arguments are read from the left and the first misuse decides; only
`--format` together with `--tree` is noticed at the end.
-/

namespace InfixArith

/-- What has been asked for on a command line. -/
structure Request where
  expression : Option String := none
  interactive : Bool := false
  figures : Option Nat := none
  format : Bool := false
  tree : Bool := false
  deriving DecidableEq

/-- What a command line comes to. -/
inductive CommandLine where
  | misused
  | version
  | request (r : Request)
  deriving DecidableEq

namespace CommandLine

/-- The greatest number of figures that may be asked for, `2 ^ 32 - 1`. -/
def maxFigures : Nat := 4294967295

/-- A number of figures: digits after an optional plus sign. -/
def figures? (s : List Char) : Option Nat :=
  let digits :=
    match s with
    | '+' :: r => r
    | r        => r
  if digits ≠ [] ∧ digits.all Char.isDigit then
    let n := Nat.ofDigitChars 10 digits 0
    if 1 ≤ n ∧ n ≤ maxFigures then some n else none
  else none

/-- The request with an expression, unless it has one. -/
def addExpression? (r : Request) (s : String) : Option Request :=
  if r.expression.isNone then some { r with expression := some s } else none

/-- The request with a number of figures, unless it has one or `s` is none. -/
def addFigures? (r : Request) (s : List Char) : Option Request :=
  if r.figures.isNone then (figures? s).map fun n => { r with figures := some n } else none

def addInteractive? (r : Request) : Option Request :=
  if r.interactive then none else some { r with interactive := true }

def addFormat? (r : Request) : Option Request :=
  if r.format then none else some { r with format := true }

def addTree? (r : Request) : Option Request :=
  if r.tree then none else some { r with tree := true }

/-- What one argument comes to. -/
inductive Step where
  | misused
  | version
  | proceed (r : Request)
  /-- The next argument is the number of figures. -/
  | wantsFigures (r : Request)

namespace Step

def ofRequest? : Option Request → Step
  | some r => .proceed r
  | none   => .misused

end Step

/-- The short options that share one dash. -/
def short (r : Request) : List Char → Step
  | []       => .proceed r
  | 'V' :: _ => .version
  | 'i' :: s =>
    match addInteractive? r with
    | some r => short r s
    | none   => .misused
  | 'R' :: s =>
    match s with
    | []       => .wantsFigures r
    | '=' :: v => .ofRequest? (addFigures? r v)
    | v        => .ofRequest? (addFigures? r v)
  | _        => .misused

/-- A long option, by its name and the value after `=`. -/
def long (r : Request) (name : List Char) (value : Option (List Char)) : Step :=
  match String.ofList name, value with
  | "interactive", none   => .ofRequest? (addInteractive? r)
  | "format",      none   => .ofRequest? (addFormat? r)
  | "tree",        none   => .ofRequest? (addTree? r)
  | "version",     none   => .version
  | "round-sf",    none   => .wantsFigures r
  | "round-sf",    some v => .ofRequest? (addFigures? r v)
  | _,             _      => .misused

/-- The name of a long option and the value after the first `=`. -/
def splitLong (s : List Char) : List Char × Option (List Char) :=
  (s.takeWhile (· ≠ '='),
    match s.dropWhile (· ≠ '=') with
    | [] => none
    | _ :: v => some v)

/-- One argument. -/
def step (r : Request) (argument : String) : Step :=
  match argument.toList with
  | '-' :: '-' :: s => let (name, value) := splitLong s; long r name value
  | '-' :: c :: s   => short r (c :: s)
  | _               => .ofRequest? (addExpression? r argument)

/-- A request that is complete. -/
def finish (r : Request) : CommandLine := if r.format && r.tree then .misused else .request r

/-- Arguments of which none is an option. -/
def expressions (r : Request) : List String → CommandLine
  | []      => finish r
  | a :: as =>
    match addExpression? r a with
    | some r => expressions r as
    | none   => .misused

/-- The arguments after those that led to `r`. -/
def ofArguments (r : Request) : List String → CommandLine
  | []      => finish r
  | a :: as =>
    if a = "--" then expressions r as
    else
      match step r a with
      | .misused        => .misused
      | .version        => .version
      | .proceed r      => ofArguments r as
      | .wantsFigures r =>
        match as with
        | []      => .misused
        | v :: as =>
          match addFigures? r v.toList with
          | some r => ofArguments r as
          | none   => .misused

end CommandLine

namespace Request

/-- What is asked of the expression. -/
def question (r : Request) : Question :=
  if r.format then .format else if r.tree then .tree else .value

/-- The number of figures to round to. -/
def roundTo (r : Request) : Nat := r.figures.getD Rounding.usualFigures

end Request

/-- The end of a run of the program: its exit code and what it has written. -/
structure Exit where
  code : UInt32
  output : List UInt8
  complaint : String

namespace Exit

/-- A regular end. -/
def success (output : List UInt8) : Exit := ⟨0, output, ""⟩

/-- An end in failure, after some output. -/
def failure (output : List UInt8) (f : Failure) : Exit := ⟨1, output, f.message ++ "\n"⟩

/-- What is shown for the version. -/
def versionText : List Char := "mathexpr 0.2.0\n".toList

/-- What is shown for misused arguments. -/
def usageText : String :=
  "Usage: mathexpr [-i] [-R N] [--format | --tree] [-V] [EXPRESSION]\n"

/-- An output performed by a session. -/
def ofPerformed (p : Performed) : Exit :=
  match p.failure with
  | some f => failure p.written f
  | none   => success p.written

/-- A run of the program for a request; `input` is its standard input. -/
def ofRequest (r : Request) (input : List UInt8) : Exit :=
  match r.expression, r.interactive with
  | some _, true  => failure [] (.usage "No expression expected with -i/--interactive")
  | none,   _     => ofPerformed (Sink.run {} (Session.script false r.roundTo none input))
  | some s, false =>
    match Answer.ofSource r.roundTo r.question s.toList with
    | .ok a    => success (Text.bytes (a.text ++ ['\n']))
    | .error f => failure [] f

/-- A run of the program with some arguments. -/
def run (arguments : List String) (input : List UInt8) : Exit :=
  match CommandLine.ofArguments {} arguments with
  | .misused   => ⟨2, [], usageText⟩
  | .version   => success (Text.bytes versionText)
  | .request r => ofRequest r input

end Exit

end InfixArith
