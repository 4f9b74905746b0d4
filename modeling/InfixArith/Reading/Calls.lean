import InfixArith.Reading.Error
import InfixArith.Reading.Levels
import InfixArith.Trace

/-!
# Reading — calls

Expressions are read from a source one after another: each call begins where the last one stopped,
whether it succeeded or not.  Parentheses that a failed call left open stay open, so later calls may
nest fewer.
-/

namespace InfixArith

/-- What is to be read. -/
inductive Call where
  /-- An expression that the source ends with. -/
  | whole
  /-- An expression of the loosest level, leaving what follows. -/
  | expression
  /-- An expression of this precedence or tighter, leaving what follows. -/
  | level (precedence : Nat)
  deriving DecidableEq

/-- How far a source has been read. -/
structure Position where
  rest : List Char
  /-- The parentheses left open by failed calls. -/
  unclosed : Nat
  deriving DecidableEq

namespace Position

def start (source : List Char) : Position := ⟨source, 0⟩

end Position

namespace Call

/-- The reply to a call, with `nesting` more parentheses allowed. -/
def reply (t : Table) (maxHeight nesting : Nat) (call : Call) (s : List Char) : Reply Measured :=
  match call with
  | .whole      => Reading.whole t maxHeight nesting s
  | .expression => Reading.expression t maxHeight nesting t.levels.reverse s
  | .level p    => Reading.expression t maxHeight nesting (t.levelsUpTo p) s

end Call

/-- What a call comes to: the tree or the error, where it stopped, and the notes made. -/
structure Reading where
  call : Call
  /-- The bytes of the source. -/
  size : Nat
  result : Except ParseError Expr
  stop : Position
  notes : Notes

namespace Reading

/-- A call at `p`, in a source of `size` bytes. -/
def run (t : Table) (limits : Limits) (size : Nat) (call : Call) (p : Position) : Reading :=
  let reply := call.reply t limits.maxHeight (limits.maxNesting - p.unclosed) p.rest
  match reply.outcome with
  | .done e rest => ⟨call, size, .ok e.expr, ⟨rest, p.unclosed⟩, reply.notes⟩
  | .failed fault rest unclosed =>
    ⟨call, size, .error (fault.report limits size), ⟨rest, p.unclosed + unclosed⟩, reply.notes⟩

/-- What a call records: the notes made and, when a whole source has been read, its tree. -/
def events (r : Reading) : List Event :=
  let last :=
    match r.call, r.result with
    | .whole, .ok e => [.parsed e]
    | _,      _     => []
  r.notes.toList.map (Event.ofNote r.size) ++ last

/-- The source read as one expression. -/
def ofSource (t : Table) (limits : Limits) (source : List Char) : Reading :=
  run t limits (Text.byteSize source) .whole (.start source)

end Reading

namespace Expr

/-- The expression a source text stands for, with the arithmetic table and the usual limits. -/
def parse (source : String) : Except ParseError Expr :=
  (Reading.ofSource Table.arithmetic .usual source.toList).result

end Expr

end InfixArith
