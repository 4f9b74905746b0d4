import InfixArith.Numeral
import InfixArith.Reading.Reply
import InfixArith.Table.Match

/-!
# Reading — levels, chains and operands

An expression of a level is a chain: operands of the next tighter level with operators of the level
between them.  Below the tightest level an operand is a numeral or an expression of the loosest
level in parentheses.

Nothing is taken back: an operator that follows an operand belongs to the chain.  How the chain
groups is the level's.  A chain that groups to the right is read to its end before its operations
are built, so a fault in a later operand comes before an operation that is too high.

The recursion is on the levels still to descend and, through parentheses, on the nesting still
allowed; a chain is bounded by the length of the text it begins at, for each link takes at least
one character of it.
-/

namespace InfixArith

/-- An expression together with the number of operations stacked up in reading it, which is its
height where every entry builds one operation of its two operands. -/
structure Measured where
  expr : Expr
  height : Nat

namespace Measured

def literal (v : Float) : Measured := ⟨.literal v, 0⟩

/-- What an entry builds. -/
def build (e : Entry) (l r : Measured) : Measured :=
  ⟨e.build l.expr r.expr, max l.height r.height + 1⟩

end Measured

/-- A link of a chain: an operator, the place it stands at, and the operand after it. -/
structure Link where
  entry : Entry
  place : List Char
  operand : Measured

namespace Level

variable (maxHeight : Nat)

/-- The operation of an operator, unless it is higher than allowed. -/
def combine (entry : Entry) (place : List Char) (l r : Measured) (rest : List Char) :
    Reply Measured :=
  if max l.height r.height + 1 ≤ maxHeight then .done (.build entry l r) rest
  else .failed (.treeTooDeep place) rest

variable (level : Level) (operand : List Char → Reply Measured)

/-- Extends `l` by the operators that follow, each operation built as soon as its right operand is
read.  The text `bound` is at least as long as the text read. -/
def chainLeft : (bound : List Char) → Measured → List Char → Reply Measured
  | [], l, s => .done l s
  | _ :: bound, l, s =>
    let place := Text.skipBlanks s
    match level.match? place with
    | none => .done l place
    | some (entry, s) =>
      .after (.matched entry.token level.precedence) <|
        (operand s).andThen fun r s =>
          (combine maxHeight entry place l r s).andThen fun both s => chainLeft bound both s

/-- The links of a chain. -/
def links : (bound : List Char) → List Char → Reply (List Link)
  | [], s => .done [] s
  | _ :: bound, s =>
    let place := Text.skipBlanks s
    match level.match? place with
    | none => .done [] place
    | some (entry, s) =>
      .after (.matched entry.token level.precedence) <|
        (operand s).andThen fun r s =>
          (links bound s).andThen fun ls s => .done (⟨entry, place, r⟩ :: ls) s

/-- The operations of a chain that groups to the right, from its end. -/
def foldLinks (l : Measured) : List Link → List Char → Reply Measured
  | [], s => .done l s
  | link :: ls, s =>
    (foldLinks link.operand ls s).andThen fun r s => combine maxHeight link.entry link.place l r s

/-- At most one operator after `l`. -/
def chainOnce (l : Measured) (s : List Char) : Reply Measured :=
  let place := Text.skipBlanks s
  match level.match? place with
  | none => .done l place
  | some (entry, s) =>
    .after (.matched entry.token level.precedence) <|
      (operand s).andThen fun r s =>
        let next := Text.skipBlanks s
        match level.match? next with
        | some (again, _) => .failed (.chained again.token next) next
        | none => combine maxHeight entry place l r next

/-- The chain that begins with the operand `l`. -/
def chain (l : Measured) (s : List Char) : Reply Measured :=
  match level.associativity with
  | .leftToRight    => chainLeft maxHeight level operand s l s
  | .rightToLeft    => (links level operand s s).andThen fun ls s => foldLinks maxHeight l ls s
  | .nonAssociative => chainOnce maxHeight level operand l s

/-- An expression of the given levels, loosest first, over `atom`. -/
def descend (atom : List Char → Reply Measured) : List Level → List Char → Reply Measured
  | [], s => atom s
  | level :: tighter, s =>
    .after (.level level.precedence s) <|
      (descend atom tighter s).andThen fun l s => chain maxHeight level (descend atom tighter) l s

end Level

namespace Reading

/-- A closing parenthesis. -/
def closing (s : List Char) : Reply Unit :=
  match Text.skipBlanks s with
  | []       => .failed (.endOfText .closing) []
  | ')' :: s => .done () s
  | c :: s   => .failed (.unclosed c (c :: s)) (c :: s)

/-- A numeral or, if `inner` reads what parentheses may hold here, parentheses. -/
def operand (inner : Option (List Char → Reply Measured)) (s : List Char) : Reply Measured :=
  match Text.skipBlanks s with
  | [] => .failed (.endOfText .operand) []
  | '(' :: s =>
    match inner with
    | none       => .failed (.nestingTooDeep ('(' :: s)) s
    | some inner =>
      (inner s).enclosed.andThen fun e s => (closing s).andThen fun _ s => .done e s
  | s =>
    match Numeral.scan? s with
    | none        => .failed (.notOperand s) s
    | some (n, s) => .done (.literal n.value) s

/-- An operand that nests parentheses at most `nesting` deep, over all `levels`. -/
def atom (maxHeight : Nat) (levels : List Level) : (nesting : Nat) → List Char → Reply Measured
  | 0, s           => operand none s
  | nesting + 1, s =>
    operand (some fun s => Level.descend maxHeight (atom maxHeight levels nesting) levels s) s

/-- An expression of the levels `some`, with parentheses nested at most `nesting` deep. -/
def expression (t : Table) (maxHeight nesting : Nat) (levels : List Level) (s : List Char) :
    Reply Measured :=
  Level.descend maxHeight (atom maxHeight t.levels.reverse nesting) levels s

/-- An expression of the loosest level, and nothing after it but blanks. -/
def whole (t : Table) (maxHeight nesting : Nat) (s : List Char) : Reply Measured :=
  (expression t maxHeight nesting t.levels.reverse s).andThen fun e s =>
    match Text.skipBlanks s with
    | []     => .done e []
    | c :: s => .failed (.trailing (c :: s)) (c :: s)

end Reading

end InfixArith
