/-!
# Text — bytes

The UTF-8 size and bytes of a text, and the lines of an input given as bytes.
-/

namespace InfixArith.Text

/-- The number of bytes `s` takes in UTF-8. -/
def byteSize (s : List Char) : Nat := s.foldr (fun c n => c.utf8Size + n) 0

@[simp] theorem byteSize_nil : byteSize [] = 0 := rfl

@[simp] theorem byteSize_cons (c : Char) (s : List Char) :
    byteSize (c :: s) = c.utf8Size + byteSize s := rfl

@[simp] theorem byteSize_append (s t : List Char) :
    byteSize (s ++ t) = byteSize s + byteSize t := by
  induction s with
  | nil => rw [List.nil_append, byteSize_nil, Nat.zero_add]
  | cons c s ih => rw [List.cons_append, byteSize_cons, byteSize_cons, ih, Nat.add_assoc]

/-- The bytes of `s` in UTF-8. -/
def bytes (s : List Char) : List UInt8 := s.flatMap String.utf8EncodeChar

/-- The text whose UTF-8 bytes these are, if there is one. -/
def ofBytes? (bs : List UInt8) : Option (List Char) :=
  (String.fromUTF8? bs.toByteArray).map String.toList

/-- The longest text whose bytes `bs` begins with, and a replacement character if an unfinished
character follows.  At most three bytes of `bs` are left over when `bs` is cut from a text. -/
def ofCutBytes (bs : List UInt8) : List Char :=
  match ofBytes? bs with
  | some s => s
  | none =>
    match [1, 2, 3].findSome? fun n => ofBytes? (bs.take (bs.length - n)) with
    | some s => s ++ [Char.ofNat 0xFFFD]
    | none => [Char.ofNat 0xFFFD]

/-- The line feed, which ends a line. -/
def lineFeed : UInt8 := 10

/-- The lines of an input, each with the line feed that ends it; a last line may lack one. -/
def lines : List UInt8 → List (List UInt8)
  | []      => []
  | b :: bs =>
    if b = lineFeed then [b] :: lines bs
    else
      match lines bs with
      | []      => [[b]]
      | l :: ls => (b :: l) :: ls

/-- Whether a line has the line feed that ends it. -/
def terminated (line : List UInt8) : Bool := line.getLast? == some lineFeed

end InfixArith.Text
