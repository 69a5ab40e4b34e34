import ReadySet.Library.Codec

/-!
Owns parsers over whole byte strings, with nom's complete combinators: a parser
takes a value off the front or fails, and a choice goes back to where it began.
Also owns how a whole text is read as an integer of fixed width.
-/

namespace ReadySet.Library

open List

abbrev Parser (α : Type) := StateT Bytes Option α

namespace Parser

variable {α β : Type} {input : Bytes}

def encode (text : String) : Bytes := text.toList.flatMap String.utf8EncodeChar

def tag (text : String) : Parser Unit :=
  fun input => ((encode text).isPrefixOf? input).map ((), ·)

def lowercaseByte (byte : UInt8) : UInt8 := if 65 ≤ byte ∧ byte ≤ 90 then byte + 32 else byte

def tagNoCase (text : String) : Parser Unit := fun input =>
  (((encode text).map lowercaseByte).isPrefixOf? (input.map lowercaseByte)).map fun _ =>
    ((), input.drop (encode text).length)

def takeWhile1 (accepts : UInt8 → Bool) : Parser Bytes := fun input =>
  if input.takeWhile accepts = [] then none
  else some (input.takeWhile accepts, input.dropWhile accepts)

def take (count : Nat) : Parser Bytes := fun input =>
  if count ≤ input.length then some (input.take count, input.drop count) else none

def opt (parser : Parser α) : Parser (Option α) := some <$> parser <|> pure none

def value (result : α) (parser : Parser β) : Parser α := (fun _ => result) <$> parser

def delimited (first : Parser Unit) (parser : Parser α) (last : Parser Unit) : Parser α := do
  first
  let value ← parser
  last
  pure value

def mapRes (parser : Parser α) (convert : α → Option β) : Parser β := do
  let value ← parser
  liftM (convert value)

/-- Pieces until one fails; a piece that takes nothing is an error. -/
def foldMany0 (piece : Parser α) (add : β → α → β) (acc : β) : Parser β := fun input =>
  match piece input with
  | none => some (acc, input)
  | some (value, rest) =>
      if rest.length < input.length then foldMany0 piece add (add acc value) rest else none
termination_by input => input.length

theorem foldMany0_some {piece : Parser α} {add : β → α → β} {acc : β} {rest : Bytes}
    {value : α} (takes : piece input = some (value, rest)) (shorter : rest.length < input.length) :
    foldMany0 piece add acc input = foldMany0 piece add (add acc value) rest := by
  rw [foldMany0, takes]
  exact if_pos shorter

theorem length_dropWhile_lt {accepts : UInt8 → Bool} (begins : input.takeWhile accepts ≠ []) :
    (input.dropWhile accepts).length < input.length := by
  have whole := congrArg length (takeWhile_append_dropWhile (p := accepts) (l := input))
  have taken := length_pos_of_ne_nil begins
  rw [length_append] at whole
  omega

end Parser

/-! ## Integers -/

/-- Unsigned integers of a number of bits. -/
def parseUnsigned (bits : Nat) (text : String) : Option Nat :=
  let digits := if text.toList.head? = some '+' then text.toList.tail else text.toList
  if digits ≠ [] ∧ digits.all Char.isDigit ∧ Nat.ofDigitChars 10 digits 0 < 2 ^ bits then
    some (Nat.ofDigitChars 10 digits 0)
  else none

/-- Signed integers of a number of bits. -/
def parseSigned (bits : Nat) (text : String) : Option Int :=
  let negative := text.toList.head? = some '-'
  let digits := if negative ∨ text.toList.head? = some '+' then text.toList.tail else text.toList
  let number : Int := if negative then -Nat.ofDigitChars 10 digits 0 else Nat.ofDigitChars 10 digits 0
  if digits ≠ [] ∧ digits.all Char.isDigit ∧ -2 ^ (bits - 1) ≤ number ∧ number < 2 ^ (bits - 1) then
    some number
  else none

end ReadySet.Library
